import Formula.Proofs.Phrase

/-!
# Brackets around chains

What becomes of the chains of a formula, said of its reading. A chain is a maximal run of two or
more equal operators on a level, each with the operand behind it: divisors in a row within a term,
or subtracted terms in a row. `Phrase.joinChains` puts the operands of every chain into one pair of
brackets, joined by `*` or `+`, and `Phrase.bracketed` does it for division and then for
subtraction.

A phrase is built up on its left, so the operators of a level are met from the last one to the
first. The run that has been met so far is handed down (`tail`), and it is closed where another
operator, or none, comes.

* `Phrase.Binds.bracketed` — the result is bound as its operators demand;
* `Phrase.bracketed_bracketed` — it has no chains left, so a second time changes nothing.
-/

namespace Formula

/-- What comes behind the first operand of a row: operators, each with its right operand. -/
abbrev Tail (α : Type*) : Type _ :=
  List (Token × α)

/-- The same operators with other operands. -/
def Tail.mapOperands {α β : Type*} (f : α → β) (tail : Tail α) : Tail β :=
  tail.map fun link => (link.1, f link.2)

/-! ### The two kinds of chains -/

/-- The operators whose chains are bracketed. -/
inductive Chaining where
  | division
  | subtraction
  deriving DecidableEq, Repr

namespace Chaining

/-- The operator of the chain. -/
def op : Chaining → String
  | division => "/"
  | subtraction => "-"

/-- What joins the operands between the brackets. -/
def joiner : Chaining → String
  | division => "*"
  | subtraction => "+"

/-- The layer of both. -/
def layer : Chaining → Nat
  | division => 2
  | subtraction => 1

theorem one_le_layer (κ : Chaining) : 1 ≤ κ.layer := by
  cases κ <;> decide

/-- The joiner in place of an operator. -/
def join (κ : Chaining) (o : Token) : Token :=
  ⟨.operator, κ.joiner, o.position⟩

/-- The joiner in place of each operator behind a first operand. -/
def rejoin (κ : Chaining) {α : Type*} (tail : Tail α) : Tail α :=
  tail.map fun link => (κ.join link.1, link.2)

/-- Joiners take no notice of what the operands are. -/
theorem mapOperands_rejoin (κ : Chaining) {α β : Type*} (f : α → β) (tail : Tail α) :
    (κ.rejoin tail).mapOperands f = κ.rejoin (tail.mapOperands f) := by
  simp [Tail.mapOperands, rejoin, Function.comp_def]

theorem text_of_isOperator {κ : Chaining} {o : Token} (h : o.isOperator κ.op) :
    o.text = κ.op := by
  simp only [Token.isOperator, Bool.and_eq_true, beq_iff_eq] at h
  exact h.2

theorem joins_of_isOperator {κ : Chaining} {o : Token} (h : o.isOperator κ.op) :
    o.joins κ.layer := by
  simp only [Token.isOperator, Bool.and_eq_true, beq_iff_eq] at h
  cases κ <;> simp [Token.joins, Token.isOperatorIn, layerOps, layer, op, h.1, h.2]

@[simp] theorem joins_join (κ : Chaining) (o : Token) : (κ.join o).joins κ.layer := by
  cases κ <;> rfl

/-- The joiner goes on with no chain. -/
@[simp] theorem isOperator_join (κ μ : Chaining) (o : Token) :
    (κ.join o).isOperator μ.op = false := by
  cases κ <;> cases μ <;> rfl

/-- An operator of another layer belongs to no chain. -/
theorem not_isOperator_of_joins {κ : Chaining} {o : Token} {k : Nat} (h : o.joins k)
    (hk : k ≠ κ.layer) : ¬ o.isOperator κ.op :=
  fun hop => hk (Token.joins_unique h (joins_of_isOperator hop))

/-- No operator belongs to chains of both kinds. -/
theorem eq_of_isOperator {κ μ : Chaining} {o : Token} (hκ : o.isOperator κ.op)
    (hμ : o.isOperator μ.op) : κ = μ := by
  have hlayer := Token.joins_unique (joins_of_isOperator hκ) (joins_of_isOperator hμ)
  cases κ <;> cases μ <;> simp_all [layer]

end Chaining

/-- A pair of brackets that is not written in the formula. -/
def Bounds.added (position : Nat) : Bounds :=
  .brackets ⟨.openBracket, "(", position⟩ ⟨.closeBracket, ")", position⟩

theorem Bounds.written_added (position : Nat) : (added position).Written :=
  ⟨rfl, rfl⟩

namespace Phrase

/-! ### Joining -/

/-- A first operand and operators with their right operands, which associate to the left. -/
def chained (p : Phrase) (tail : Tail Phrase) : Phrase :=
  tail.foldl (fun p link => .binary p link.1 link.2) p

section Joining

variable (κ : Chaining)

/-- A phrase and the operands behind it, all joined by the joiner. -/
def joined (p : Phrase) (tail : Tail Phrase) : Phrase :=
  chained p (κ.rejoin tail)

/-- What the operator `o` is applied to if it starts a run: its operand `p`, or all operands of the
run in brackets, at the place of `o`. -/
def gathered (o : Token) (p : Phrase) : Tail Phrase → Phrase
  | [] => p
  | link :: tail => .region (.added o.position) (joined κ p (link :: tail))

/-- A phrase and a run behind it. -/
def closeChain (p : Phrase) : Tail Phrase → Phrase
  | [] => p
  | (o, q) :: tail => .binary p o (gathered κ o q tail)

/-- **Brackets around chains**, at every level of a phrase in front of a run. A sign may start a
chain, as if it had a left operand. -/
def joinChains : Phrase → Tail Phrase → Phrase
  | operand t, tail => closeChain κ (operand t) tail
  | region b p, tail => closeChain κ (region b (joinChains p [])) tail
  | signed s p, tail =>
    if s.isOperator κ.op then signed s (gathered κ s (joinChains p []) tail)
    else closeChain κ (signed s (joinChains p [])) tail
  | binary l o r, tail =>
    if o.isOperator κ.op then joinChains l ((o, joinChains r []) :: tail)
    else closeChain κ (binary (joinChains l []) o (joinChains r [])) tail

end Joining

/-- **The phrase with its chains bracketed**, those of division first. -/
def bracketed (p : Phrase) : Phrase :=
  (p.joinChains .division []).joinChains .subtraction []

variable {κ μ : Chaining}

@[simp] theorem closeChain_nil (p : Phrase) : closeChain κ p [] = p := rfl

theorem joinChains_region (b : Bounds) (p : Phrase) :
    (region b p).joinChains κ [] = region b (p.joinChains κ []) := rfl

theorem joinChains_signed (s : Token) (p : Phrase) :
    (signed s p).joinChains κ [] = signed s (p.joinChains κ []) := by
  rw [joinChains]
  split <;> rfl

/-- An operator that is not of the chain stays. -/
theorem joinChains_binary {o : Token} (ho : ¬ o.isOperator κ.op) (l r : Phrase) :
    (binary l o r).joinChains κ [] = binary (l.joinChains κ []) o (r.joinChains κ []) := by
  rw [joinChains, if_neg ho, closeChain_nil]

/-- A row of other operators stays. -/
theorem joinChains_chained {tail : Tail Phrase} (h : ∀ link ∈ tail, ¬ link.1.isOperator κ.op)
    (p : Phrase) :
    (chained p tail).joinChains κ [] =
      chained (p.joinChains κ []) (tail.mapOperands fun q => q.joinChains κ []) := by
  induction tail generalizing p with
  | nil => rfl
  | cons link tail ih =>
    obtain ⟨hlink, htail⟩ := List.forall_mem_cons.1 h
    rw [chained, List.foldl_cons, ← chained, ih htail, joinChains_binary hlink]
    rfl

/-- The brackets around a chain are no chain of the other kind. -/
theorem joinChains_gathered (o : Token) (p : Phrase) (tail : Tail Phrase) :
    (gathered μ o p tail).joinChains κ [] =
      gathered μ o (p.joinChains κ []) (tail.mapOperands fun q => q.joinChains κ []) := by
  cases tail with
  | nil => rfl
  | cons link tail =>
    have hjoiners : ∀ joint ∈ μ.rejoin (link :: tail), ¬ joint.1.isOperator κ.op := by
      intro joint hjoint
      obtain ⟨link', -, rfl⟩ := List.mem_map.1 hjoint
      simp
    rw [gathered, joinChains_region, joined, joinChains_chained hjoiners,
      Chaining.mapOperands_rejoin]
    rfl

/-- The operators that bind most tightly are in no chain. -/
theorem bracketed_binary {o : Token} (ho : o.joins 3) (l r : Phrase) :
    (binary l o r).bracketed = binary l.bracketed o r.bracketed := by
  have hnot (κ : Chaining) : ¬ o.isOperator κ.op :=
    Chaining.not_isOperator_of_joins ho (by cases κ <;> decide)
  rw [bracketed, joinChains_binary (hnot _), joinChains_binary (hnot _)]
  rfl

/-- A run behind a phrase that does not go on with it is closed. -/
theorem joinChains_of_binds {p : Phrase} {n : Nat} (hp : p.Binds n) (hn : κ.layer < n)
    (tail : Tail Phrase) : p.joinChains κ tail = closeChain κ (p.joinChains κ []) tail := by
  cases hp with
  | operand => rfl
  | region => rfl
  | signed hn1 =>
    -- a sign is no tighter than the loosest operator
    have hlayer := κ.one_le_layer
    omega
  | @binary l r o _ k hk _ ho _ =>
    have hnot : ¬ o.isOperator κ.op := Chaining.not_isOperator_of_joins ho (by omega)
    rw [joinChains, if_neg hnot, joinChains_binary hnot]

/-! ### The result is a phrase -/

/-- Each operator of a run is that of the chain, and its operand binds more tightly. -/
def Runs (κ : Chaining) (tail : Tail Phrase) : Prop :=
  ∀ link ∈ tail, link.1.isOperator κ.op ∧ link.2.Binds (κ.layer + 1)

theorem Binds.joined {p : Phrase} {tail : Tail Phrase} (hp : p.Binds κ.layer)
    (htail : ∀ link ∈ tail, link.2.Binds (κ.layer + 1)) : (joined κ p tail).Binds κ.layer := by
  induction tail generalizing p with
  | nil => exact hp
  | cons link tail ih =>
    obtain ⟨hlink, htail⟩ := List.forall_mem_cons.1 htail
    exact ih (.binary le_rfl hp (κ.joins_join link.1) hlink) htail

theorem Binds.gathered {p : Phrase} {o : Token} {tail : Tail Phrase}
    (hp : p.Binds (κ.layer + 1)) (htail : ∀ link ∈ tail, link.2.Binds (κ.layer + 1)) :
    (gathered κ o p tail).Binds (κ.layer + 1) := by
  cases tail with
  | nil => exact hp
  | cons link tail =>
    have hlayer := κ.one_le_layer
    have hjoined := (hp.mono κ.layer.le_succ).joined htail
    exact .region (Bounds.written_added _) (hjoined.mono hlayer)

theorem Binds.closeChain {p : Phrase} {n : Nat} {tail : Tail Phrase} (hp : p.Binds n)
    (hrun : Runs κ tail) (hn : tail ≠ [] → n ≤ κ.layer ∧ p.Binds κ.layer) :
    (closeChain κ p tail).Binds n := by
  cases tail with
  | nil => exact hp
  | cons link tail =>
    obtain ⟨hn, hp⟩ := hn (by simp)
    obtain ⟨⟨hop, hq⟩, htail⟩ := List.forall_mem_cons.1 hrun
    exact .binary hn hp (Chaining.joins_of_isOperator hop)
      (hq.gathered fun link hlink => (htail link hlink).2)

/-- **Brackets keep the layers.** In front of a run the phrase has to be of the layer of the
chain. -/
theorem Binds.joinChains {p : Phrase} {n : Nat} {tail : Tail Phrase} (hp : p.Binds n)
    (hrun : Runs κ tail) (hn : tail ≠ [] → n ≤ κ.layer ∧ p.Binds κ.layer) :
    (p.joinChains κ tail).Binds n := by
  have hnil : Runs κ [] := by simp [Runs]
  induction hp generalizing tail with
  | operand ht => exact Binds.closeChain (.operand ht) hrun hn
  | region hb hp ih =>
    have hinner := ih hnil (by simp)
    exact Binds.closeChain (.region hb hinner) hrun fun hne => ⟨(hn hne).1, .region hb hinner⟩
  | @signed s p n hn1 hs hp ih =>
    -- a sign binds as `+` and `-` do, so it can only be in a chain of subtraction
    have hinner := ih hnil (by simp)
    rw [Phrase.joinChains]
    split
    case isTrue hop =>
      -- a sign that starts a chain of subtraction
      have hlayer : κ.layer = 1 :=
        (Token.joins_unique (j := 1) hs (Chaining.joins_of_isOperator hop)).symm
      have hgathered := Binds.gathered (κ := κ) (o := s) (by rwa [hlayer])
        fun link hlink => (hrun link hlink).2
      rw [hlayer] at hgathered
      exact .signed hn1 hs hgathered
    case isFalse =>
      refine Binds.closeChain (.signed hn1 hs hinner) hrun fun hne => ⟨(hn hne).1, ?_⟩
      cases (hn hne).2 with
      | signed hlayer _ _ => exact .signed hlayer hs hinner
  | @binary l r o n k hk hl ho hr ihl ihr =>
    have hright := ihr hnil (by simp)
    rw [Phrase.joinChains]
    split
    case isTrue hop =>
      -- one more link of the run, in front of which the left operand is of the same layer
      obtain rfl := Token.joins_unique ho (Chaining.joins_of_isOperator hop)
      have hrun' : Runs κ ((o, r.joinChains κ []) :: tail) :=
        List.forall_mem_cons.2 ⟨⟨hop, hright⟩, hrun⟩
      exact (ihl hrun' fun _ => ⟨le_rfl, hl⟩).mono hk
    case isFalse hop =>
      -- the operator ends the run behind it, and its own operands are joined apart
      have hleft := ihl hnil (by simp)
      refine Binds.closeChain (.binary hk hleft ho hright) hrun fun hne => ⟨(hn hne).1, ?_⟩
      cases (hn hne).2 with
      | binary hlayer _ ho' _ =>
        obtain rfl := Token.joins_unique ho ho'
        exact .binary hlayer hleft ho hright

theorem Binds.joinChains_nil {p : Phrase} {n : Nat} (hp : p.Binds n) :
    (p.joinChains κ []).Binds n :=
  hp.joinChains (by simp [Runs]) (by simp)

/-- **What is bracketed is bound** as its operators demand. -/
theorem Binds.bracketed {p : Phrase} {n : Nat} (hp : p.Binds n) : p.bracketed.Binds n :=
  hp.joinChains_nil.joinChains_nil

/-! ### Signs -/

/-- The signs in the operands of a run. -/
def tailSigns : Tail Phrase → Nat
  | [] => 0
  | (_, p) :: tail => p.signs + tailSigns tail

theorem signs_chained (p : Phrase) (tail : Tail Phrase) :
    (chained p tail).signs = p.signs + tailSigns tail := by
  induction tail generalizing p with
  | nil => rfl
  | cons link tail ih =>
    obtain ⟨o, q⟩ := link
    rw [chained, List.foldl_cons, ← chained, ih, signs, tailSigns, Nat.add_assoc]

theorem signs_joined (p : Phrase) (tail : Tail Phrase) :
    (joined κ p tail).signs = p.signs + tailSigns tail := by
  have hrejoin : tailSigns (κ.rejoin tail) = tailSigns tail := by
    induction tail with
    | nil => rfl
    | cons link tail ih => exact congrArg (link.2.signs + ·) ih
  rw [joined, signs_chained, hrejoin]

theorem signs_gathered (o : Token) (p : Phrase) (tail : Tail Phrase) :
    (gathered κ o p tail).signs = p.signs + tailSigns tail := by
  cases tail with
  | nil => rfl
  | cons link tail => exact signs_joined p (link :: tail)

theorem signs_closeChain (p : Phrase) (tail : Tail Phrase) :
    (closeChain κ p tail).signs = p.signs + tailSigns tail := by
  cases tail with
  | nil => rfl
  | cons link tail => rw [closeChain, signs, signs_gathered, tailSigns]

theorem signs_joinChains (p : Phrase) (tail : Tail Phrase) :
    (p.joinChains κ tail).signs = p.signs + tailSigns tail := by
  induction p generalizing tail with
  | operand t => exact signs_closeChain _ tail
  | region b p ih =>
    rw [joinChains, signs_closeChain, signs, ih, signs, tailSigns, Nat.add_zero]
  | signed s p ih =>
    rw [joinChains]
    split
    · rw [signs, signs_gathered, ih, signs, tailSigns]
      omega
    · rw [signs_closeChain, signs, ih, signs, tailSigns, Nat.add_zero]
  | binary l o r ihl ihr =>
    rw [joinChains]
    split
    · rw [ihl, tailSigns, ihr, signs, tailSigns]
      omega
    · rw [signs_closeChain, signs, ihl, ihr, signs, tailSigns, Nat.add_zero, Nat.add_zero]

@[simp] theorem signs_bracketed (p : Phrase) : p.bracketed.signs = p.signs := by
  simp [bracketed, signs_joinChains, tailSigns]

/-! ### No chains are left -/

/-- The last operator of the level is that of the chain. -/
def endsChain (κ : Chaining) : Phrase → Bool
  | operand _ | region _ _ => false
  | signed s _ => s.isOperator κ.op
  | binary _ o _ => o.isOperator κ.op

/-- **There are no chains**: no operator of the chain stands behind another one on its level. -/
def Chainless (κ : Chaining) : Phrase → Prop
  | operand _ => True
  | region _ p => p.Chainless κ
  | signed _ p => p.Chainless κ
  | binary l o r =>
    l.Chainless κ ∧ r.Chainless κ ∧ (o.isOperator κ.op → l.endsChain κ = false)

/-- Without chains nothing changes, also in front of a single operator that starts no chain. -/
theorem Chainless.joinChains_eq {p : Phrase} (h : p.Chainless κ) :
    p.joinChains κ [] = p ∧
      (p.endsChain κ = false → ∀ o q, p.joinChains κ [(o, q)] = binary p o q) := by
  induction p with
  | operand t => exact ⟨rfl, fun _ _ _ => rfl⟩
  | region b p ih =>
    obtain ⟨hinner, -⟩ := ih h
    rw [joinChains_region, hinner]
    refine ⟨rfl, fun _ o q => ?_⟩
    rw [joinChains, hinner]
    rfl
  | signed s p ih =>
    obtain ⟨hinner, -⟩ := ih h
    rw [joinChains_signed, hinner]
    refine ⟨rfl, fun hends o q => ?_⟩
    have hop : ¬ s.isOperator κ.op := Bool.not_eq_true _ ▸ hends
    rw [joinChains, if_neg hop, hinner]
    rfl
  | binary l o r ihl ihr =>
    -- the operator may be the last of a chain or stand outside of any
    obtain ⟨hl, hr, hends⟩ := h
    obtain ⟨hright, -⟩ := ihr hr
    obtain ⟨hleft, hbefore⟩ := ihl hl
    constructor
    · rw [joinChains, hright]
      split
      -- the operator stands alone, and so the left operand does not go on with it
      case isTrue hop => exact hbefore (hends hop) o r
      case isFalse => rw [hleft, closeChain_nil]
    · intro hnot o' q
      have hop : ¬ o.isOperator κ.op := Bool.not_eq_true _ ▸ hnot
      rw [joinChains, if_neg hop, hleft, hright]
      rfl

section Chainless

/-- Every operand of a run is without chains of the kind `κ`. -/
def TailChainless (κ : Chaining) (tail : Tail Phrase) : Prop :=
  ∀ link ∈ tail, link.2.Chainless κ

/-- The joiners start no chain of either kind. -/
theorem Chainless.joined {p : Phrase} {tail : Tail Phrase} (hp : p.Chainless κ)
    (htail : TailChainless κ tail) : (joined μ p tail).Chainless κ := by
  induction tail generalizing p with
  | nil => exact hp
  | cons link tail ih =>
    obtain ⟨hlink, htail⟩ := List.forall_mem_cons.1 htail
    exact ih ⟨hp, hlink, by simp⟩ htail

theorem Chainless.gathered {p : Phrase} {o : Token} {tail : Tail Phrase} (hp : p.Chainless κ)
    (htail : TailChainless κ tail) : (gathered μ o p tail).Chainless κ := by
  cases tail with
  | nil => exact hp
  | cons link tail => exact Chainless.joined (κ := κ) hp htail

/-- A run is closed behind a phrase that does not end in the operator of the chain. -/
theorem Chainless.closeChain {p : Phrase} {tail : Tail Phrase} (hp : p.Chainless κ)
    (htail : TailChainless κ tail)
    (hends : ∀ link ∈ tail, link.1.isOperator κ.op → p.endsChain κ = false) :
    (closeChain μ p tail).Chainless κ := by
  cases tail with
  | nil => exact hp
  | cons link tail =>
    obtain ⟨hlink, htail⟩ := List.forall_mem_cons.1 htail
    exact ⟨hp, hlink.gathered htail, hends link List.mem_cons_self⟩

theorem tailChainless_nil : TailChainless κ [] := by
  simp [TailChainless]

/-- **Bracketing removes the chains** of its kind. -/
theorem chainless_joinChains (p : Phrase) {tail : Tail Phrase} (htail : TailChainless κ tail) :
    (p.joinChains κ tail).Chainless κ := by
  induction p generalizing tail with
  | operand t => exact Chainless.closeChain trivial htail fun _ _ _ => rfl
  | region b p ih => exact Chainless.closeChain (ih tailChainless_nil) htail fun _ _ _ => rfl
  | signed s p ih =>
    have hinner := ih tailChainless_nil
    rw [joinChains]
    split
    case isTrue => exact hinner.gathered htail
    case isFalse hop =>
      exact Chainless.closeChain hinner htail fun _ _ _ => by simpa [endsChain] using hop
  | binary l o r ihl ihr =>
    have hright := ihr tailChainless_nil
    rw [joinChains]
    -- an operator of the chain takes the operand into the run, and others close it
    split
    case isTrue => exact ihl (List.forall_mem_cons.2 ⟨hright, htail⟩)
    case isFalse hop =>
      refine Chainless.closeChain (p := .binary _ o _)
        ⟨ihl tailChainless_nil, hright, fun h => absurd h hop⟩ htail fun _ _ _ => ?_
      simpa [endsChain] using hop

/-- In front of a run, the operator at the outside of the result is that of the chain. -/
theorem endsChain_joinChains_cons (p : Phrase) {o : Token} (ho : o.isOperator κ.op) (q : Phrase)
    (tail : Tail Phrase) : (p.joinChains κ ((o, q) :: tail)).endsChain κ := by
  induction p generalizing o q tail with
  | operand | region => exact ho
  | signed s p =>
    rw [joinChains]
    split
    case isTrue hop => exact hop
    case isFalse => exact ho
  | binary l o' r ihl _ =>
    rw [joinChains]
    split
    case isTrue hop => exact ihl hop _ _
    case isFalse => exact ho

/-- No phrase ends in the operators of both kinds. -/
theorem not_endsChain_of_ne (hne : κ ≠ μ) {p : Phrase} (h : p.endsChain μ) :
    p.endsChain κ = false := by
  rw [← Bool.not_eq_true]
  intro hκ
  cases p with
  | operand | region => simp [endsChain] at h
  | signed | binary => exact hne (Chaining.eq_of_isOperator hκ h)

/-- Bracketing chains of one kind makes no phrase end in the operator of the other. -/
theorem not_endsChain_joinChains (hne : κ ≠ μ) {p : Phrase} (h : p.endsChain κ = false) :
    (p.joinChains μ []).endsChain κ = false := by
  cases p with
  | operand | region => rfl
  | signed s p => rwa [joinChains_signed]
  | binary l o r =>
    rw [joinChains]
    split
    case isTrue hop => exact not_endsChain_of_ne hne (endsChain_joinChains_cons l hop _ _)
    case isFalse => exact h

/-- **Bracketing makes no chains** of the other kind. -/
theorem Chainless.joinChains_of_ne (hne : κ ≠ μ) {p : Phrase} (h : p.Chainless κ)
    {tail : Tail Phrase} (htail : TailChainless κ tail)
    (hrun : ∀ link ∈ tail, link.1.isOperator μ.op) : (p.joinChains μ tail).Chainless κ := by
  -- so no operator of the run goes on with a chain of the other kind
  have hother {tail : Tail Phrase} (hrun : ∀ link ∈ tail, link.1.isOperator μ.op) (q : Phrase) :
      ∀ link ∈ tail, link.1.isOperator κ.op → q.endsChain κ = false :=
    fun link hlink hop => absurd (Chaining.eq_of_isOperator hop (hrun link hlink)) hne
  induction p generalizing tail with
  | operand t => exact Chainless.closeChain trivial htail fun _ _ _ => rfl
  | region b p ih =>
    have hinner : (p.joinChains μ []).Chainless κ := ih h tailChainless_nil (by simp)
    exact Chainless.closeChain (p := .region b _) hinner htail fun _ _ _ => rfl
  | signed s p ih =>
    have hinner : (p.joinChains μ []).Chainless κ := ih h tailChainless_nil (by simp)
    rw [joinChains]
    split
    case isTrue => exact hinner.gathered htail
    case isFalse =>
      exact Chainless.closeChain (p := .signed s _) hinner htail (hother hrun _)
  | binary l o r ihl ihr =>
    obtain ⟨hl, hr, hends⟩ := h
    have hright := ihr hr tailChainless_nil (by simp)
    rw [joinChains]
    -- an operator of the other kind puts its right operand in front of the run
    split
    case isTrue hop =>
      have hrun' : ∀ link ∈ (o, r.joinChains μ []) :: tail, link.1.isOperator μ.op :=
        List.forall_mem_cons.2 ⟨hop, hrun⟩
      exact ihl hl (List.forall_mem_cons.2 ⟨hright, htail⟩) hrun'
    case isFalse =>
      have hleft := ihl hl tailChainless_nil (by simp)
      exact Chainless.closeChain (p := .binary _ o _)
        ⟨hleft, hright, fun hop => not_endsChain_joinChains hne (hends hop)⟩ htail
        (hother hrun _)

end Chainless

theorem chainless_bracketed (p : Phrase) : p.bracketed.Chainless κ := by
  cases κ with
  | division =>
    exact (chainless_joinChains p tailChainless_nil).joinChains_of_ne (by decide)
      tailChainless_nil (by simp)
  | subtraction => exact chainless_joinChains _ tailChainless_nil

/-- **Bracketing twice** is bracketing once. -/
theorem bracketed_bracketed (p : Phrase) : p.bracketed.bracketed = p.bracketed := by
  conv_lhs => rw [bracketed]
  rw [(chainless_bracketed p).joinChains_eq.1, (chainless_bracketed p).joinChains_eq.1]

end Phrase

end Formula
