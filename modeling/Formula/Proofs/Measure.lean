import Formula.Extent
import Formula.Proofs.Context

/-!
# Scans measure phrases

A scan counts the tokens of a piece by looking at nothing but kinds and operators. On the tokens of
an expression it finds exactly the phrase that it is meant for, whichever way it walks: an atom, a
power or a term (`Scan.Measures`). The only thing to be asked of what comes behind the phrase is
that it does not go on with it (`Closes`), and around a hole that is so by the strength of the hole.

A walk to the right meets the operands of a phrase in the order of their association and a walk to
the left meets them against it. Both come to the same count, since a run is a piece and the links
behind it wherever one begins (`Scan.Measures.andThen_links`).

The main statement is `Context.Accepts.termTail_side`: from an operand, the scans to both sides
reach just as far as the term around it.
-/

namespace Formula

/-! ### Where a piece ends -/

/-- **The end of a piece.** The tokens that a walk meets next neither go on with a phrase of layer
`n` nor, for a walk to the left, put a name in front of it. -/
def Closes (d : Direction) (n : Nat) (rest : List Token) : Prop :=
  ∀ t ∈ rest.head?, (d = .leftward → t.kind ≠ .function) ∧ ∀ k, n ≤ k → ¬ t.joins k

namespace Closes

variable {d : Direction} {m n k : Nat} {rest : List Token}

theorem mono (h : Closes d m rest) (hmn : m ≤ n) : Closes d n rest :=
  fun t ht => ⟨(h t ht).1, fun k hk => (h t ht).2 k (hmn.trans hk)⟩

/-- An operator ends every piece that binds more tightly. -/
theorem of_joins {o : Token} (ho : o.joins k) (hk : k < n) (ts : List Token) :
    Closes d n (o :: ts) := by
  intro t ht
  obtain rfl : o = t := by simpa using ht
  refine ⟨fun _ => by simp [Token.kind_of_joins ho], fun j hj hjoins => ?_⟩
  have := Token.joins_unique ho hjoins
  omega

end Closes

/-- Nothing goes on with an atom to the right. -/
theorem closes_four (rest : List Token) : Closes .rightward 4 rest := by
  refine fun t _ => ⟨by simp, fun k hk hjoins => ?_⟩
  have := Token.joins_bounds hjoins
  omega

namespace Context.Accepts

variable {n : Nat} {C : Context}

/-- In front of a hole a walk to the left has come to the end. -/
theorem closes_before (h : Accepts n C) : Closes .leftward n (before C) := by
  intro t ht
  have hbars := h.bars t (by simpa using ht)
  rcases hbars with hopen | ⟨k, hk, hjoins⟩
  · have hkind := Token.kind_of_isOpen hopen
    refine ⟨fun _ => by simp [hkind], fun j _ hj => ?_⟩
    simp [Token.kind_of_joins hj] at hkind
  · refine ⟨fun _ => by simp [Token.kind_of_joins hjoins], fun j hj hj' => ?_⟩
    have := Token.joins_unique hjoins hj'
    omega

/-- Behind a hole a walk to the right has come to the end of what binds more tightly. -/
theorem closes_after (h : Accepts n C) : Closes .rightward (n + 1) (after C) := by
  intro t ht
  refine ⟨by simp, fun j hj hjoins => ?_⟩
  rcases h.isClose_or_joins t ht with hclose | ⟨k, hk, hk'⟩
  · exact Token.not_isClose_of_operator (Token.kind_of_joins hjoins) hclose
  · have := Token.joins_unique hk' hjoins
    omega

end Context.Accepts

/-! ### Scans of phrases -/

/-- The scan finds every phrase of layer `n` at its full length. -/
def Scan.Measures (scan : Scan) (d : Direction) (n : Nat) : Prop :=
  ∀ {p : Phrase} {rest : List Token}, p.Binds n → Closes d n rest →
    scan (d.along p.tokens ++ rest) = some p.tokens.length

/-- To the right, an atom with brackets is a span. -/
theorem atom_rightward {t : Token} (h : t.isOpen ∨ t.kind = .function) (ts : List Token) :
    Extent.atom .rightward (t :: ts) = bracketSpan .rightward 0 (t :: ts) := by
  rcases h with h | h
  · have hoperand : t.isOperand = false := by simp [Token.isOperand, Token.kind_of_isOpen h]
    simp [Extent.atom, hoperand, h]
  · have hoperand : t.isOperand = false := by simp [Token.isOperand, h]
    simp [Extent.atom, hoperand, h]

/-- To the left, an atom with brackets is a span and the name behind it, if there is one. -/
theorem atom_leftward {c : Token} (hc : c.isClose) (ts rest : List Token)
    (h : bracketSpan .leftward 0 (c :: ts ++ rest) = some (c :: ts).length) :
    Extent.atom .leftward (c :: ts ++ rest) =
      some (if rest.head?.any (·.kind == .function) then (c :: ts).length + 1
        else (c :: ts).length) := by
  have hoperand : c.isOperand = false := by simp [Token.isOperand, Token.kind_of_isClose hc]
  have hnext : (c :: ts ++ rest)[(c :: ts).length]? = rest.head? := by
    rw [List.getElem?_append_right le_rfl, Nat.sub_self, List.head?_eq_getElem?]
  rw [List.cons_append] at h hnext ⊢
  simp [Extent.atom, hoperand, hc, h, -List.length_cons, hnext]

/-- **Atoms are measured.** -/
theorem measures_atom (d : Direction) : Scan.Measures (Extent.atom d) d 4 := by
  intro p rest hp hrest
  rcases hp.atom_cases with ⟨t, ht, rfl⟩ | ⟨b, i, hb, hi, rfl⟩
  · simp [Phrase.tokens, Extent.atom, ht]
  cases b with
  | implicit => exact hb.elim
  | brackets o c =>
    -- a walk comes out at the partner, whichever way it goes
    have hspan := Balanced.bracketSpan_pair hb.1 hi.balanced hb.2 d rest
    cases d with
    | rightward =>
      have hatom := atom_rightward (.inl hb.1) (i.tokens ++ [c] ++ rest)
      simpa [Phrase.tokens, Bounds.front, Bounds.back, Direction.along] using hatom.trans hspan
    | leftward =>
      -- no name belongs to bare brackets
      have hname : rest.head?.any (·.kind == .function) = false := by
        simpa [Option.any_eq_false] using fun t ht => (hrest t ht).1 rfl
      have hatom := atom_leftward hb.2 (i.tokens.reverse ++ [o]) rest
        (by simpa [Direction.along] using hspan)
      simpa [Phrase.tokens, Bounds.front, Bounds.back, Direction.along, hname] using hatom
  | call f o c =>
    cases d with
    | rightward =>
      have hspan := Balanced.bracketSpan_pair hb.2.1 hi.balanced hb.2.2 .rightward rest
      have hatom := atom_rightward (.inr hb.1) (o :: i.tokens ++ [c] ++ rest)
      -- the walk passes the name first, still outside of the brackets
      have hopen : ¬ f.isOpen := by simp [Token.isOpen, hb.1]
      have hclose : ¬ f.isClose := by simp [Token.isClose, hb.1]
      rw [bracketSpan_of_not_bracket (d := .rightward) hopen hclose] at hatom
      simp only [Direction.along] at hspan
      rw [hspan] at hatom
      simpa [Phrase.tokens, Bounds.front, Bounds.back, Direction.along] using hatom
    | leftward =>
      -- the name comes last, behind the span
      have hspan := Balanced.bracketSpan_pair hb.2.1 hi.balanced hb.2.2 .leftward (f :: rest)
      have hatom := atom_leftward hb.2.2 (i.tokens.reverse ++ [o]) (f :: rest)
        (by simpa [Direction.along] using hspan)
      simpa [Phrase.tokens, Bounds.front, Bounds.back, Direction.along, hb.1] using hatom

/-! ### Runs of links -/

section Links

open Phrase (tokens)

variable {d : Direction} {k : Nat} {piece : Scan}

/-- Behind the end of a run there are no more links. -/
theorem links_of_closes {rest : List Token} (h : Closes d k rest) :
    Scan.links (layerOps k) piece rest = some 0 := by
  cases rest with
  | nil => rw [Scan.links]
  | cons t rest =>
    have hjoins : t.isOperatorIn (layerOps k) ≠ true := (h t rfl).2 k le_rfl
    rw [Scan.links, if_neg hjoins]

/-- Counts of pieces that stand one behind the other add up. -/
theorem map_add_map_add (x : Option Nat) (m n : Nat) :
    (x.map (n + ·)).map (m + ·) = x.map (m + n + ·) := by
  cases x <;> simp [Nat.add_assoc]

/-- A link is an operator and a piece. -/
theorem links_of_joins {o : Token} (ho : o.joins k) (ts : List Token) :
    Scan.links (layerOps k) piece (o :: ts) =
      (piece.andThen (Scan.links (layerOps k) piece) ts).map (1 + ·) := by
  have hop : o.isOperatorIn (layerOps k) := ho
  rw [Scan.links, if_pos hop, Scan.andThen]
  cases piece ts with
  | none => rfl
  | some n => exact (map_add_map_add _ 1 n).symm

/-- A piece comes first, and the rest of the run is behind it. -/
theorem andThen_of_measures (hpiece : piece.Measures d (k + 1)) {p : Phrase} (hp : p.Binds (k + 1))
    {rest : List Token} (hrest : Closes d (k + 1) rest) (second : Scan) :
    piece.andThen second (d.along p.tokens ++ rest) =
      (second rest).map (p.tokens.length + ·) := by
  have hdrop : (d.along p.tokens ++ rest).drop p.tokens.length = rest :=
    List.drop_left' (by simp)
  rw [Scan.andThen, hpiece hp hrest]
  simp only [hdrop]

/-- **A run over a phrase.** It counts the phrase and goes on behind it. The induction is along the
left operands, which a walk to the right meets first and a walk to the left meets last. -/
theorem andThen_links_append (hk : 2 ≤ k) (hpiece : piece.Measures d (k + 1)) {p : Phrase}
    {rest : List Token} (hp : p.Binds k) (hrest : Closes d (k + 1) rest) :
    piece.andThen (Scan.links (layerOps k) piece) (d.along p.tokens ++ rest) =
      (Scan.links (layerOps k) piece rest).map (p.tokens.length + ·) := by
  induction p generalizing rest with
  | operand t =>
    cases hp with
    | operand ht => exact andThen_of_measures hpiece (.operand ht) hrest _
  | region b i _ =>
    cases hp with
    | region hb hi => exact andThen_of_measures hpiece (.region hb hi) hrest _
  | signed s i _ =>
    cases hp with
    | signed hn _ _ => omega
  | binary l o r ihl _ =>
    cases hp with
    | @binary _ _ _ _ j hkj hl ho hr =>
      -- an operator of a tighter layer is inside of a piece
      rcases Nat.lt_or_eq_of_le hkj with hlt | rfl
      · exact andThen_of_measures hpiece (.binary hlt hl ho hr) hrest _
      have hbehind (ts : List Token) : Closes d (k + 1) (o :: ts) := .of_joins ho k.lt_succ_self ts
      -- two pieces or runs and the operator between them, in either order
      have hcount (m n : Nat) (h : m + n = l.tokens.length + r.tokens.length) :
          (((Scan.links (layerOps k) piece rest).map (n + ·)).map (1 + ·)).map (m + ·) =
            (Scan.links (layerOps k) piece rest).map ((tokens (.binary l o r)).length + ·) := by
        have hsum : m + 1 + n = (tokens (.binary l o r)).length := by
          simp [tokens]
          omega
        rw [map_add_map_add, map_add_map_add, hsum]
      cases d with
      | rightward =>
        -- the left operand is met first, and the operator starts the links behind it
        have hleft := ihl hl (hbehind (r.tokens ++ rest))
        have hright := andThen_of_measures hpiece hr hrest (Scan.links (layerOps k) piece)
        rw [links_of_joins ho] at hleft
        simp only [Direction.along] at hleft hright ⊢
        rw [hright, hcount _ _ rfl] at hleft
        simpa [tokens] using hleft
      | leftward =>
        -- the right operand is the first piece, and the left one is the rest of the run
        have hleft := ihl hl hrest
        have hright := andThen_of_measures hpiece hr (hbehind (l.tokens.reverse ++ rest))
          (Scan.links (layerOps k) piece)
        rw [links_of_joins ho] at hright
        simp only [Direction.along] at hleft hright ⊢
        rw [hleft, hcount _ _ (Nat.add_comm _ _)] at hright
        simpa [tokens] using hright

/-- **Runs are measured** if their pieces are. -/
theorem Scan.Measures.andThen_links (hpiece : piece.Measures d (k + 1)) (hk : 2 ≤ k) :
    (piece.andThen (Scan.links (layerOps k) piece)).Measures d k := by
  intro p rest hp hrest
  rw [andThen_links_append hk hpiece hp (hrest.mono k.le_succ), links_of_closes hrest]
  rfl

end Links

/-- **Powers are measured.** -/
theorem measures_power (d : Direction) : Scan.Measures (Extent.power d) d 3 :=
  Scan.Measures.andThen_links (k := 3) (measures_atom d) (by decide)

/-! ### Runs around a hole -/

/-- The operator of the frame is of layer `k`. -/
def Frame.Joins (k : Nat) : Frame → Prop
  | .leftOf operator _ | .rightOf _ operator => operator.joins k
  | .inRegion _ | .underSign _ => False

namespace Context

/-- **The run around a hole** of pieces joined at layer `k`. Its frames are `D`, and those outside
of it are `E`. -/
structure RunAround (piece : Direction → Scan) (k : Nat) (D E : Context) : Prop where
  joins : ∀ f ∈ D, f.Joins k
  accepts : Accepts k E
  links : ∀ d, Scan.links (layerOps k) (piece d) (side d (D ++ E)) = some (side d D).length
  closes : ∀ d, Closes d k (side d E)

namespace Accepts

variable {k : Nat} {C : Context} {piece : Direction → Scan}

/-- No run goes on around a hole that binds as loosely as its links, if nothing follows. -/
theorem runAround_nil (h : Accepts k C) (hclosed : Closes .rightward k (after C)) :
    RunAround piece k [] C := by
  have hcloses (d : Direction) : Closes d k (side d C) := by
    cases d with
    | rightward => exact hclosed
    | leftward => exact h.closes_before
  refine ⟨by simp, h, fun d => ?_, hcloses⟩
  rw [List.nil_append, links_of_closes (hcloses d)]
  cases d <;> rfl

/-- If the run goes on behind a hole that binds as loosely as its links, then with a right
operand. -/
theorem exists_leftOf {f : Frame} (hk : 2 ≤ k) (h : Accepts k (f :: C))
    (hopen : ¬ Closes .rightward k (after (f :: C))) :
    ∃ o r, f = .leftOf o r ∧ o.joins k ∧ r.Binds (k + 1) ∧ Accepts k C := by
  cases h with
  | @region _ b _ _ hb hC =>
    -- a closing bracket ends the run
    have hinner : Accepts 1 (.inRegion b :: C) := .region le_rfl hb hC
    exact absurd (hinner.closes_after.mono hk) hopen
  | sign _ _ hC =>
    rw [after_cons] at hopen
    exact absurd (hC.closes_after.mono hk) hopen
  | @left _ j o r _ hj ho hr hC =>
    -- an operator of a looser layer would end the run
    rcases Nat.lt_or_eq_of_le hj with hlt | rfl
    · rw [after_cons] at hopen
      exact absurd (Closes.of_joins ho hlt _) hopen
    · exact ⟨o, r, rfl, ho, hr, hC⟩
  | right hj _ _ hC =>
    rw [after_cons] at hopen
    exact absurd (hC.closes_after.mono hj) hopen

/-- The run around a hole that binds as loosely as its links. All of it is behind the hole. -/
theorem exists_runAround_of_left (hk : 2 ≤ k) (hpiece : ∀ d, (piece d).Measures d (k + 1))
    (h : Accepts k C) : ∃ D E, C = D ++ E ∧ RunAround piece k D E := by
  induction C with
  | nil => exact ⟨[], [], rfl, h.runAround_nil (by simp [Closes])⟩
  | cons f C ih =>
    by_cases hclosed : Closes .rightward k (after (f :: C))
    · exact ⟨[], f :: C, rfl, h.runAround_nil hclosed⟩
    -- one link more, and then what is around the left operand
    obtain ⟨o, r, rfl, ho, hr, hC⟩ := h.exists_leftOf hk hclosed
    obtain ⟨D, E, rfl, hrun⟩ := ih hC
    refine ⟨.leftOf o r :: D, E, rfl, ?_, hrun.accepts, fun d => ?_, hrun.closes⟩
    · exact List.forall_mem_cons.2 ⟨ho, hrun.joins⟩
    -- the run goes on to the right only; to the left it stops where it stopped before
    cases d with
    | rightward =>
      have hlinks := hrun.links .rightward
      have hright := andThen_of_measures (hpiece .rightward) hr hC.closes_after
        (Scan.links (layerOps k) (piece .rightward))
      simp only [side, Direction.along] at hlinks hright ⊢
      rw [hlinks] at hright
      rw [List.cons_append, after_cons, Frame.after, List.cons_append, links_of_joins ho, hright]
      simp [Frame.after]
      omega
    | leftward => exact hrun.links .leftward

/-- **The run around a hole for its pieces.** In front of the hole there may be a left operand,
which is all of the run up to there. -/
theorem exists_runAround (hk : 2 ≤ k) (hpiece : ∀ d, (piece d).Measures d (k + 1))
    (h : Accepts (k + 1) C) (hclosed : Closes .rightward (k + 1) (after C)) :
    ∃ D E, C = D ++ E ∧ RunAround piece k D E := by
  cases h with
  | top _ => exact exists_runAround_of_left hk hpiece (.top (by omega))
  | region _ hb hC => exact exists_runAround_of_left hk hpiece (.region (by omega) hb hC)
  | sign _ hs hC => exact exists_runAround_of_left hk hpiece (.sign hk hs hC)
  | @left _ j o r C hj ho hr hC =>
    -- the operator behind the hole would go on with its piece
    have hne : j ≠ k + 1 := by
      rintro rfl
      exact (hclosed o (by simp [Frame.after])).2 (k + 1) le_rfl ho
    exact exists_runAround_of_left hk hpiece (.left (by omega) ho hr hC)
  | @right _ j l o C hj hl ho hC =>
    -- in front of the hole there is a link only if the operator is of layer `k`
    rcases Nat.lt_or_eq_of_le (Nat.le_of_succ_le_succ hj) with hlt | rfl
    · exact exists_runAround_of_left hk hpiece (.right hlt hl ho hC)
    obtain ⟨D, E, rfl, hrun⟩ := exists_runAround_of_left hk hpiece hC
    refine ⟨.rightOf l o :: D, E, rfl, ?_, hrun.accepts, fun d => ?_, hrun.closes⟩
    · exact List.forall_mem_cons.2 ⟨ho, hrun.joins⟩
    -- and here it goes on to the left only
    cases d with
    | rightward => exact hrun.links .rightward
    | leftward =>
      have hlinks := hrun.links .leftward
      have hleft := andThen_links_append hk (hpiece .leftward) hl
        (hC.closes_before.mono j.le_succ)
      simp only [side, Direction.along] at hlinks hleft ⊢
      rw [hlinks] at hleft
      rw [List.cons_append, before_cons, Frame.before, List.cons_append, links_of_joins ho, hleft]
      simp [Frame.before]
      omega

/-- **The power around an operand** is what the scans from there take. -/
theorem exists_powerTail (h : Accepts 4 C) :
    ∃ D E, C = D ++ E ∧ RunAround Extent.atom 3 D E :=
  exists_runAround (by decide) measures_atom h (closes_four _)

/-- **The term around an operand** is what the scans from there take: first what is joined by `^`,
then what is joined by `*` and `/`. -/
theorem termTail_side (h : Accepts 4 C) :
    ∃ D E, C = D ++ E ∧ Accepts 2 E ∧ (∀ f ∈ D, f.Joins 3 ∨ f.Joins 2) ∧
      (∀ d, Extent.termTail d (side d C) = some (side d D).length) ∧
      ∀ d, Closes d 2 (side d E) := by
  obtain ⟨D, E, rfl, hpower⟩ := h.exists_powerTail
  obtain ⟨D', E', rfl, hterm⟩ :=
    exists_runAround (by decide) measures_power hpower.accepts (hpower.closes .rightward)
  refine ⟨D ++ D', E', (List.append_assoc ..).symm, hterm.accepts, ?_, fun d => ?_, hterm.closes⟩
  · intro f hf
    exact (List.mem_append.1 hf).imp (hpower.joins f) (hterm.joins f)
  · have hfirst := hpower.links d
    have hsecond := hterm.links d
    -- the second run starts where the first one ended
    have hdrop : (side d (D ++ (D' ++ E'))).drop (side d D).length = side d (D' ++ E') := by
      rw [side_append]
      exact List.drop_left
    have htail : Extent.powerTail d (side d (D ++ (D' ++ E'))) = some (side d D).length := hfirst
    rw [Extent.termTail, Scan.andThen, htail]
    simp only [hdrop]
    rw [side_append d D D', List.length_append]
    exact congrArg (Option.map _) hsecond

end Accepts

end Context

end Formula
