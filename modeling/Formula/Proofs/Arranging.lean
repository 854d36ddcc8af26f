import Formula.Lexer
import Formula.Proofs.Nested
import Formula.Proofs.Spreading
import Mathlib.Algebra.Field.Rat

/-!
# Arranging a formula

The items of a level and the reading of its formula, stage by stage. At first every atom is an item
and the phrase is spread between them. Settling a tier turns the parts of its layer into items, and
joining the chains of an operator does to the level what it does to the phrase
(`Spread.joins`). So in the end the items stand for the phrase with its chains bracketed
(`Spread.arrange`): they are written as it is, and without signs they are one item with its value.
The contents of brackets are arranged before the level that they stand on, so this holds of a whole
formula (`Phrase.Reads.group_spec`).

* `normalize_brackets` — writing the items of a formula out gives its reading with chains bracketed;
* `group_eval` — without signs the items are one of the right shape, with the value of the formula.
-/

namespace Formula

open Item

/-! ### Joining the chains of a level -/

namespace Item

/-- The item that an operator `o` of a chain stands in front of in the end: the first operand, or
all of them in brackets. -/
def gathered (κ : Chaining) (o : Token) (x : Item) : Tail Item → Item
  | [] => x
  | link :: links => bracketed o.position (settleTiers (row (some x) (κ.rejoin (link :: links))))

/-- What a run of operators of a chain becomes. -/
def closedLinks (κ : Chaining) : Tail Item → Tail Item
  | [] => []
  | (o, x) :: links => [(o, gathered κ o x links)]

variable {κ : Chaining}

/-- An operand begins no chain. -/
theorem segments_operand {x : Item} (hx : x.isOperandOrGroup) (items : List Item) :
    segments κ.op (x :: items) = .single x :: segments κ.op items := by
  cases x with
  | group b contents => simp [segments]
  | token t =>
    have hop : t.isOperator κ.op = false := by
      rcases Token.kind_of_isOperand hx with h | h <;> simp [Token.isOperator, h]
    cases items with
    | nil => simp [segments]
    | cons y items =>
      rw [segments, hop]
      rfl

theorem joinChains_operand {x : Item} (hx : x.isOperandOrGroup) (items : List Item) :
    joinChains κ.op κ.joiner (x :: items) = x :: joinChains κ.op κ.joiner items := by
  rw [joinChains, segments_operand hx]
  rfl

/-- Another operator stays. -/
theorem segments_of_not {o : Token} (ho : ¬ o.isOperator κ.op) (x : Item) (links : Tail Item) :
    segments κ.op (row none ((o, x) :: links)) =
      .single (token o) :: segments κ.op (row (some x) links) := by
  rw [row_none_cons, row_some, segments, if_neg ho]

theorem joinChains_of_not {o : Token} (ho : ¬ o.isOperator κ.op) (x : Item) (links : Tail Item) :
    joinChains κ.op κ.joiner (row none ((o, x) :: links)) =
      token o :: joinChains κ.op κ.joiner (row (some x) links) := by
  rw [joinChains, segments_of_not ho]
  rfl

/-- The links at the front of a row are those up to another operator. -/
theorem links_row {run rest : Tail Item} (hrun : ∀ link ∈ run, link.1.isOperator κ.op)
    (hrest : ∀ link ∈ rest.head?, ¬ link.1.isOperator κ.op) :
    links κ.op (row none (run ++ rest)) =
      (run.map fun link => ⟨link.1, some link.2⟩, row none rest) := by
  induction run with
  | nil =>
    cases rest with
    | nil => rfl
    | cons link rest =>
      have hlink := hrest link rfl
      rw [List.nil_append, row_none_cons, row_some, links, if_neg hlink]
      rfl
  | cons link run ih =>
    obtain ⟨hlink, hrun⟩ := List.forall_mem_cons.1 hrun
    rw [List.cons_append, row_none_cons, row_some, links, if_pos hlink, ih hrun]
    rfl

/-- The pieces that a run of operators makes: a chain, unless there is only one. -/
def segmentsOfRun : Tail Item → List Segment
  | [] => []
  | [(o, x)] => [.single (token o), .single x]
  | (o, x) :: links => [.chain ⟨o, x, links.map fun link => ⟨link.1, some link.2⟩⟩]

theorem segments_run {run rest : Tail Item} (hrun : ∀ link ∈ run, link.1.isOperator κ.op)
    (hrest : ∀ link ∈ rest.head?, ¬ link.1.isOperator κ.op) :
    segments κ.op (row none (run ++ rest)) =
      segmentsOfRun run ++ segments κ.op (row none rest) := by
  rcases run with _ | ⟨⟨o, x⟩, run⟩
  · rfl
  obtain ⟨ho, hrun⟩ := List.forall_mem_cons.1 hrun
  rw [List.cons_append, row_none_cons, row_some, segments, if_pos ho, links_row hrun hrest]
  cases run with
  | nil => rfl
  | cons link run =>
    rw [if_neg (by simp)]
    rfl

/-- What stands between the brackets of a chain is the row of its operands. -/
theorem joined_eq_row (o : Token) (x : Item) (links : Tail Item) :
    Chain.joined ⟨o, x, links.map fun link => ⟨link.1, some link.2⟩⟩ κ.joiner =
      row (some x) (κ.rejoin links) := by
  simp [Chain.joined, row, Chaining.rejoin, Chaining.join, List.flatMap_map]

/-- **A run of operators** of a chain goes into one pair of brackets. -/
theorem joinChains_run {run rest : Tail Item}
    (hrun : ∀ link ∈ run, link.1.isOperator κ.op ∧ link.2.isOperandOrGroup)
    (hrest : ∀ link ∈ rest.head?, ¬ link.1.isOperator κ.op) :
    joinChains κ.op κ.joiner (row none (run ++ rest)) =
      row none (closedLinks κ run) ++ joinChains κ.op κ.joiner (row none rest) := by
  rw [joinChains, segments_run (fun link hlink => (hrun link hlink).1) hrest, List.flatMap_append]
  congr 1
  rcases run with _ | ⟨⟨o, x⟩, _ | ⟨link, run⟩⟩
  · rfl
  · rfl
  · rw [segmentsOfRun, List.flatMap_singleton, Segment.items, joined_eq_row]
    · rfl
    · simp

end Item

namespace Spread

section JoinChains

variable {κ : Chaining} {R : Phrase → Item → Prop} {p : Phrase} {first : Option Item}
  {links run : Tail Item} {tail : Tail Phrase}

/-- **Joining agrees** on a phrase and on the level that it is spread over: in front of a run, and
of another operator or none behind that, the phrase with the run joined is spread over what becomes
of the level. In front of a run the phrase has to be of the layer of the chain. -/
def Joins (κ : Chaining) (R : Phrase → Item → Prop) (p : Phrase) (first : Option Item)
    (links : Tail Item) : Prop :=
  ∀ (tail : Tail Phrase) (run rest : Tail Item), (tail ≠ [] → p.Binds κ.layer) →
    Phrase.Runs κ tail → Matches R tail run →
    (∀ link ∈ rest.head?, ¬ link.1.isOperator κ.op) →
    ∃ first' links', Item.joinChains κ.op κ.joiner (row first (links ++ run ++ rest)) =
        row first' links' ++ Item.joinChains κ.op κ.joiner (row none rest) ∧
      Spread R (κ.layer + 1) (p.joinChains κ tail) first' links'

/-- Without a run the level ends, or goes on with another operator. -/
theorem Joins.nil (h : Joins κ R p first links) (rest : Tail Item)
    (hrest : ∀ link ∈ rest.head?, ¬ link.1.isOperator κ.op) :
    ∃ first' links', Item.joinChains κ.op κ.joiner (row first (links ++ rest)) =
        row first' links' ++ Item.joinChains κ.op κ.joiner (row none rest) ∧
      Spread R (κ.layer + 1) (p.joinChains κ []) first' links' := by
  have hnone := h [] [] rest (by simp) (by simp [Phrase.Runs]) .nil hrest
  rwa [List.append_nil] at hnone

variable (hgroup : ∀ q x, R q x → x.isOperandOrGroup)
  (hgather : ∀ o q x tail links, R q x → Matches R tail links →
    R (Phrase.gathered κ o q tail) (Item.gathered κ o x links))

section Runs

include hgather in
/-- A run that is closed behind a phrase. -/
theorem closeChain (h : Spread R (κ.layer + 1) p first links) (hp : tail ≠ [] → p.Binds κ.layer)
    (htail : Phrase.Runs κ tail) (hmatch : Matches R tail run) :
    Spread R (κ.layer + 1) (Phrase.closeChain κ p tail) first (links ++ closedLinks κ run) := by
  cases hmatch with
  | nil =>
    rw [closedLinks, List.append_nil]
    exact h
  | @cons link link' tail run hlink hmatch =>
    obtain ⟨o, q⟩ := link
    obtain ⟨o', x⟩ := link'
    obtain ⟨rfl, hx⟩ : o = o' ∧ R q x := hlink
    obtain ⟨⟨hop, hq⟩, htail⟩ := List.forall_mem_cons.1 htail
    have hbinds := hq.gathered (o := o) fun link hlink => (htail link hlink).2
    exact .binary κ.layer.lt_succ_self (hp (by simp)) (Chaining.joins_of_isOperator hop) hbinds h
      (.piece hbinds (hgather o q x tail run hx hmatch))

include hgroup in
theorem isOperandOrGroup_of_matches (htail : Phrase.Runs κ tail) (hmatch : Matches R tail run) :
    ∀ link ∈ run, link.1.isOperator κ.op ∧ link.2.isOperandOrGroup := by
  induction hmatch with
  | nil => simp
  | @cons link link' tail run hlink _ ih =>
    obtain ⟨hop, htail⟩ := List.forall_mem_cons.1 htail
    exact List.forall_mem_cons.2 ⟨⟨hlink.1 ▸ hop.1, hgroup _ _ hlink.2⟩, ih htail⟩

include hgroup in
/-- A run behind an operand. -/
theorem joinChains_run_of_matches {x : Item} (hx : x.isOperandOrGroup)
    (htail : Phrase.Runs κ tail) (hmatch : Matches R tail run) {rest : Tail Item}
    (hrest : ∀ link ∈ rest.head?, ¬ link.1.isOperator κ.op) :
    Item.joinChains κ.op κ.joiner (row (some x) (run ++ rest)) =
      row (some x) (closedLinks κ run) ++ Item.joinChains κ.op κ.joiner (row none rest) := by
  rw [row_some, joinChains_operand hx,
    joinChains_run (isOperandOrGroup_of_matches hgroup htail hmatch) hrest, row_some,
    List.cons_append]

end Runs

include hgroup hgather

/-- A part that binds more tightly than the chain is one item. -/
theorem joins_piece {q : Phrase} {x : Item} (hq : q.Binds (κ.layer + 1))
    (hx : R (q.joinChains κ []) x) : Joins κ R q (some x) [] := by
  intro tail run rest hp htail hmatch hrest
  refine ⟨some x, closedLinks κ run,
    joinChains_run_of_matches hgroup (hgroup _ _ hx) htail hmatch hrest, ?_⟩
  have hinner := hq.joinChains_nil (κ := κ)
  rw [Phrase.joinChains_of_binds hq κ.layer.lt_succ_self]
  exact closeChain hgather (.piece hinner hx) (fun _ => hinner.mono κ.layer.le_succ) htail hmatch

/-- A sign is an operator of the chain, or another one of its layer. -/
theorem joins_signed_of_layer {s : Token} {x : Item} (hs : s.isSign) (hone : κ.layer = 1)
    (hp : p.Binds 2) (hx : R (p.joinChains κ []) x) : Joins κ R (.signed s p) none [(s, x)] := by
  intro tail run rest _ htail hmatch hrest
  have hinner := hp.joinChains_nil (κ := κ)
  rw [Phrase.joinChains, hone]
  split
  case isTrue hop =>
    -- the product behind the sign is the first operand of the run
    have hrun : ∀ link ∈ (s, x) :: run, link.1.isOperator κ.op ∧ link.2.isOperandOrGroup :=
      List.forall_mem_cons.2
        ⟨⟨hop, hgroup _ _ hx⟩, isOperandOrGroup_of_matches hgroup htail hmatch⟩
    -- what the run gathers behind the sign stands there as one bracketed operand
    have hbinds : (Phrase.gathered κ s (p.joinChains κ []) tail).Binds (κ.layer + 1) :=
      Phrase.Binds.gathered (by rwa [hone]) fun link hlink => (htail link hlink).2
    rw [hone] at hbinds
    exact ⟨none, [(s, Item.gathered κ s x run)], joinChains_run hrun hrest,
      .signed hs hbinds (.piece hbinds (hgather s _ x tail run hx hmatch))⟩
  case isFalse hop =>
    refine ⟨none, (s, x) :: closedLinks κ run, ?_, ?_⟩
    · rw [List.singleton_append, List.cons_append, joinChains_of_not hop,
        joinChains_run_of_matches hgroup (hgroup _ _ hx) htail hmatch hrest]
      rfl
    · -- the sign is no operator of the chain, so the run is closed behind the product
      have hspread : Spread R (κ.layer + 1) (.signed s (p.joinChains κ [])) none [(s, x)] := by
        rw [hone]
        exact .signed hs hinner (.piece hinner hx)
      have hclose := closeChain hgather hspread (fun _ => .signed hone.le hs hinner) htail hmatch
      rwa [hone] at hclose

omit hgroup hgather in
/-- A sign in front of looser operators than those of the chain. -/
theorem Joins.signed {s : Token} {x : Item} (hs : s.isSign) (hone : κ.layer ≠ 1) (hp : p.Binds 2)
    (h : Joins κ R p (some x) links) : Joins κ R (.signed s p) none ((s, x) :: links) := by
  intro tail run rest htail hruns hmatch hrest
  have hinner := hp.joinChains_nil (κ := κ)
  have hop : ¬ s.isOperator κ.op := Chaining.not_isOperator_of_joins (k := 1) hs hone.symm
  -- there is no run behind the sign
  have hlayer := κ.one_le_layer
  obtain rfl : tail = [] := by
    by_contra hne
    cases htail hne with
    | signed hn _ _ => omega
  cases hmatch
  obtain ⟨first', links', heq, hspread⟩ := h.nil rest hrest
  -- joining chains in the operand leaves its first item an operand
  obtain ⟨x', rfl⟩ := hspread.exists_first hinner
  refine ⟨none, (s, x') :: links', ?_, ?_⟩
  · rw [List.append_nil, List.cons_append, joinChains_of_not hop, heq]
    rfl
  · rw [Phrase.joinChains_signed]
    exact .signed hs hinner hspread

/-- An operator of the layer of the chain has a right operand that is one item. -/
theorem Joins.binary_of_layer {l r : Phrase} {o : Token} {y : Item} (hl : l.Binds κ.layer)
    (ho : o.joins κ.layer) (hr : r.Binds (κ.layer + 1)) (h : Joins κ R l first links)
    (hy : R (r.joinChains κ []) y) :
    Joins κ R (.binary l o r) first (links ++ [(o, y)]) := by
  intro tail run rest _ htail hmatch hrest
  have hinner := hr.joinChains_nil (κ := κ)
  rw [Phrase.joinChains]
  split
  case isTrue hop =>
    -- one more link of the run
    obtain ⟨first', links', heq, hspread⟩ := h ((o, r.joinChains κ []) :: tail) ((o, y) :: run) rest
      (fun _ => hl) (List.forall_mem_cons.2 ⟨⟨hop, hinner⟩, htail⟩) (.cons ⟨rfl, hy⟩ hmatch) hrest
    refine ⟨first', links', ?_, hspread⟩
    rw [← heq]
    simp
  case isFalse hop =>
    -- another operator of the layer ends the run in front of it
    obtain ⟨first', links', heq, hspread⟩ := h.nil ((o, y) :: (run ++ rest)) (by simpa using hop)
    refine ⟨first', links' ++ [(o, y)] ++ closedLinks κ run, ?_, ?_⟩
    · rw [joinChains_of_not hop,
        joinChains_run_of_matches hgroup (hgroup _ _ hy) htail hmatch hrest] at heq
      simpa [row] using heq
    · exact closeChain hgather
        (.binary κ.layer.lt_succ_self hl.joinChains_nil ho hinner hspread (.piece hinner hy))
        (fun _ => .binary le_rfl hl.joinChains_nil ho hinner) htail hmatch

omit hgroup hgather in
/-- A looser operator than those of the chain stands between two levels. -/
theorem Joins.binary {l r : Phrase} {o : Token} {k : Nat} {y : Item} {links' : Tail Item}
    (hk : k < κ.layer) (hl : l.Binds k) (ho : o.joins k) (hr : r.Binds (k + 1))
    (hleft : Joins κ R l first links) (hright : Joins κ R r (some y) links') :
    Joins κ R (.binary l o r) first (links ++ (o, y) :: links') := by
  intro tail run rest htail _ hmatch hrest
  have hinner := hr.joinChains_nil (κ := κ)
  have hop : ¬ o.isOperator κ.op := Chaining.not_isOperator_of_joins ho hk.ne
  -- no run goes on behind an operator of a looser layer
  obtain rfl : tail = [] := by
    by_contra hne
    cases htail hne with
    | binary hn _ ho' _ =>
      obtain rfl := Token.joins_unique ho ho'
      omega
  cases hmatch
  -- the chains on either side of the operator are joined on their own
  have hbounds := Token.joins_bounds ho
  obtain ⟨first₁, links₁, heq₁, hspread₁⟩ := hleft.nil ((o, y) :: (links' ++ rest))
    (by simpa using hop)
  obtain ⟨first₂, links₂, heq₂, hspread₂⟩ := hright.nil rest hrest
  obtain ⟨y', rfl⟩ := hspread₂.exists_first (hinner.mono (by omega))
  refine ⟨first₁, links₁ ++ (o, y') :: links₂, ?_, ?_⟩
  · rw [joinChains_of_not hop, heq₂] at heq₁
    simpa [row] using heq₁
  · rw [Phrase.joinChains_binary hop]
    exact .binary (hk.trans κ.layer.lt_succ_self) hl.joinChains_nil ho hinner hspread₁ hspread₂

/-- **Joining the chains of a level** does to the level what it does to the phrase. -/
theorem joins (h : Spread (fun q x => R (q.joinChains κ []) x) (κ.layer + 1) p first links) :
    Joins κ R p first links := by
  have hlayer := κ.one_le_layer
  induction h with
  | piece hq hx =>
    -- a single item joins the run as it is
    exact joins_piece hgroup hgather hq hx
  | @signed s p x links hs hp h ih =>
    by_cases hone : κ.layer = 1
    · rw [hone] at h
      -- a sign of the layer of the chain has a single item behind it
      obtain ⟨x', hx', rfl, hx⟩ := h.of_binds le_rfl hp
      obtain rfl := Option.some.inj hx'
      exact joins_signed_of_layer hgroup hgather hs hone hp hx
    · exact ih.signed hs hone hp
  | @binary l r o k first y links links' hk hl ho hr _ hright ihl ihr =>
    by_cases hsame : k = κ.layer
    · subst hsame
      -- so has an operator of that layer
      obtain ⟨y', hy', rfl, hy⟩ := hright.of_binds (by omega) hr
      obtain rfl := Option.some.inj hy'
      exact ihl.binary_of_layer hgroup hgather hl ho hr hy
    · exact ihl.binary (by omega) hl ho hr ihr

end JoinChains

end Spread

/-! ### Items of a chain -/

section Stages

variable {K : Type*} [Field K] [DecidableEq K] {V : Valuation K}

theorem Item.settleTiers_row {κ : Chaining} {x : Item} {links : Tail Item} {z : Item}
    (hlinks : ∀ link ∈ links, link.1.joins κ.layer)
    (hz : settle (layerOps κ.layer) (row (some x) links) = [z]) :
    settleTiers (row (some x) links) = [z] := by
  -- the other tiers find no operator of theirs
  have hother {j : Nat} (hj : κ.layer ≠ j) :
      settle (layerOps j) (row (some x) links) = row (some x) links :=
    settle_row_of_forall_not x fun link hlink => Token.stops_of_joins (hlinks link hlink) hj
  have hpower := hother (j := 3) (by cases κ <;> decide)
  have htiers : settleTiers (row (some x) links) = settle (layerOps 1) (settle (layerOps 2)
      (settle (layerOps 3) (row (some x) links))) := rfl
  rw [htiers, hpower]
  cases κ with
  | division => rw [show settle (layerOps 2) (row (some x) links) = [z] from hz, settle_singleton]
  | subtraction => rw [hother (j := 2) (by decide), ← hz]; rfl

/-- **The operands of a chain** in brackets. -/
theorem Item.Stands.gathered {κ : Chaining} {q : Phrase} {x : Item} {tail : Tail Phrase}
    {links : Tail Item} (hq : Stands V q x) (h : Matches (Stands V) tail links) (o : Token) :
    Stands V (Phrase.gathered κ o q tail) (Item.gathered κ o x links) := by
  cases h with
  | nil => exact hq
  | @cons link link' tail links hlink h =>
    have hmatch := matches_rejoin (.cons hlink h) κ
    have hjoiners : ∀ joint ∈ κ.rejoin (link :: tail), joint.1.joins κ.layer := by
      intro joint hjoint
      obtain ⟨link', -, rfl⟩ := List.mem_map.1 hjoint
      exact κ.joins_join link'.1
    obtain ⟨z, hz, hstands⟩ := hmatch.settle hq hjoiners
    have hlinks := (hmatch.isRow hq hjoiners).links
    rw [Item.gathered, settleTiers_row (fun link hlink => (hlinks link hlink).1) hz]
    exact hstands.region (Bounds.written_added o.position)

/-! ### The stages of a level -/

/-- A tier is settled if what the items stand for is compatible with its operators. -/
theorem Spread.settle_stands {f : Phrase → Phrase} {k : Nat} (hk : 2 ≤ k) {p : Phrase}
    {first : Option Item} {links : Tail Item}
    (hf : ∀ (l r : Phrase) (o : Token), o.joins k →
      f (.binary l o r) = .binary (f l) o (f r))
    (h : Spread (fun q x => Stands V (f q) x) (k + 1) p first links) :
    ∃ first' links', Item.settle (layerOps k) (row first links) = row first' links' ∧
      Spread (fun q x => Stands V (f q) x) k p first' links' := by
  refine h.settle hk fun q tail x links hq hmatch htail => ?_
  have hchained : f (Phrase.chained q tail) = Phrase.chained (f q) (tail.mapOperands f) := by
    clear hq hmatch
    induction tail generalizing q with
    | nil => rfl
    | cons link tail ih =>
      obtain ⟨ho, htail⟩ := List.forall_mem_cons.1 htail
      rw [Phrase.chained, List.foldl_cons, ← Phrase.chained, ih _ htail, hf _ _ _ ho]
      rfl
  rw [hchained]
  exact (matches_mapOperands.2 hmatch).settle hq (List.forall_mem_map.2 htail)

/-- The chains of a level are joined if what the items stand for is compatible with brackets. -/
theorem Spread.joinChains_stands {κ : Chaining} {f : Phrase → Phrase} {p : Phrase}
    {first : Option Item} {links : Tail Item}
    (hf : ∀ (o : Token) (q : Phrase) (tail : Tail Phrase),
      f (Phrase.gathered κ o q tail) = Phrase.gathered κ o (f q) (tail.mapOperands f))
    (h : Spread (fun q x => Stands V (f (q.joinChains κ [])) x) (κ.layer + 1) p first links) :
    ∃ first' links', Item.joinChains κ.op κ.joiner (row first links) = row first' links' ∧
      Spread (fun q x => Stands V (f q) x) (κ.layer + 1) (p.joinChains κ []) first' links' := by
  have hgather (o : Token) (q : Phrase) (x : Item) (tail : Tail Phrase) (links : Tail Item)
      (hq : Stands V (f q) x) (hmatch : Matches (fun q x => Stands V (f q) x) tail links) :
      Stands V (f (Phrase.gathered κ o q tail)) (Item.gathered κ o x links) := by
    rw [hf]
    exact hq.gathered (matches_mapOperands.2 hmatch) o
  have hjoins := Spread.joins (R := fun q x => Stands V (f q) x)
    (fun _ _ hq => hq.isOperandOrGroup) hgather h
  obtain ⟨first', links', heq, hspread⟩ := hjoins.nil [] (by simp)
  refine ⟨first', links', ?_, hspread⟩
  simpa [Item.joinChains, segments] using heq

/-- **A level is arranged** to items that are written as the phrase with its chains bracketed.
Without signs they are a single one, which stands for that phrase. -/
theorem Spread.arrange {p : Phrase} {first : Option Item} {links : Tail Item} (hp : p.Binds 1)
    (h : Spread (fun q x => Stands V q.bracketed x) 4 p first links) :
    flatten (arrange (row first links)) = p.bracketed.tokens ∧
      (p.signs = 0 → ∃ z, arrange (row first links) = [z] ∧ Stands V p.bracketed z) := by
  -- the powers, then the chains of division and the products, then the chains of subtraction
  obtain ⟨first₁, links₁, heq₁, hpowers⟩ := h.settle_stands (f := Phrase.bracketed) (by decide)
    fun l r o ho => Phrase.bracketed_binary ho l r
  obtain ⟨first₂, links₂, heq₂, hjoined⟩ := Spread.joinChains_stands (κ := .division)
    (f := fun q => q.joinChains .subtraction [])
    (fun o q tail => Phrase.joinChains_gathered o q tail)
    hpowers
  obtain ⟨first₃, links₃, heq₃, hproducts⟩ := hjoined.settle_stands (k := 2)
    (f := fun q => q.joinChains .subtraction []) le_rfl fun l r o ho =>
      Phrase.joinChains_binary (Chaining.not_isOperator_of_joins ho (by decide)) l r
  obtain ⟨first₄, links₄, heq₄, hspread⟩ := Spread.joinChains_stands (κ := .subtraction) (f := id)
    (fun o q tail => by simp [Tail.mapOperands]) hproducts
  -- this is what arranging does, tier by tier
  have harrange :
      Item.arrange (row first links) = Item.settle (layerOps 1) (row first₄ links₄) := by
    rw [← heq₄, ← heq₃, ← heq₂, ← heq₁]
    rfl
  replace hspread : Spread (Stands V) 2 p.bracketed first₄ links₄ := hspread
  -- settling the sums does not change the tokens, and without signs one item is left
  rw [harrange, flatten_settle]
  refine ⟨hspread.flatten_row, fun hsigns => ?_⟩
  have hbracketed : p.bracketed.signs = 0 := by rw [Phrase.signs_bracketed, hsigns]
  obtain ⟨x, rfl⟩ := hspread.exists_first_of_signs hbracketed
  obtain ⟨q, tail, hchained, hq, hmatch, htail⟩ := hspread.exists_chained le_rfl hp.bracketed
  obtain ⟨z, hz, hstands⟩ := Matches.settle hmatch hq htail
  rw [← hchained] at hstands
  exact ⟨z, hz, hstands⟩

/-! ### All levels -/

/-- **The items of a phrase**, nested and arranged within, are the phrase spread over a level. -/
theorem Phrase.Binds.exists_spread {p : Phrase} {n : Nat} (h : p.Binds n) :
    ∃ items first links, (∀ rest, nest (p.tokens ++ rest) = items ++ nest rest) ∧
      arrangeEach items = row first links ∧
      Spread (fun q x => Stands V q.bracketed x) 4 p first links := by
  induction h with
  | @operand t n ht =>
    refine ⟨[.token t], some (.token t), [], ?_, rfl, .piece (.operand ht) ⟨ht, ?_, ?_⟩⟩
    · -- an operand is a level of one item
      intro rest
      exact nest_of_token (region?_eq_none (.inl ht) rest)
    · rw [flatten_token, flatten_nil]
      rfl
    · exact fun _ => ⟨.operand ht, by rw [Item.eval]; rfl⟩
  | @region b p n hb hp ih =>
    obtain ⟨items, first, links, hnest, heach, hspread⟩ := ih
    -- the contents are put together before the group is looked at
    obtain ⟨hflatten, hsingle⟩ := hspread.arrange hp
    rw [← heach] at hflatten hsingle
    refine ⟨[.group b items], some (.group b (arrange (arrangeEach items))), [], ?_, rfl,
      .piece (.region hb hp) ⟨rfl, ?_, fun hsigns => ?_⟩⟩
    · intro rest
      rw [Phrase.tokens, nest_of_written hb hp.balanced, nest_eq_of_forall hnest]
      rfl
    · rw [flatten_singleton_group, hflatten]
      rfl
    · rw [Phrase.signs_bracketed] at hsigns
      obtain ⟨z, hz, hstands⟩ := hsingle hsigns
      rw [hz]
      exact (hstands.region hb).formed (by rwa [Phrase.signs, Phrase.signs_bracketed])
  | @signed s p n hn hs hp ih =>
    obtain ⟨items, first, links, hnest, heach, hspread⟩ := ih
    -- a sign stands in front of the level behind it
    obtain ⟨x, rfl⟩ := hspread.exists_first hp
    refine ⟨.token s :: items, none, (s, x) :: links, ?_, ?_, .signed hs hp hspread⟩
    · intro rest
      have hsign := nest_of_token (region?_eq_none (.inr (Token.kind_of_isSign hs))
        (p.tokens ++ rest))
      rw [Phrase.tokens, List.cons_append, hsign, hnest, List.cons_append]
    · rw [arrangeEach, heach, arrangeInside, row_none_cons]
  | @binary l r o n k hnk hl ho hr ihl ihr =>
    obtain ⟨items₁, first₁, links₁, hnest₁, heach₁, hspread₁⟩ := ihl
    obtain ⟨items₂, first₂, links₂, hnest₂, heach₂, hspread₂⟩ := ihr
    have hk := Token.joins_bounds ho
    -- the right operand starts with an item that the operator can take
    obtain ⟨y, rfl⟩ := hspread₂.exists_first (hr.mono (by omega))
    refine ⟨items₁ ++ .token o :: items₂, first₁, links₁ ++ (o, y) :: links₂, ?_, ?_,
      .binary (by omega) hl ho hr hspread₁ hspread₂⟩
    · intro rest
      -- the operator is an item by itself
      have htoken := nest_of_token (region?_eq_none (.inr (Token.kind_of_joins ho))
        (r.tokens ++ rest))
      rw [Phrase.tokens, List.append_assoc, hnest₁, List.cons_append, htoken, hnest₂,
        List.append_assoc, List.cons_append]
    · rw [arrangeEach_append, heach₁, arrangeEach, heach₂, arrangeInside, row_append_cons]

/-- **The items of a reading** are written as the reading with its chains bracketed. Without signs
they are a single one, which stands for that. -/
theorem Phrase.Reads.group_spec {p : Phrase} {ts : List Token} (h : p.Reads ts) :
    flatten (group ts) = p.bracketed.tokens ∧
      (p.signs = 0 → ∃ z, group ts = [z] ∧ Stands V p.bracketed z) := by
  obtain ⟨items, first, links, hnest, heach, hspread⟩ := h.binds.exists_spread (V := V)
  have hgroup : group ts = arrange (row first links) := by
    rw [group, ← h.tokens_eq, nest_eq_of_forall hnest, heach]
  rw [hgroup]
  exact hspread.arrange h.binds

end Stages

/-! ### What is written, and what it is worth -/

/-- A valuation is not needed to know what is written. -/
instance : Inhabited (Valuation ℚ) :=
  ⟨⟨fun _ => 0, fun _ _ => none, fun _ _ => none⟩⟩

/-- **Regrouping keeps a formula well formed**: what is written is read as the reading with its
chains bracketed. -/
theorem Phrase.Reads.reads_normalize {p : Phrase} {ts : List Token} (h : p.Reads ts) :
    p.bracketed.Reads (normalize ts) :=
  ⟨h.binds.bracketed, (h.group_spec (V := (default : Valuation ℚ))).1.symm⟩

/-- The tree that is built without signs. -/
theorem Phrase.Reads.ofRpn_normalize {p : Phrase} {ts : List Token} (h : p.Reads ts)
    (hsigns : p.signs = 0) : Tree.ofRpn (toRpn (normalize ts)) = .ok p.bracketed.tree := by
  rw [h.reads_normalize.toRpn_eq]
  exact h.binds.bracketed.ofRpn_postorder (by rw [Phrase.signs_bracketed, hsigns])

/-- **The round trip through the items** of an accepted formula puts brackets around its chains, on
every level, and changes nothing else: the result is written as the one reading of the formula with
its chains bracketed, first those of division and then those of subtraction. -/
theorem normalize_brackets {ts : List Token} (hvalid : validate ts = []) (harith : Arithmetic ts) :
    (ts = [] → normalize ts = []) ∧
      (ts ≠ [] → ∃ p : Phrase, p.Reads ts ∧ (∀ q : Phrase, q.Reads ts → q = p) ∧
        normalize ts = p.bracketed.tokens) := by
  constructor
  · rintro rfl
    decide +kernel
  · intro hne
    obtain ⟨p, hp⟩ := exists_reads hne hvalid harith
    exact ⟨p, hp, fun q hq => hq.unique hp, hp.reads_normalize.tokens_eq.symm⟩

/-- The three subtracted terms of `-a-b/c/d-e` make a chain, and so do the divisors of the second of
them. -/
theorem normalize_brackets_chains :
    let ts := (tokenize "-a-b/c/d-e").tokens
    validate ts = [] ∧ Arithmetic ts ∧ ts ≠ [] ∧
      Token.join (normalize ts) "" = "-(a+b/(c*d)+e)" ∧
      ∃ p : Phrase, p.Reads ts ∧ (∀ q : Phrase, q.Reads ts → q = p) ∧
        normalize ts = p.bracketed.tokens := by
  have hvalid : validate (tokenize "-a-b/c/d-e").tokens = [] := by decide +kernel
  have harith : Arithmetic (tokenize "-a-b/c/d-e").tokens := by decide +kernel
  have hne : (tokenize "-a-b/c/d-e").tokens ≠ [] := by decide +kernel
  exact ⟨hvalid, harith, hne, by decide +kernel, (normalize_brackets hvalid harith).2 hne⟩

/-- **Without signs in leading position** the items of a formula are a single one. It has the right
shape throughout, and its value is that of the formula, and so is the value of the tree that is
built from the items when they are written out. Where one of the three has no value, none has. -/
theorem group_eval {K : Type*} [Field K] [DecidableEq K] {ts : List Token} (hne : ts ≠ [])
    (hvalid : validate ts = []) (harith : Arithmetic ts) (hsigns : leadingSigns true ts = 0) :
    ∃ (p : Phrase) (x : Item) (tree : Tree),
      p.Reads ts ∧ (∀ q : Phrase, q.Reads ts → q = p) ∧ group ts = [x] ∧ x.Formed ∧
      Tree.ofRpn (toRpn (flatten (group ts))) = .ok tree ∧
      ∀ V : Valuation K, x.eval V = p.eval V ∧ tree.eval V = p.eval V := by
  obtain ⟨p, hp⟩ := exists_reads hne hvalid harith
  have hunsigned : p.signs = 0 := by rw [← hp.leadingSigns_eq, hsigns]
  have hbracketed : p.bracketed.signs = 0 := by rw [Phrase.signs_bracketed, hunsigned]
  obtain ⟨x, hx, hstands⟩ := (hp.group_spec (V := (default : Valuation ℚ))).2 hunsigned
  refine ⟨p, x, p.bracketed.tree, hp, fun q hq => hq.unique hp, hx, (hstands.formed hbracketed).1,
    hp.ofRpn_normalize hunsigned, fun V => ⟨?_, ?_⟩⟩
  · -- the item is the same for every valuation
    obtain ⟨z, hz, hstands⟩ := (hp.group_spec (V := V)).2 hunsigned
    obtain rfl : x = z := List.singleton_inj.1 (hx.symm.trans hz)
    rw [(hstands.formed hbracketed).2, Phrase.eval_bracketed]
  · rw [Phrase.eval_tree hbracketed, Phrase.eval_bracketed]

/-- The items of `a-b+c-d/e/f`, where a pass leaves the addition for later. -/
theorem group_eval_skipped :
    let ts := (tokenize "a-b+c-d/e/f").tokens
    ts ≠ [] ∧ validate ts = [] ∧ Arithmetic ts ∧ leadingSigns true ts = 0 ∧
      ∃ (p : Phrase) (x : Item) (tree : Tree),
        p.Reads ts ∧ (∀ q : Phrase, q.Reads ts → q = p) ∧ group ts = [x] ∧ x.Formed ∧
        Tree.ofRpn (toRpn (flatten (group ts))) = .ok tree ∧
        ∀ V : Valuation ℚ, x.eval V = p.eval V ∧ tree.eval V = p.eval V := by
  have hne : (tokenize "a-b+c-d/e/f").tokens ≠ [] := by decide +kernel
  have hvalid : validate (tokenize "a-b+c-d/e/f").tokens = [] := by decide +kernel
  have harith : Arithmetic (tokenize "a-b+c-d/e/f").tokens := by decide +kernel
  have hsigns : leadingSigns true (tokenize "a-b+c-d/e/f").tokens = 0 := by decide +kernel
  exact ⟨hne, hvalid, harith, hsigns, group_eval hne hvalid harith hsigns⟩

end Formula
