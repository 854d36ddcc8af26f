import Formula.Proofs.Arranging
import Mathlib.Data.Nat.Log

/-!
# Counting passes

A tier is settled by passes, and the last of them groups nothing. On any level there are no more
than half as many as there are items, since a pass that groups something makes the level shorter by
two at least (`Item.passes_le`).

In a row of operators of one tier it is the number of operators that counts. A pass skips an
operator only behind what it has just made, and never two in a row. That leaves half of the
operators over at most, and just as many if all of them may be skipped
(`Item.length_passLinks_le_half`, `Item.length_passLinks_of_skips`). So there are as many passes as
this number can be halved, and two more (`Item.passes_row_le`, `Item.passes_row_eq`).

Passes on either side of an operator of another tier take no notice of each other
(`Item.passes_append`). So a level where operands and operators take turns is cut into the runs of
operators of the tier (`Item.InRuns`), and the passes are those through the run that takes the most
(`Item.InRuns.passes_le`, `Item.passes_eq_of_infix`).
-/

namespace Formula

namespace Item

variable {ops : List String}

/-! ### Passes on any level -/

/-- **Passes are few**: half as many as there are items, and one more. -/
theorem passes_le (ops : List String) (items : List Item) :
    passes ops items ≤ items.length / 2 + 1 := by
  fun_induction passes ops items with
  | case1 items next hshorter ih =>
    rcases (regroups_pass ops items).eq_or_add_two_le with heq | hle
    · exact absurd (congrArg List.length heq) hshorter.ne
    · have hle : next.length + 2 ≤ items.length := hle
      omega
  | case2 items next _ => omega

/-- **Settling is a number of passes.** -/
theorem settle_eq_iterate (ops : List String) (items : List Item) :
    settle ops items = (pass ops)^[passes ops items] items := by
  fun_induction settle ops items with
  | case1 items next hshorter ih =>
    rw [passes, if_pos hshorter, Function.iterate_succ_apply, ih]
  | case2 items next hstays =>
    rw [passes, if_neg hstays, Function.iterate_one]

theorem passes_of_pass_eq {items : List Item} (h : pass ops items = items) :
    passes ops items = 1 := by
  rw [passes, h, if_neg (lt_irrefl _)]

theorem passes_of_shorter {items : List Item} (h : (pass ops items).length < items.length) :
    passes ops items = passes ops (pass ops items) + 1 := by
  rw [passes, if_pos h]

theorem one_le_passes (ops : List String) (items : List Item) : 1 ≤ passes ops items := by
  rw [passes]
  split <;> omega

/-- A pass leaves one pass less to do, but the one that groups nothing is done in any case. -/
theorem passes_pass (ops : List String) (items : List Item) :
    passes ops (pass ops items) = max 1 (passes ops items - 1) := by
  have hone := one_le_passes ops (pass ops items)
  by_cases hshorter : (pass ops items).length < items.length
  · rw [passes_of_shorter hshorter]
    omega
  · rw [pass_eq_self hshorter, passes_of_pass_eq (pass_eq_self hshorter)]
    rfl

/-- **Passes on either side** of an operator of another tier go on at the same time. -/
theorem passes_append {b : Token} (hoperand : ¬ b.isOperand) (hops : ¬ b.isOperatorIn ops)
    (items rest : List Item) :
    passes ops (items ++ token b :: rest) = max (passes ops items) (passes ops rest) := by
  induction hlength : items.length + rest.length using Nat.strong_induction_on
    generalizing items rest with
  | _ n ih =>
    have hpass := pass_append hoperand hops items rest
    have hitems := length_pass_le ops items
    have hrest := length_pass_le ops rest
    by_cases hstays : pass ops items = items ∧ pass ops rest = rest
    · -- nothing to do on either side
      obtain ⟨hfront, hback⟩ := hstays
      rw [hfront, hback] at hpass
      rw [passes_of_pass_eq hpass, passes_of_pass_eq hfront, passes_of_pass_eq hback]
      rfl
    · have hshorter : (pass ops items).length < items.length ∨
          (pass ops rest).length < rest.length := by
        by_contra hnot
        rw [not_or] at hnot
        exact hstays ⟨pass_eq_self hnot.1, pass_eq_self hnot.2⟩
      have hall : (pass ops (items ++ token b :: rest)).length <
          (items ++ token b :: rest).length := by
        simp only [hpass, List.length_append, List.length_cons]
        omega
      -- where something is grouped, there is more than one pass
      have htwo : 2 ≤ max (passes ops items) (passes ops rest) := by
        rcases hshorter with h | h
        · have := passes_of_shorter h
          have := one_le_passes ops (pass ops items)
          omega
        · have := passes_of_shorter h
          have := one_le_passes ops (pass ops rest)
          omega
      rw [passes_of_shorter hall, hpass, ih _ (by omega) _ _ rfl, passes_pass, passes_pass]
      omega

@[simp] theorem passes_nil : passes ops [] = 1 :=
  passes_of_pass_eq rfl

@[simp] theorem passes_singleton (x : Item) : passes ops [x] = 1 :=
  passes_of_pass_eq rfl

/-! ### Passes through a run -/

/-- The operators of a row. -/
def operatorsOf (links : Tail Item) : List Token :=
  links.map Prod.fst

/-- A pass leaves operators over that were there. -/
theorem passLinks_sublist (x : Item) (fresh : Bool) (links : Tail Item) :
    (operatorsOf (passLinks x fresh links).2).Sublist (operatorsOf links) := by
  fun_induction Item.passLinks x fresh links with
  | case1 => exact .refl _
  | case2 x fresh o y links _ later ih => exact ih.cons_cons o
  | case3 x fresh o y links _ ih => exact ih.cons o

/-- **Half of the operators** are left over at most, since none is skipped but behind one that is
not. Behind what the pass has just made it may be the first one. -/
theorem length_passLinks_le_half (x : Item) (fresh : Bool) (links : Tail Item) :
    (passLinks x fresh links).2.length ≤ (links.length + fresh.toNat) / 2 := by
  fun_induction Item.passLinks x fresh links with
  | case1 => exact Nat.zero_le _
  | case2 x fresh o y links hskip later ih =>
    simp only [Bool.and_eq_true] at hskip
    simp only [hskip.2, List.length_cons, Bool.toNat_true, Bool.toNat_false, later] at ih ⊢
    omega
  | case3 x fresh o y links _ ih =>
    simp only [List.length_cons, Bool.toNat_true] at ih ⊢
    omega

/-- **Just half of the operators** are left over if all of them may be skipped. -/
theorem length_passLinks_of_skips (x : Item) (fresh : Bool) {links : Tail Item}
    (hskips : ∀ link ∈ links, link.1.isOperatorIn ["+", "*"]) :
    (passLinks x fresh links).2.length = (links.length + fresh.toNat) / 2 := by
  fun_induction Item.passLinks x fresh links with
  | case1 x fresh => cases fresh <;> rfl
  | case2 x fresh o y links hskip later ih =>
    simp only [Bool.and_eq_true] at hskip
    have ih := ih (List.forall_mem_cons.1 hskips).2
    simp only [hskip.2, List.length_cons, Bool.toNat_true, Bool.toNat_false, later] at ih ⊢
    omega
  | case3 x fresh o y links htake ih =>
    obtain ⟨ho, hskips⟩ := List.forall_mem_cons.1 hskips
    have hfresh : fresh = false := by simpa [ho] using htake
    have ih := ih hskips
    simp only [hfresh, List.length_cons, Bool.toNat_true, Bool.toNat_false] at ih ⊢
    omega

section Rows

variable {k : Nat} {x : Item} {links : Tail Item}

/-- One pass through a run, and then what it leaves over. -/
theorem passes_row (h : IsRow (fun x => x.isOperandOrGroup) k x links) (hne : links ≠ []) :
    passes (layerOps k) (row (some x) links) =
      passes (layerOps k)
        (row (some (passLinks x false links).1) (passLinks x false links).2) + 1 := by
  have hlt := length_passLinks_lt x hne
  have hlength (y : Item) (links : Tail Item) :
      (row (some y) links).length = 2 * links.length + 1 := by
    rw [row_some, List.length_cons, row]
    simp [List.length_flatMap, Nat.mul_comm]
  have hshorter : (pass (layerOps k) (row (some x) links)).length <
      (row (some x) links).length := by
    rw [pass_row h, hlength, hlength]
    omega
  rw [passes_of_shorter hshorter, pass_row h]

/-- **The passes through a run** are as many as its operators can be halved, and two more. -/
theorem passes_row_le (h : IsRow (fun x => x.isOperandOrGroup) k x links) (hne : links ≠ []) :
    passes (layerOps k) (row (some x) links) ≤ Nat.log 2 links.length + 2 := by
  induction hlength : links.length using Nat.strong_induction_on generalizing x links with
  | _ n ih =>
    subst hlength
    have hhalf := length_passLinks_le_half x false links
    have hlater := h.passLinks (fun _ _ _ _ _ _ => rfl) false
    rw [passes_row h hne]
    by_cases hnil : (passLinks x false links).2 = []
    · rw [hnil, row_some, row_none_nil, passes_singleton]
      omega
    · have hle := ih _ (length_passLinks_lt x hne) hlater hnil rfl
      have hpos := List.length_pos_iff.2 hnil
      have hlog : Nat.log 2 links.length = Nat.log 2 (links.length / 2) + 1 :=
        Nat.log_of_one_lt_of_le (by decide) (by simp at hhalf; omega)
      have hmono := Nat.log_mono_right (b := 2) hhalf
      rw [Bool.toNat_false, Nat.add_zero] at hmono
      omega

/-- If all of its operators may be skipped, there are as many passes. -/
theorem passes_row_eq (h : IsRow (fun x => x.isOperandOrGroup) k x links) (hne : links ≠ [])
    (hskips : ∀ link ∈ links, link.1.isOperatorIn ["+", "*"]) :
    passes (layerOps k) (row (some x) links) = Nat.log 2 links.length + 2 := by
  induction hlength : links.length using Nat.strong_induction_on generalizing x links with
  | _ n ih =>
    subst hlength
    -- one pass over the row groups at every second operator
    have hhalf := length_passLinks_of_skips x false hskips
    have hlater := h.passLinks (fun _ _ _ _ _ _ => rfl) false
    rw [Bool.toNat_false, Nat.add_zero] at hhalf
    have hpos := List.length_pos_iff.2 hne
    rw [passes_row h hne]
    by_cases hnil : (passLinks x false links).2 = []
    · -- there was only one operator
      have hone : links.length = 1 := by
        rw [hnil, List.length_nil] at hhalf
        omega
      rw [hnil, row_some, row_none_nil, passes_singleton, hone, Nat.log_one_right]
    · have hskips' : ∀ link ∈ (passLinks x false links).2, link.1.isOperatorIn ["+", "*"] := by
        intro link hlink
        have hmem : link.1 ∈ operatorsOf links :=
          (passLinks_sublist x false links).subset (List.mem_map_of_mem hlink)
        obtain ⟨link', hlink', heq⟩ := List.mem_map.1 hmem
        exact heq ▸ hskips link' hlink'
      have heq := ih _ (length_passLinks_lt x hne) hlater hnil hskips' rfl
      have hpos' := List.length_pos_iff.2 hnil
      -- what is left has half as many operators, so its logarithm is one less
      have hlog : Nat.log 2 links.length = Nat.log 2 (links.length / 2) + 1 :=
        Nat.log_of_one_lt_of_le (by decide) (by omega)
      rw [heq, hhalf, hlog]

end Rows

/-! ### Levels where operands and operators take turns -/

/-- The operators that stand on a level. -/
def operators (items : List Item) : List Token :=
  (items.filterMap token?).filter fun t => t.kind == .operator

/-- Behind an operand, operators and operands take turns. -/
def TakeTurns (links : Tail Item) : Prop :=
  ∀ link ∈ links, link.1.kind = .operator ∧ link.2.isOperandOrGroup

/-- **A level without signs**: nothing at all, or operands with operators between them. -/
inductive Alternates : List Item → Prop
  | nil : Alternates []
  | turns {x : Item} {links : Tail Item} (hx : x.isOperandOrGroup) (hlinks : TakeTurns links) :
      Alternates (row (some x) links)

theorem operators_cons_of_operand {x : Item} (hx : x.isOperandOrGroup) (items : List Item) :
    operators (x :: items) = operators items := by
  cases x with
  | group b contents => rfl
  | token t =>
    rcases Token.kind_of_isOperand hx with h | h <;> simp [operators, token?, h]

theorem operators_row {x : Item} {links : Tail Item} (hx : x.isOperandOrGroup)
    (hlinks : TakeTurns links) : operators (row (some x) links) = operatorsOf links := by
  induction links generalizing x with
  | nil => exact operators_cons_of_operand hx []
  | cons link links ih =>
    obtain ⟨⟨ho, hy⟩, hlinks⟩ := List.forall_mem_cons.1 hlinks
    have hrest := ih hy hlinks
    rw [row_some, operators_cons_of_operand hx, row_none_cons, operatorsOf, List.map_cons,
      ← operatorsOf, ← hrest]
    simp [operators, token?, ho]

/-- **A level cut into runs** of operators of layer `k`, at the operators of the other layers. -/
inductive InRuns (k : Nat) : Item → Tail Item → Prop
  | run {x : Item} {links : Tail Item} (h : IsRow (fun x => x.isOperandOrGroup) k x links) :
      InRuns k x links
  | cut {x y : Item} {b : Token} {run rest : Tail Item}
      (h : IsRow (fun x => x.isOperandOrGroup) k x run) (hb : b.kind = .operator)
      (hother : ¬ b.joins k) (hrest : InRuns k y rest) : InRuns k x (run ++ (b, y) :: rest)

theorem TakeTurns.inRuns {x : Item} {links : Tail Item} (h : TakeTurns links)
    (hx : x.isOperandOrGroup) (k : Nat) : InRuns k x links := by
  induction links generalizing x with
  | nil => exact .run ⟨hx, by simp⟩
  | cons link links ih =>
    obtain ⟨o, y⟩ := link
    obtain ⟨⟨ho, hy⟩, hlinks⟩ := List.forall_mem_cons.1 h
    have hrest := ih hlinks hy
    by_cases hjoins : o.joins k
    · -- the operator goes with the run behind it
      cases hrest with
      | run hrow => exact .run (isRow_cons.2 ⟨hx, hjoins, hrow⟩)
      | @cut _ z b run rest hrow hb hother hrest =>
        have hcut : InRuns k x ((o, y) :: run ++ (b, z) :: rest) :=
          .cut (isRow_cons.2 ⟨hx, hjoins, hrow⟩) hb hother hrest
        exact hcut
    · have hcut : InRuns k x ([] ++ (o, y) :: links) := .cut ⟨hx, by simp⟩ ho hjoins hrest
      exact hcut

/-- An operator of another layer is passed by. -/
theorem stops_of_kind {b : Token} {k : Nat} (hb : b.kind = .operator) (hother : ¬ b.joins k) :
    ¬ b.isOperand ∧ ¬ b.isOperatorIn (layerOps k) :=
  ⟨fun h => by simp [Token.isOperand, hb] at h, hother⟩

/-- How many passes are enough for a number of operators. -/
def passBound (n : Nat) : Nat :=
  if n = 0 then 1 else Nat.log 2 n + 2

theorem passBound_mono {m n : Nat} (h : m ≤ n) : passBound m ≤ passBound n := by
  have hlog := Nat.log_mono_right (b := 2) h
  unfold passBound
  split <;> split <;> omega

/-- The operators of layer `k` in a row. -/
def operatorsAt (k : Nat) (links : Tail Item) : List Token :=
  (operatorsOf links).filter fun t => t.joins k

namespace InRuns

variable {k : Nat} {x : Item} {links : Tail Item}

/-- **What is left of a level**: each run is one item, and the other operators stay. -/
theorem exists_settle (h : InRuns k x links) :
    ∃ z rest, settle (layerOps k) (row (some x) links) = row (some z) rest ∧
      z.isOperandOrGroup ∧ TakeTurns rest ∧ ∀ link ∈ rest, ¬ link.1.joins k := by
  induction h with
  | run h =>
    obtain ⟨z, hz, hgroup, -⟩ := exists_settle_row (V := (default : Valuation ℚ)) h
    exact ⟨z, [], hz, hgroup, by simp [TakeTurns], by simp⟩
  | @cut x y b run rest h hb hother _ ih =>
    obtain ⟨z, hz, hgroup, -⟩ := exists_settle_row (V := (default : Valuation ℚ)) h
    obtain ⟨z', rest', hz', hgroup', hturns, hnone⟩ := ih
    obtain ⟨hoperand, hops⟩ := stops_of_kind hb hother
    refine ⟨z, (b, z') :: rest', ?_, hgroup, List.forall_mem_cons.2 ⟨⟨hb, hgroup'⟩, hturns⟩,
      List.forall_mem_cons.2 ⟨hother, hnone⟩⟩
    rw [row_append_cons, settle_append hoperand hops, hz, hz']
    rfl

/-- The operators of a run are all there is of their layer. -/
theorem operatorsAt_of_isRow {P : Item → Prop} (h : IsRow P k x links) :
    operatorsAt k links = operatorsOf links := by
  rw [operatorsAt, List.filter_eq_self]
  intro t ht
  obtain ⟨link, hlink, rfl⟩ := List.mem_map.1 ht
  exact (h.links link hlink).1

/-- **The passes through a level** are no more than its operators of the tier call for. -/
theorem passes_le (h : InRuns k x links) :
    passes (layerOps k) (row (some x) links) ≤ passBound (operatorsAt k links).length := by
  -- a run is not the whole level, but what it takes is enough for it
  have hrun {x : Item} {run : Tail Item} (h : IsRow (fun x => x.isOperandOrGroup) k x run) :
      passes (layerOps k) (row (some x) run) ≤ passBound (operatorsAt k run).length := by
    rw [operatorsAt_of_isRow h, operatorsOf, List.length_map]
    by_cases hnil : run = []
    · subst hnil
      exact (passes_singleton x).le
    · rw [passBound, if_neg (by simpa using hnil)]
      exact passes_row_le h hnil
  induction h with
  | run h => exact hrun h
  | @cut x y b run rest h hb hother _ ih =>
    obtain ⟨hoperand, hops⟩ := stops_of_kind hb hother
    have hsplit : operatorsAt k (run ++ (b, y) :: rest) =
        operatorsAt k run ++ operatorsAt k rest := by
      simp [operatorsAt, operatorsOf, hother]
    -- a cut at another operator: the passes on both sides run side by side
    rw [row_append_cons, passes_append hoperand hops, hsplit, List.length_append]
    exact max_le ((hrun h).trans (passBound_mono (Nat.le_add_right _ _)))
      (ih.trans (passBound_mono (Nat.le_add_left _ _)))

end InRuns

/-- Operators of layer `k` that stand next to each other are a run of the level. -/
theorem exists_run_of_infix {k : Nat} {links : Tail Item}
    (h : operatorsAt k links <:+: operatorsOf links) :
    ∃ front run back, links = front ++ (run ++ back) ∧ operatorsOf run = operatorsAt k links ∧
      (∀ link ∈ front, ¬ link.1.joins k) ∧ (∀ link ∈ run, link.1.joins k) ∧
      ∀ link ∈ back, ¬ link.1.joins k := by
  obtain ⟨us, vs, hall⟩ := h
  have hjoins : (operatorsAt k links).filter (·.joins k) = operatorsAt k links := by
    simp [operatorsAt]
  -- nothing is left of the layer for the operators in front and behind
  have hlength := congrArg (fun ts => (ts.filter (·.joins k)).length) hall
  simp only [List.filter_append, List.length_append, hjoins] at hlength
  rw [← operatorsAt] at hlength
  have hus : us.filter (·.joins k) = [] := List.length_eq_zero_iff.1 (by omega)
  have hvs : vs.filter (·.joins k) = [] := List.length_eq_zero_iff.1 (by omega)
  rw [List.append_assoc] at hall
  -- the split of the operators is one of the links
  obtain ⟨front, behind, hlinks, hfront, hbehind⟩ := List.map_eq_append_iff.1 hall.symm
  obtain ⟨run, back, rfl, hrun, hback⟩ := List.map_eq_append_iff.1 hbehind
  refine ⟨front, run, back, hlinks, hrun, ?_, ?_, ?_⟩
  · intro link hlink
    exact List.filter_eq_nil_iff.1 hus _ (hfront ▸ List.mem_map_of_mem hlink)
  · intro link hlink
    have hmem : link.1 ∈ operatorsAt k links := hrun ▸ List.mem_map_of_mem hlink
    exact (List.mem_filter.1 hmem).2
  · intro link hlink
    exact List.filter_eq_nil_iff.1 hvs _ (hback ▸ List.mem_map_of_mem hlink)

/-- Operators of other layers in front do not count. -/
theorem exists_passes_behind {k : Nat} {x : Item} {front : Tail Item} (hx : x.isOperandOrGroup)
    (hturns : TakeTurns front) (hfront : ∀ link ∈ front, ¬ link.1.joins k) (links : Tail Item) :
    ∃ y, y.isOperandOrGroup ∧ passes (layerOps k) (row (some x) (front ++ links)) =
      passes (layerOps k) (row (some y) links) := by
  induction front generalizing x with
  | nil => exact ⟨x, hx, rfl⟩
  | cons link front ih =>
    obtain ⟨⟨hb, hy⟩, hturns⟩ := List.forall_mem_cons.1 hturns
    obtain ⟨hother, hfront⟩ := List.forall_mem_cons.1 hfront
    obtain ⟨y, hgroup, hpasses⟩ := ih hy hturns hfront
    obtain ⟨hoperand, hops⟩ := stops_of_kind hb hother
    have hsplit : row (some x) (link :: front ++ links) =
        [x] ++ token link.1 :: row (some link.2) (front ++ links) := rfl
    refine ⟨y, hgroup, ?_⟩
    rw [hsplit, passes_append hoperand hops, hpasses, passes_singleton]
    exact max_eq_right (one_le_passes _ _)

/-- **Passes at their most**: if the operators of the tier stand next to each other, and all of them
may be skipped behind what a pass has just made. -/
theorem passes_eq_of_infix {k : Nat} {x : Item} {links : Tail Item} (hx : x.isOperandOrGroup)
    (hturns : TakeTurns links) (hne : operatorsAt k links ≠ [])
    (hadjacent : operatorsAt k links <:+: operatorsOf links)
    (hskips : ∀ o ∈ operatorsAt k links, o.isOperatorIn ["+", "*"]) :
    passes (layerOps k) (row (some x) links) =
      Nat.log 2 (operatorsAt k links).length + 2 := by
  obtain ⟨front, run, back, hlinks, hoperators, hfront, hrun, hback⟩ :=
    exists_run_of_infix hadjacent
  rw [← hoperators] at hne hskips ⊢
  rw [hlinks] at hturns ⊢
  obtain ⟨hturns, hturns'⟩ := List.forall_mem_append.1 hturns
  obtain ⟨hturns₁, hturns₂⟩ := List.forall_mem_append.1 hturns'
  -- in front of the run nothing is grouped, so only its last item counts
  obtain ⟨y, hy, hpasses⟩ := exists_passes_behind hx hturns hfront (run ++ back)
  have hrow : IsRow (fun x => x.isOperandOrGroup) k y run :=
    ⟨hy, fun link hlink => ⟨hrun link hlink, (hturns₁ link hlink).2⟩⟩
  have heq := passes_row_eq hrow (by simpa [operatorsOf] using hne)
    fun link hlink => hskips _ (List.mem_map_of_mem hlink)
  rw [hpasses, operatorsOf, List.length_map, ← heq]
  cases back with
  | nil => rw [List.append_nil]
  | cons link back =>
    -- behind the run nothing is grouped
    obtain ⟨⟨hb, hz⟩, hturns₂⟩ := List.forall_mem_cons.1 hturns₂
    obtain ⟨hother, hback⟩ := List.forall_mem_cons.1 hback
    obtain ⟨hoperand, hops⟩ := stops_of_kind hb hother
    obtain ⟨z, -, hlast⟩ := exists_passes_behind hz hturns₂ hback []
    rw [List.append_nil] at hlast
    rw [row_append_cons, passes_append hoperand hops, hlast]
    exact max_eq_left ((passes_singleton z).le.trans (one_le_passes _ _))

end Item

end Formula
