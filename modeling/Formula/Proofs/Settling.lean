import Formula.Proofs.Evaluation
import Formula.Proofs.Regrouping

/-!
# Settling a level

A level is a row: a first operand, if it does not start with a sign, and then operators with their
right operands. A tier is settled between the operators of the other tiers as if they were not there
(`Item.settle_append`), so it is enough to know what becomes of a row whose operators are all of one
layer. It ends in a single item (`Item.settle_row`), because every pass puts together at least the
first two operands.

That item is not always grouped to the left: `+` and `*` leave alone what the same pass has made.
It has the value of the row all the same. Where a pass skips an operator, what comes behind it is
put together first, and an addition or a multiplication may wait (`Item.eval_passLinks`).
-/

namespace Formula

namespace Item

/-! ### Rows -/

/-- The items of a level. -/
def row (first : Option Item) (links : Tail Item) : List Item :=
  first.toList ++ links.flatMap fun link => [token link.1, link.2]

theorem row_some (x : Item) (links : Tail Item) : row (some x) links = x :: row none links := rfl

theorem row_none_cons (o : Token) (x : Item) (links : Tail Item) :
    row none ((o, x) :: links) = token o :: row (some x) links := rfl

@[simp] theorem row_none_nil : row none [] = [] := rfl

theorem row_append (first : Option Item) (links links' : Tail Item) :
    row first (links ++ links') = row first links ++ row none links' := by
  simp [row]

/-- A row is what comes in front of one of its operators, the operator, and the row behind it. -/
theorem row_append_cons (first : Option Item) (links links' : Tail Item) (o : Token) (x : Item) :
    row first (links ++ (o, x) :: links') = row first links ++ token o :: row (some x) links' := by
  rw [row_append, row_none_cons]

variable {ops : List String}

theorem not_isOperatorIn_of_isOperandOrGroup {x : Item} (h : x.isOperandOrGroup) :
    x.isOperatorIn ops = false := by
  cases x with
  | group => rfl
  | token t =>
    rcases Token.kind_of_isOperand h with h | h <;>
      simp [isOperatorIn, token?, Token.isOperatorIn, h]

/-! ### Operators of other tiers -/

section Barrier

variable {b : Token} (hoperand : ¬ b.isOperand)

include hoperand

/-- Nothing is put together across a token that is no operand: what lies behind it stays. -/
theorem passFrom_append_passed (stack passed : List Passed) (fresh : Bool) (items : List Item) :
    passFrom ops (stack ++ ⟨token b, fresh⟩ :: passed) items =
      (passed.map Passed.item).reverse ++ token b :: passFrom ops stack items := by
  fun_induction passFrom ops stack items with
  | case1 left stack operator right items hguard ih =>
    rw [List.cons_append, passFrom, if_pos hguard]
    exact ih
  | case2 left stack operator right items hguard ih =>
    rw [List.cons_append, passFrom, if_neg hguard]
    exact ih
  | case3 stack item items hshort ih =>
    -- an operator directly behind the token has no left operand
    have hleft (operator : Item) : operator.takesLeft ⟨token b, fresh⟩ = false := by
      simp [takesLeft, isOperandOrGroup, hoperand]
    rw [← ih]
    rcases stack with _ | ⟨left, stack⟩ <;> rcases items with _ | ⟨right, items⟩
    · rfl
    · simp [passFrom, hleft]
    · rfl
    · exact (hshort left stack right items rfl rfl).elim
  | case4 stack => simp [passFrom]

/-- A pass on either side of a token that is neither an operand nor an operator of the tier. -/
theorem passFrom_append (hops : ¬ b.isOperatorIn ops) (passed : List Passed)
    (items rest : List Item) :
    passFrom ops passed (items ++ token b :: rest) =
      passFrom ops passed items ++ token b :: pass ops rest := by
  fun_induction passFrom ops passed items with
  | case1 left passed operator right items hguard ih =>
    rw [List.cons_append, List.cons_append, passFrom, if_pos hguard, ih]
  | case2 left passed operator right items hguard ih =>
    rw [List.cons_append, List.cons_append, passFrom, if_neg hguard]
    exact ih
  | case3 passed item items hshort ih =>
    rw [← ih]
    rcases passed with _ | ⟨left, passed⟩ <;> rcases items with _ | ⟨right, items⟩
    · rfl
    · rfl
    · -- the token is not the right operand of the last item
      simp [passFrom, isOperandOrGroup, hoperand]
    · exact (hshort left passed right items rfl rfl).elim
  | case4 passed =>
    have hskip : passFrom ops passed (token b :: rest) =
        passFrom ops (⟨token b, false⟩ :: passed) rest := by
      rcases passed with _ | ⟨left, passed⟩ <;> rcases rest with _ | ⟨right, rest⟩
      · rfl
      · rfl
      · rfl
      · simp [passFrom, isOperatorIn, token?, hops]
    rw [List.nil_append, hskip]
    exact passFrom_append_passed hoperand [] passed false rest

theorem pass_append (hops : ¬ b.isOperatorIn ops) (items rest : List Item) :
    pass ops (items ++ token b :: rest) = pass ops items ++ token b :: pass ops rest :=
  passFrom_append hoperand hops [] items rest

end Barrier

/-- Another pass does not change what is settled. -/
theorem settle_pass (items : List Item) : settle ops (pass ops items) = settle ops items := by
  conv_rhs => rw [settle]
  split
  case isTrue => rfl
  case isFalse h =>
    -- nothing was put together, so there is nothing left to do
    rw [pass_eq_self h, settle, if_neg h, pass_eq_self h]

theorem settle_eq_self {items : List Item} (h : pass ops items = items) :
    settle ops items = items := by
  rw [settle, h, if_neg (lt_irrefl _)]

/-- **A tier is settled on either side** of an operator of another tier. -/
theorem settle_append {b : Token} (hoperand : ¬ b.isOperand) (hops : ¬ b.isOperatorIn ops)
    (items rest : List Item) :
    settle ops (items ++ token b :: rest) = settle ops items ++ token b :: settle ops rest := by
  induction hlength : items.length + rest.length using Nat.strong_induction_on
    generalizing items rest with
  | _ n ih =>
    have hitems := length_pass_le ops items
    have hrest := length_pass_le ops rest
    rw [← settle_pass (items ++ token b :: rest), pass_append hoperand hops]
    by_cases hstays : pass ops items = items ∧ pass ops rest = rest
    · -- nothing to do on either side
      obtain ⟨hfront, hback⟩ := hstays
      have hall := pass_append hoperand hops items rest
      rw [hfront, hback] at hall ⊢
      rw [settle_eq_self hall, settle_eq_self hfront, settle_eq_self hback]
    · have hshorter : (pass ops items).length + (pass ops rest).length < n := by
        by_contra hnot
        exact hstays ⟨pass_eq_self (by omega), pass_eq_self (by omega)⟩
      rw [ih _ hshorter _ _ rfl, settle_pass, settle_pass]

@[simp] theorem settle_nil : settle ops [] = [] :=
  settle_eq_self rfl

@[simp] theorem settle_singleton (x : Item) : settle ops [x] = [x] :=
  settle_eq_self rfl

/-- Without an operator of the tier nothing is put together. -/
theorem settle_row_of_forall_not (x : Item) {links : Tail Item}
    (h : ∀ link ∈ links, ¬ link.1.isOperand ∧ ¬ link.1.isOperatorIn ops) :
    settle ops (row (some x) links) = row (some x) links := by
  induction links generalizing x with
  | nil => exact settle_singleton x
  | cons link links ih =>
    obtain ⟨⟨hoperand, hops⟩, hlinks⟩ := List.forall_mem_cons.1 h
    have happend := settle_append hoperand hops [x] (row (some link.2) links)
    rw [settle_singleton, ih link.2 hlinks] at happend
    exact happend

/-! ### A pass through a row of one layer -/

/-- What a pass makes of a row whose operators are all of its tier: its first item, and the rest.
The first operand may have been made by the pass, and then `+` and `*` leave it alone. -/
def passLinks (x : Item) (fresh : Bool) : Tail Item → Item × Tail Item
  | [] => (x, [])
  | (o, y) :: links =>
    if o.isOperatorIn ["+", "*"] && fresh then
      let later := passLinks y false links
      (x, (o, later.1) :: later.2)
    else passLinks (operation x (token o) y) true links

/-- The row holds operators of layer `k`, and everything else in it is as `P` says. -/
structure IsRow (P : Item → Prop) (k : Nat) (x : Item) (links : Tail Item) : Prop where
  first : P x
  links : ∀ link ∈ links, link.1.joins k ∧ P link.2

section Rows

variable {P : Item → Prop} {k : Nat} {x : Item} {links : Tail Item}

theorem isRow_cons {o : Token} {y : Item} :
    IsRow P k x ((o, y) :: links) ↔ P x ∧ o.joins k ∧ IsRow P k y links := by
  constructor
  · rintro ⟨hx, hlinks⟩
    obtain ⟨⟨ho, hy⟩, hlinks⟩ := List.forall_mem_cons.1 hlinks
    exact ⟨hx, ho, hy, hlinks⟩
  · rintro ⟨hx, ho, hy, hlinks⟩
    exact ⟨hx, List.forall_mem_cons.2 ⟨⟨ho, hy⟩, hlinks⟩⟩

/-- A pass keeps what operations keep. -/
theorem IsRow.passLinks
    (hP : ∀ l o r, P l → o.joins k → P r → P (operation l (token o) r)) (h : IsRow P k x links)
    (fresh : Bool) : IsRow P k (passLinks x fresh links).1 (passLinks x fresh links).2 := by
  fun_induction Item.passLinks x fresh links with
  | case1 => exact h
  | case2 x fresh o y links _ later ih =>
    obtain ⟨hx, ho, hlinks⟩ := isRow_cons.1 h
    exact isRow_cons.2 ⟨hx, ho, ih hlinks⟩
  | case3 x fresh o y links _ ih =>
    obtain ⟨hx, ho, hy, hlinks⟩ := isRow_cons.1 h
    exact ih ⟨hP x o y hx ho hy, hlinks⟩

theorem length_passLinks_le (x : Item) (fresh : Bool) (links : Tail Item) :
    (Item.passLinks x fresh links).2.length ≤ links.length := by
  fun_induction Item.passLinks x fresh links with
  | case1 => exact le_rfl
  | case2 x fresh o y links _ later ih => exact Nat.succ_le_succ ih
  | case3 x fresh o y links _ ih => exact ih.trans (Nat.le_succ _)

/-- The first two operands are put together. -/
theorem length_passLinks_lt (x : Item) (hne : links ≠ []) :
    (Item.passLinks x false links).2.length < links.length := by
  cases links with
  | nil => exact absurd rfl hne
  | cons link links =>
    rw [Item.passLinks, Bool.and_false, if_neg Bool.false_ne_true]
    exact Nat.lt_succ_of_le (length_passLinks_le _ _ _)

theorem passFrom_row (h : IsRow (fun x => x.isOperandOrGroup) k x links) (fresh : Bool)
    (passed : List Passed) :
    passFrom (layerOps k) (⟨x, fresh⟩ :: passed) (row none links) =
      (passed.map Passed.item).reverse ++
        row (some (Item.passLinks x fresh links).1) (Item.passLinks x fresh links).2 := by
  fun_induction Item.passLinks x fresh links generalizing passed with
  | case1 x fresh => simp [passFrom, row]
  | case2 x fresh o y links hskip later ih =>
    obtain ⟨hx, ho, hlinks⟩ := isRow_cons.1 h
    simp only [Bool.and_eq_true] at hskip
    -- the operator is passed, and behind it the operand, which is no operator
    have hoperator : ¬ (token o).takesLeft ⟨x, fresh⟩ := by
      simp [takesLeft, isOperatorIn, token?, hskip.1, hskip.2]
    have hoperand : passFrom (layerOps k) (⟨token o, false⟩ :: ⟨x, fresh⟩ :: passed)
        (y :: row none links) =
          passFrom (layerOps k) (⟨y, false⟩ :: ⟨token o, false⟩ :: ⟨x, fresh⟩ :: passed)
            (row none links) := by
      rcases row none links with _ | ⟨z, items⟩
      · rfl
      · simp [passFrom, not_isOperatorIn_of_isOperandOrGroup hlinks.first]
    rw [row_none_cons, row_some, passFrom, if_neg (by simp [hoperator]), hoperand, ih hlinks]
    simp [later, row]
  | case3 x fresh o y links htake ih =>
    -- the operator takes both operands, and the new item waits in place of the left one
    obtain ⟨hx, ho, hy, hlinks⟩ := isRow_cons.1 h
    have htier : (token o).isOperatorIn (layerOps k) := ho
    have hleft : (token o).takesLeft ⟨x, fresh⟩ := by
      rw [takesLeft, hx, Bool.true_and, Bool.not_eq_true']
      exact Bool.not_eq_true _ ▸ htake
    have hguard : ((token o).isOperatorIn (layerOps k) && (token o).takesLeft ⟨x, fresh⟩ &&
        y.isOperandOrGroup) = true := by rw [htier, hleft, hy]; rfl
    rw [row_none_cons, row_some, passFrom, if_pos hguard]
    exact ih ⟨rfl, hlinks⟩ passed

theorem pass_row (h : IsRow (fun x => x.isOperandOrGroup) k x links) :
    pass (layerOps k) (row (some x) links) =
      row (some (Item.passLinks x false links).1) (Item.passLinks x false links).2 := by
  have hrow := passFrom_row h false []
  rw [List.map_nil, List.reverse_nil, List.nil_append] at hrow
  rw [← hrow, pass, row_some, passFrom]
  simp

variable {K : Type*} [Field K] [DecidableEq K] {V : Valuation K}

/-- **A pass keeps the value of a row.** -/
theorem eval_passLinks (hlinks : ∀ link ∈ links, link.1.joins k) (x : Item) (fresh : Bool) :
    V.chained ((Item.passLinks x fresh links).1.eval V)
        ((Item.passLinks x fresh links).2.mapOperands (eval V)) =
      V.chained (x.eval V) (Tail.mapOperands (eval V) links) := by
  fun_induction Item.passLinks x fresh links with
  | case1 => rfl
  | case2 x fresh o y links hskip later ih =>
    obtain ⟨ho, hlinks⟩ := List.forall_mem_cons.1 hlinks
    simp only [Bool.and_eq_true] at hskip
    have hrow : IsRow (fun _ => True) k y links :=
      ⟨trivial, fun link hlink => ⟨hlinks link hlink, trivial⟩⟩
    have hlater : ∀ link ∈ later.2.mapOperands (eval V), link.1.joins k :=
      List.forall_mem_map.2 fun link hlink =>
        ((hrow.passLinks (fun _ _ _ _ _ _ => trivial) false).links link hlink).1
    have hbefore : ∀ link ∈ Tail.mapOperands (eval V) links, link.1.joins k :=
      List.forall_mem_map.2 hlinks
    -- the operator that is skipped can be carried out last, before and after the pass
    calc V.chained (x.eval V) (Tail.mapOperands (eval V) ((o, later.1) :: later.2))
        = V.chained (V.combine o.text (x.eval V) (later.1.eval V))
          (later.2.mapOperands (eval V)) := rfl
      _ = V.combine o.text (x.eval V) (V.chained (later.1.eval V) (later.2.mapOperands (eval V))) :=
        Valuation.chained_combine hskip.1 ho hlater _ _
      _ = V.combine o.text (x.eval V) (V.chained (y.eval V) (Tail.mapOperands (eval V) links)) := by
        rw [ih hlinks]
      _ = V.chained (V.combine o.text (x.eval V) (y.eval V)) (Tail.mapOperands (eval V) links) :=
        (Valuation.chained_combine hskip.1 ho hbefore _ _).symm
  | case3 x fresh o y links _ ih =>
    -- the operands that are grouped have the value of their operation
    obtain ⟨ho, hlinks⟩ := List.forall_mem_cons.1 hlinks
    rw [ih hlinks, eval_operation]
    rfl

/-- **A row of one layer ends in a single item**, of the right shape if its operands are, and with
the value of the row. -/
theorem exists_settle_row (h : IsRow (fun x => x.isOperandOrGroup) k x links) :
    ∃ z : Item, settle (layerOps k) (row (some x) links) = [z] ∧ z.isOperandOrGroup ∧
      (IsRow Formed k x links →
        z.Formed ∧ z.eval V = V.chained (x.eval V) (Tail.mapOperands (eval V) links)) := by
  induction hlength : links.length using Nat.strong_induction_on generalizing x links with
  | _ n ih =>
    by_cases hnil : links = []
    · subst hnil
      exact ⟨x, settle_singleton x, h.first, fun hformed => ⟨hformed.first, rfl⟩⟩
    · -- one pass, and then the row is shorter
      have hshorter := length_passLinks_lt x hnil
      obtain ⟨z, hz, hgroup, hformed⟩ :=
        ih _ (hlength ▸ hshorter) (h.passLinks (fun _ _ _ _ _ _ => rfl) false) rfl
      refine ⟨z, ?_, hgroup, fun hrow => ?_⟩
      · rw [← settle_pass, pass_row h, hz]
      · have hoperation (l : Item) (o : Token) (r : Item) (hl : l.Formed) (ho : o.joins k)
            (hr : r.Formed) : (operation l (token o) r).Formed :=
          .operation hl (Token.isArithmetic_of_joins ho) hr
        obtain ⟨hz, hvalue⟩ := hformed (hrow.passLinks hoperation false)
        have hjoins : ∀ link ∈ links, link.1.joins k := fun link hlink => (hrow.links link hlink).1
        exact ⟨hz, hvalue.trans (eval_passLinks hjoins x false)⟩

end Rows

end Item

end Formula
