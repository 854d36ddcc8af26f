import Formula.Item

/-!
# Tiers of precedence

Operators that bind equally tightly form a tier: `^`, then `*` and `/`, then `+` and `-`. The items
of one level are paired up tier by tier.

A pass goes through a level from left to right and makes a group of each operator of the tier that
has an operand on either side. What was just grouped can be the left operand of the next operator,
except that `+` and `*` leave it alone and pair up what follows: a chain of them becomes a tree of
little depth. Passes are repeated until one of them groups nothing. Each group takes three items
away and puts one there, so a pass that groups something makes the level shorter
(`length_pass_le`), and that is how its effect is seen.
-/

namespace Formula

/-- Operators that bind equally tightly. -/
inductive Tier where
  | power
  | product
  | sum
  deriving DecidableEq, Repr

/-- The operators of a tier. -/
def Tier.ops : Tier → List String
  | .power => ["^"]
  | .product => ["*", "/"]
  | .sum => ["+", "-"]

namespace Item

/-- An item to the left of the place that a pass has come to, and whether this pass made it. -/
structure Passed where
  item : Item
  fresh : Bool
  deriving Repr

/-- Whether an operator may take what lies directly behind it for its left operand. -/
def takesLeft (operator : Item) (left : Passed) : Bool :=
  left.item.isOperandOrGroup && !(operator.isOperatorIn ["+", "*"] && left.fresh)

/-- Goes on with a pass: `passed` is what lies behind, the last item first. -/
def passFrom (ops : List String) : (passed : List Passed) → List Item → List Item
  | left :: passed, operator :: right :: items =>
    if operator.isOperatorIn ops && operator.takesLeft left && right.isOperandOrGroup then
      passFrom ops (⟨operation left.item operator right, true⟩ :: passed) items
    else passFrom ops (⟨operator, false⟩ :: left :: passed) (right :: items)
  | passed, item :: items => passFrom ops (⟨item, false⟩ :: passed) items
  | passed, [] => (passed.map Passed.item).reverse

/-- One pass through a level for the operators in `ops`. -/
def pass (ops : List String) (items : List Item) : List Item :=
  passFrom ops [] items

/-- Passes until one of them groups nothing. -/
def settle (ops : List String) (items : List Item) : List Item :=
  let next := pass ops items
  if next.length < items.length then settle ops next else next
termination_by items.length

/-- How many passes it takes to settle a level, the one that groups nothing included. -/
def passes (ops : List String) (items : List Item) : Nat :=
  let next := pass ops items
  if next.length < items.length then passes ops next + 1 else 1
termination_by items.length

/-- Settles the tiers one after the other, the one that binds tightest first. -/
def settleTiers (items : List Item) : List Item :=
  settle Tier.sum.ops (settle Tier.product.ops (settle Tier.power.ops items))

theorem length_passFrom_le (ops : List String) (passed : List Passed) (items : List Item) :
    (passFrom ops passed items).length ≤ passed.length + items.length := by
  fun_induction passFrom ops passed items with
  | case4 => simp
  | _ =>
    rename_i ih
    simp only [List.length_cons] at ih ⊢
    omega

/-- A pass makes no level longer. -/
theorem length_pass_le (ops : List String) (items : List Item) :
    (pass ops items).length ≤ items.length := by
  simpa [pass] using length_passFrom_le ops [] items

end Item

end Formula
