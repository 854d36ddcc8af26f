import Formula.Tier

/-!
# Chains of division and subtraction

Dividing by several things in a row is dividing once by their product, and subtracting several
things in a row is subtracting their sum once. A chain is such a row: an operator, the item behind
it, and at least one link, which is the same operator again and the item behind that. It is replaced
by its first operator and a bracketed group in which its items are joined by the `joiner`, `*` for
`/` and `+` for `-`. The new tokens have places of the formula: the brackets that of the first
operator, each joiner that of the operator that it replaces.

Any item may stand in a chain, whether or not it is an operand. An operator that ends the level has
no item behind it; such a link leaves nothing in the group.
-/

namespace Formula

/-- An operator of a chain after the first, and the item behind it unless the level ends there. -/
structure Link where
  operator : Token
  operand : Option Item
  deriving Repr

/-- A row of equal operators with the items behind them. -/
structure Chain where
  operator : Token
  operand : Item
  links : List Link
  deriving Repr

/-- A piece of a level. -/
inductive Segment where
  | single (item : Item)
  | chain (chain : Chain)
  deriving Repr

namespace Item

/-- The links for `op` at the front of a level, and the items behind them. -/
def links (op : String) : List Item → List Link × List Item
  | token t :: operand :: items =>
    if t.isOperator op then
      let (later, rest) := links op items
      (⟨t, some operand⟩ :: later, rest)
    else ([], token t :: operand :: items)
  | [token t] => if t.isOperator op then ([⟨t, none⟩], []) else ([], [token t])
  | items => ([], items)

theorem length_links_le (op : String) (items : List Item) :
    (links op items).2.length ≤ items.length := by
  fun_induction links op items with
  | case1 t operand items hop later rest hlinks ih =>
    simp only [hlinks, List.length_cons] at ih ⊢
    omega
  | _ => simp

/-- The chains of a level for the operator `op`, and the items that belong to none. The item behind
a single operator is not looked at as the start of a chain. -/
def segments (op : String) : List Item → List Segment
  | token t :: operand :: items =>
    if t.isOperator op then
      if (links op items).1.isEmpty then
        .single (token t) :: .single operand :: segments op items
      else .chain ⟨t, operand, (links op items).1⟩ :: segments op (links op items).2
    else .single (token t) :: segments op (operand :: items)
  | item :: items => .single item :: segments op items
  | [] => []
termination_by items => items.length
decreasing_by
  all_goals simp +arith
  exact Nat.le_succ_of_le (length_links_le op items)

end Item

namespace Chain

/-- The items that the operators of the chain stand in front of. -/
def operands (c : Chain) : List Item :=
  c.operand :: c.links.filterMap Link.operand

/-- The items of the chain with `joiner` between them. -/
def joined (c : Chain) (joiner : String) : List Item :=
  c.operand :: c.links.flatMap fun link =>
    match link.operand with
    | some operand => [.token ⟨.operator, joiner, link.operator.position⟩, operand]
    | none => []

end Chain

/-- The items that take the place of a piece of a level. -/
def Segment.items (joiner : String) : Segment → List Item
  | .single item => [item]
  | .chain c =>
    [.token c.operator, .bracketed c.operator.position (Item.settleTiers (c.joined joiner))]

/-- Replaces the chains of `op` on a level. -/
def Item.joinChains (op joiner : String) (items : List Item) : List Item :=
  (segments op items).flatMap (Segment.items joiner)

end Formula
