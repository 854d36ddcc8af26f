import Formula.Token

/-!
# Items

A formula partly put together: each item is a token that still stands alone or a group that already
belongs together. A group is what is written in brackets, or the argument of a function, or an
operator with its two operands; only the last of these has nothing written around it.

`flatten` takes all groups apart again. It keeps one list of what is still to be written and puts
the contents of a group, and its closing bracket behind them, at the front of that list, so that
groups nested to any depth need no more of the call stack than flat ones.
-/

namespace Formula

/-- What is written around a group. -/
inductive Bounds where
  /-- Nothing: the group was made by the precedence of its operator. -/
  | implicit
  /-- A pair of brackets. -/
  | brackets (opening closing : Token)
  /-- A function name and the brackets around its argument. -/
  | call (function opening closing : Token)
  deriving DecidableEq, Repr

namespace Bounds

/-- What is written in front of the contents. -/
def front : Bounds → List Token
  | implicit => []
  | brackets opening _ => [opening]
  | call function opening _ => [function, opening]

/-- What is written behind the contents. -/
def back : Bounds → List Token
  | implicit => []
  | brackets _ closing | call _ _ closing => [closing]

theorem length_back_le (b : Bounds) : b.back.length ≤ 1 := by
  cases b <;> simp [back]

end Bounds

/-- A token or a group of items. -/
inductive Item where
  | token (t : Token)
  | group (bounds : Bounds) (items : List Item)
  deriving Repr, Inhabited

namespace Item

/-- The token, if the item is one. -/
def token? : Item → Option Token
  | token t => some t
  | group _ _ => none

/-- Something that an operator can take for an operand. -/
def isOperandOrGroup : Item → Bool
  | token t => t.isOperand
  | group _ _ => true

/-- A token that is one of the operators in `ops`. -/
def isOperatorIn (item : Item) (ops : List String) : Bool :=
  item.token?.any (·.isOperatorIn ops)

/-- An operator between its two operands, as a group. -/
def operation (left operator right : Item) : Item :=
  group .implicit [left, operator, right]

/-- A group in brackets that are not written in the formula, as if they stood at `position`. -/
def bracketed (position : Nat) (items : List Item) : Item :=
  group (.brackets ⟨.openBracket, "(", position⟩ ⟨.closeBracket, ")", position⟩) items

/-! ### Taking groups apart -/

mutual

/-- A measure of the work that it takes to write an item. -/
def weight : Item → Nat
  | token _ => 1
  | group _ items => weightAll items + 2

/-- A measure of the work that it takes to write a list of items. -/
def weightAll : List Item → Nat
  | [] => 0
  | item :: items => item.weight + weightAll items

end

@[simp] theorem weightAll_append (front back : List Item) :
    weightAll (front ++ back) = weightAll front + weightAll back := by
  induction front with
  | nil => simp [weightAll]
  | cons item front ih =>
    simp only [List.cons_append, weightAll, ih]
    omega

@[simp] theorem weightAll_map_token (tokens : List Token) :
    weightAll (tokens.map token) = tokens.length := by
  induction tokens with
  | nil => rfl
  | cons t tokens ih =>
    simp only [List.map_cons, weightAll, weight, ih, List.length_cons]
    omega

/-- The tokens of the items, in order, with what is written around each group. -/
def flatten : List Item → List Token
  | [] => []
  | token t :: items => t :: flatten items
  | group bounds contents :: items =>
    bounds.front ++ flatten (contents ++ (bounds.back.map token ++ items))
termination_by items => weightAll items
decreasing_by
  · simp [weightAll, weight]
  · have := bounds.length_back_le
    simp only [weightAll_append, weightAll_map_token, weightAll, weight]
    omega

@[simp] theorem flatten_nil : flatten [] = [] := by
  simp [flatten]

@[simp] theorem flatten_token (t : Token) (items : List Item) :
    flatten (token t :: items) = t :: flatten items := by
  rw [flatten]

theorem flatten_group (bounds : Bounds) (contents items : List Item) :
    flatten (group bounds contents :: items) =
      bounds.front ++ flatten (contents ++ (bounds.back.map token ++ items)) := by
  rw [flatten]

end Item

end Formula
