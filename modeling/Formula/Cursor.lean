import Formula.Extent

/-!
# Cursors

A token list seen from one of its tokens: what stands before it, nearest first, the token itself,
and what stands behind it. The rules of simplification look at a list in this way, because what
they decide depends on the neighbours of a token and on the operands that reach up to it.

An `Edit` replaces tokens around the cursor by at most one token. It is given by how far it reaches
to either side, so that it can be carried out by dropping from both ends of the cursor.
-/

namespace Formula

/-- A place in a token list. -/
structure Cursor where
  /-- The tokens in front, the nearest first. -/
  before : List Token
  focus : Token
  /-- The tokens behind, the nearest first. -/
  after : List Token
  deriving DecidableEq, Repr

/-- The identities by which a formula is simplified. -/
inductive Rule where
  /-- A sign in front of a term gets a zero as its left operand. -/
  | unarySign
  | zeroExponent
  | zeroPower
  | multiplyByZero
  | zeroDividend
  | exponentOne
  | powerOfOne
  | identityFactor
  | identityTerm
  deriving DecidableEq, Repr

/-- The name of a rule in reports. -/
def Rule.name : Rule → String
  | .unarySign => "unary sign"
  | .zeroExponent => "zero exponent"
  | .zeroPower => "power of zero"
  | .multiplyByZero => "multiply by zero"
  | .zeroDividend => "zero dividend"
  | .exponentOne => "exponent one"
  | .powerOfOne => "power of one"
  | .identityFactor => "multiply or divide by one"
  | .identityTerm => "add or subtract zero"

/-- What a rule does at a cursor. -/
structure Edit where
  rule : Rule
  /-- How many tokens in front of the cursor are removed. -/
  back : Nat
  /-- How many tokens are removed from the cursor on. -/
  ahead : Nat
  /-- The token that takes their place, if any. -/
  insert : Option Token
  deriving DecidableEq, Repr

namespace Cursor

/-- The list that the cursor is a place in. -/
def toList (c : Cursor) : List Token :=
  c.before.reverse ++ c.focus :: c.after

/-- The index of the token in the list. -/
def index (c : Cursor) : Nat :=
  c.before.length

/-- The cursor at an index of a list. -/
def ofIndex? (tokens : List Token) (i : Nat) : Option Cursor :=
  match tokens.drop i with
  | [] => none
  | t :: after => some ⟨(tokens.take i).reverse, t, after⟩

/-- One of the operators in `ops` stands directly in front. -/
def isPrecededBy (c : Cursor) (ops : List String) : Bool :=
  c.before.head?.any (·.isOperatorIn ops)

/-- One of the operators in `ops` stands directly behind. -/
def isFollowedBy (c : Cursor) (ops : List String) : Bool :=
  c.after.head?.any (·.isOperatorIn ops)

theorem exists_of_isPrecededBy {c : Cursor} {ops : List String} (h : c.isPrecededBy ops) :
    ∃ o ts, c.before = o :: ts ∧ o.isOperatorIn ops := by
  cases hbefore : c.before with
  | nil => simp [isPrecededBy, hbefore] at h
  | cons o ts => exact ⟨o, ts, rfl, by simpa [isPrecededBy, hbefore] using h⟩

theorem exists_of_isFollowedBy {c : Cursor} {ops : List String} (h : c.isFollowedBy ops) :
    ∃ o ts, c.after = o :: ts ∧ o.isOperatorIn ops := by
  cases hafter : c.after with
  | nil => simp [isFollowedBy, hafter] at h
  | cons o ts => exact ⟨o, ts, rfl, by simpa [isFollowedBy, hafter] using h⟩

/-- Nothing or an opening bracket stands in front. -/
def isLeading (c : Cursor) : Bool :=
  c.before.head?.all Token.isOpen

/-- The number literal `text` at the place of the cursor's token. -/
def literal (c : Cursor) (text : String) : Token :=
  ⟨.number, text, c.focus.position⟩

/-- Carries out an edit. -/
def apply (c : Cursor) (e : Edit) : List Token :=
  (c.before.drop e.back).reverse ++ e.insert.toList ++ (c.focus :: c.after).drop e.ahead

/-- The index of the first token that an edit removes, and of the first one behind those. -/
def span (c : Cursor) (e : Edit) : Nat × Nat :=
  (c.index - e.back, c.index + e.ahead)

theorem ofIndex?_toList {tokens : List Token} {i : Nat} {c : Cursor}
    (h : ofIndex? tokens i = some c) : c.toList = tokens := by
  unfold ofIndex? at h
  split at h
  case h_1 => simp at h
  case h_2 t after hdrop =>
    obtain rfl := Option.some.inj h
    simp [toList, ← hdrop]

end Cursor

end Formula
