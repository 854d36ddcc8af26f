/-!
# Tokens

A formula is read as a list of tokens. A token is a piece of the text together with its kind and
the place where it stands, counted in bytes from the start of the formula.

The kind is all that the structure of a formula depends on; the text is looked at only to tell one
operator from another and to recognise the literals `0` and `1`. The predicates below are the
questions that the stages of the analysis ask about a token.
-/

namespace Formula

/-- What part a token plays in a formula. -/
inductive Kind where
  /-- The name of a function, to be followed by its bracketed argument. -/
  | function
  /-- The name of a variable. -/
  | variable
  /-- A decimal literal. -/
  | number
  /-- A binary operator; `+` and `-` may also stand as a sign. -/
  | operator
  | openBracket
  | closeBracket
  deriving DecidableEq, Repr, Inhabited

/-- A lexeme, its kind and its place in the formula. -/
structure Token where
  kind : Kind
  text : String
  /-- Bytes of the formula in front of the lexeme. -/
  position : Nat
  deriving DecidableEq, Repr, Inhabited

namespace Token

instance : ToString Token := ⟨Token.text⟩

/-! ### What a token can be -/

/-- A number or a variable. -/
def isOperand (t : Token) : Bool :=
  t.kind == .number || t.kind == .variable

/-- A token that starts an operand: a number, a variable or a function name. -/
def isOperandLike (t : Token) : Bool :=
  t.isOperand || t.kind == .function

/-- The operator written `op`. -/
def isOperator (t : Token) (op : String) : Bool :=
  t.kind == .operator && t.text == op

/-- One of the operators in `ops`. -/
def isOperatorIn (t : Token) (ops : List String) : Bool :=
  t.kind == .operator && ops.contains t.text

/-- A sign in front of an operand: `+` or `-`. -/
def isSign (t : Token) : Bool :=
  t.isOperatorIn ["+", "-"]

/-- An operator that needs an operand in front, which is every one but the signs. -/
def isBinaryOnlyOperator (t : Token) : Bool :=
  t.kind == .operator && !t.isSign

/-- The number written `literal`. -/
def isNumber (t : Token) (literal : String) : Bool :=
  t.kind == .number && t.text == literal

def isOpen (t : Token) : Bool :=
  t.kind == .openBracket

def isClose (t : Token) : Bool :=
  t.kind == .closeBracket

theorem isOperatorIn_singleton (t : Token) (op : String) :
    t.isOperatorIn [op] = t.isOperator op := by
  rw [Bool.eq_iff_iff]
  simp [isOperatorIn, isOperator]

theorem isOperatorIn_pair (t : Token) (op op' : String) :
    t.isOperatorIn [op, op'] ↔ t.isOperator op ∨ t.isOperator op' := by
  simp [isOperatorIn, isOperator, ← and_or_left]

/-- An operator that is known is in no list but those that name it. -/
theorem isOperatorIn_of_isOperator {t : Token} {op : String} (h : t.isOperator op)
    (ops : List String) : t.isOperatorIn ops = ops.contains op := by
  simp only [isOperator, Bool.and_eq_true, beq_iff_eq] at h
  simp [isOperatorIn, h.1, h.2]

theorem kind_of_isNumber {t : Token} {literal : String} (h : t.isNumber literal) :
    t.kind = .number := by
  simp only [isNumber, Bool.and_eq_true, beq_iff_eq] at h
  exact h.1

theorem not_isOpen_of_number {t : Token} (h : t.kind = .number) : ¬ t.isOpen := by
  simp [isOpen, h]

/-- No token opens a bracket and closes one. -/
theorem not_isClose_of_isOpen {t : Token} (h : t.isOpen) : ¬ t.isClose := by
  simp_all [isOpen, isClose]

/-! ### Text of a token list -/

/-- The texts of the tokens, in order, with `separator` between neighbours. -/
def join (tokens : List Token) (separator : String) : String :=
  separator.intercalate (tokens.map Token.text)

@[simp] theorem join_nil (separator : String) : join [] separator = "" := rfl

end Token

end Formula
