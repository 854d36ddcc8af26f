/-!
# Diagnostics

What can be wrong with a formula, and the words in which it is reported.

* `LexicalError` — a text without lexemes, or a character that starts none;
* `StructuralError` — a `Fault` in the order of the tokens, and the place it is reported at;
* `Diagnostics` — everything found in one formula, reported together;
* `DivisionByZero` — a division by the literal `0`, which ends the analysis;
* `TreeError` — a token list that is no expression in reverse Polish notation.
-/

namespace Formula

/-! ### Errors in the text -/

/-- What keeps a text from being a list of tokens. -/
inductive LexicalError where
  /-- The text holds nothing but blanks. -/
  | empty
  /-- A character that starts no lexeme, and its place. -/
  | unexpectedChar (character : Char) (position : Nat)
  deriving DecidableEq, Repr

def LexicalError.message : LexicalError → String
  | .empty => "the expression is empty"
  | .unexpectedChar character position =>
    "lexical error at position " ++ toString position ++ ": unexpected character '" ++
      String.singleton character ++ "'"

/-! ### Errors in the order of the tokens -/

/-- The ways in which a token list fails to be an expression. -/
inductive Fault where
  | invalidStart (lexeme : String)
  | trailingOperator (lexeme : String)
  | trailingOpenBracket
  | trailingFunction (lexeme : String)
  | missingOperator (left right : String)
  | missingFunctionBracket (function : String)
  | consecutiveOperators (first second : String)
  | operatorAfterOpenBracket (operator : String)
  | missingOperatorBeforeBracket (operand : String)
  | operatorBeforeCloseBracket (operator : String)
  | missingOperatorAfterBracket (lexeme : String)
  | emptyBrackets
  | missingOperatorBetweenBrackets
  | unexpectedCloseBracket
  | unclosedBracket
  deriving DecidableEq, Repr

def Fault.message : Fault → String
  | .invalidStart lexeme => "the expression cannot start with '" ++ lexeme ++ "'"
  | .trailingOperator lexeme => "the expression cannot end with operator '" ++ lexeme ++ "'"
  | .trailingOpenBracket => "the expression cannot end with an opening bracket"
  | .trailingFunction lexeme => "the expression cannot end with function '" ++ lexeme ++ "'"
  | .missingOperator left right =>
    "missing operator between '" ++ left ++ "' and '" ++ right ++ "'"
  | .missingFunctionBracket function => "function '" ++ function ++ "' must be followed by '('"
  | .consecutiveOperators first second => "consecutive operators '" ++ first ++ second ++ "'"
  | .operatorAfterOpenBracket operator =>
    "operator '" ++ operator ++ "' cannot follow an opening bracket"
  | .missingOperatorBeforeBracket operand =>
    "missing operator between '" ++ operand ++ "' and '('"
  | .operatorBeforeCloseBracket operator =>
    "operator '" ++ operator ++ "' cannot precede a closing bracket"
  | .missingOperatorAfterBracket lexeme => "missing operator between ')' and '" ++ lexeme ++ "'"
  | .emptyBrackets => "brackets contain no expression"
  | .missingOperatorBetweenBrackets => "missing operator between ')' and '('"
  | .unexpectedCloseBracket => "extra closing bracket"
  | .unclosedBracket => "no matching closing bracket"

/-- A fault and the place it is reported at. -/
structure StructuralError where
  fault : Fault
  position : Nat
  deriving DecidableEq, Repr

def StructuralError.message (error : StructuralError) : String :=
  "error at position " ++ toString error.position ++ ": " ++ error.fault.message

/-! ### All errors of a formula -/

/-- The errors of one formula, each kind in the order of its discovery. -/
structure Diagnostics where
  lexical : List LexicalError
  structural : List StructuralError
  deriving DecidableEq, Repr

namespace Diagnostics

def isEmpty (found : Diagnostics) : Bool :=
  found.lexical.isEmpty && found.structural.isEmpty

/-- The number of errors of either kind. -/
def size (found : Diagnostics) : Nat :=
  found.lexical.length + found.structural.length

/-- What each error says, the lexical ones first. -/
def messages (found : Diagnostics) : List String :=
  found.lexical.map LexicalError.message ++ found.structural.map StructuralError.message

/-- One line for each error. -/
def display (found : Diagnostics) : String :=
  "\n".intercalate (found.messages.map ("- " ++ ·))

theorem size_eq_length_messages (found : Diagnostics) : found.size = found.messages.length := by
  simp [size, messages]

theorem isEmpty_iff_size_eq_zero (found : Diagnostics) : found.isEmpty ↔ found.size = 0 := by
  simp [isEmpty, size]

end Diagnostics

/-! ### Errors of the later stages -/

/-- A division by the literal `0`, at the place of its operator. -/
structure DivisionByZero where
  position : Nat
  deriving DecidableEq, Repr

def DivisionByZero.message (error : DivisionByZero) : String :=
  "division by zero at position " ++ toString error.position

/-- What keeps a token list from being an expression in reverse Polish notation. -/
inductive TreeError where
  /-- There is no token. -/
  | empty
  /-- A function or an operator comes before its operands. -/
  | missingOperand (lexeme : String) (position : Nat)
  | unexpectedBracket (lexeme : String) (position : Nat)
  /-- More than one operand is left at the end. -/
  | leftover (count : Nat)
  deriving DecidableEq, Repr

def TreeError.message : TreeError → String
  | .empty => "cannot build a tree from an empty postfix sequence"
  | .missingOperand lexeme position =>
    "'" ++ lexeme ++ "' at position " ++ toString position ++ " is missing an operand"
  | .unexpectedBracket lexeme position =>
    "unexpected bracket '" ++ lexeme ++ "' at position " ++ toString position ++
      " in postfix sequence"
  | .leftover count => toString count ++ " operands were left without an operator"

end Formula
