import Formula.Lexer
import Formula.Nesting
import Formula.Rpn
import Formula.Simplify
import Formula.Structure
import Formula.Tree

/-!
# Analysis

From a text to an expression tree, keeping what each stage made of it: the text is read as tokens,
checked, simplified, regrouped and written out again without chains of division or subtraction, put
into reverse Polish notation, and built into a tree.

Lexical and structural errors are all collected before they end the analysis. A division by the
literal `0` ends it as soon as it is met.
-/

namespace Formula

/-- Why a formula has no analysis. -/
inductive AnalysisError where
  | rejected (found : Diagnostics)
  | divisionByZero (error : DivisionByZero)
  | tree (error : TreeError)
  deriving DecidableEq, Repr

def AnalysisError.message : AnalysisError → String
  | .rejected found =>
    "the expression has " ++ toString found.size ++ " error(s):\n" ++ found.display
  | .divisionByZero error => error.message
  | .tree error => error.message

/-- A formula after each stage. -/
structure Analysis where
  /-- The text without blanks at its ends. -/
  source : String
  tokens : List Token
  simplified : List Token
  /-- The simplified tokens with chains of division and subtraction bracketed. -/
  normalized : List Token
  /-- The normalized tokens in reverse Polish notation. -/
  rpn : List Token
  tree : Tree
  deriving DecidableEq, Repr

namespace Analysis

def simplifiedText (a : Analysis) : String :=
  Token.join a.simplified ""

def rpnText (a : Analysis) : String :=
  Token.join a.rpn " "

end Analysis

/-- The tokens with chains of division and subtraction bracketed. -/
def normalize (tokens : List Token) : List Token :=
  Item.flatten (group tokens)

/-- The tokens of a text and everything that is wrong with it. -/
def diagnose (s : String) : List Token × Diagnostics :=
  let lexing := tokenize s
  (lexing.tokens, ⟨lexing.errors, validate lexing.tokens⟩)

/-- The analysis of a text. -/
def analyze (s : String) : Except AnalysisError Analysis :=
  let source := String.ofList (Text.trim s.toList)
  let (tokens, found) := diagnose source
  if found.isEmpty then
    match simplify tokens with
    | .error error => .error (.divisionByZero error)
    | .ok simplified =>
      let normalized := normalize simplified
      let rpn := toRpn normalized
      match Tree.ofRpn rpn with
      | .error error => .error (.tree error)
      | .ok tree => .ok ⟨source, tokens, simplified, normalized, rpn, tree⟩
  else .error (.rejected found)

end Formula
