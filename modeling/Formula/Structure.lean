import Formula.Bracket
import Formula.Diagnostics

/-!
# The structure of a formula

Whether a token list is an expression, and if not, why. The check looks at the first token, at the
last one, at every pair of neighbours and at the balance of the brackets; each look reports the
faults that it sees, so one list may be reported for several. The order of the reports is the order
of these looks, and within the look at pairs the order of the list.
-/

namespace Formula

/-- A report of `fault` at `position` if `condition` holds. -/
def report (condition : Bool) (fault : Fault) (position : Nat) : List StructuralError :=
  if condition then [⟨fault, position⟩] else []

@[simp] theorem report_false (fault : Fault) (position : Nat) : report false fault position = [] :=
  rfl

theorem report_eq_nil_iff {condition : Bool} {fault : Fault} {position : Nat} :
    report condition fault position = [] ↔ condition = false := by
  cases condition <;> simp [report]

/-- What is wrong with the first token of a list: an operator that is no sign, or a closing
bracket. -/
def startErrors (first : Token) : List StructuralError :=
  report (first.isBinaryOnlyOperator || first.isClose) (.invalidStart first.text) first.position

/-- What is wrong with the last token of a list: anything that has to be followed by something. -/
def endErrors (last : Token) : List StructuralError :=
  match last.kind with
  | .operator => [⟨.trailingOperator last.text, last.position⟩]
  | .openBracket => [⟨.trailingOpenBracket, last.position⟩]
  | .function => [⟨.trailingFunction last.text, last.position⟩]
  | _ => []

/-- What is wrong with two neighbours. The place reported is that of the second one, except for an
operator in front of a closing bracket, where the operator is at fault. -/
def pairErrors (first second : Token) : List StructuralError :=
  report (first.isOperandLike && second.isOperandLike)
      (.missingOperator first.text second.text) second.position ++
    report (first.kind == .function && !second.isOpen)
      (.missingFunctionBracket first.text) second.position ++
    report (first.kind == .operator && second.kind == .operator)
      (.consecutiveOperators first.text second.text) second.position ++
    report (first.isOpen && second.isBinaryOnlyOperator)
      (.operatorAfterOpenBracket second.text) second.position ++
    report (first.isOperand && second.isOpen)
      (.missingOperatorBeforeBracket first.text) second.position ++
    report (first.kind == .operator && second.isClose)
      (.operatorBeforeCloseBracket first.text) first.position ++
    report (first.isClose && second.isOperandLike)
      (.missingOperatorAfterBracket second.text) second.position ++
    report (first.isOpen && second.isClose) .emptyBrackets second.position ++
    report (first.isClose && second.isOpen) .missingOperatorBetweenBrackets second.position

/-- What is wrong with the neighbours in a list. -/
def neighbourErrors : List Token → List StructuralError
  | first :: second :: tokens => pairErrors first second ++ neighbourErrors (second :: tokens)
  | _ => []

/-- A report for each bracket without a partner: the closing ones in order, then the opening ones,
the innermost first. -/
def balanceErrors (tokens : List Token) : List StructuralError :=
  let lone := unmatched Token.kind [] tokens
  lone.closing.map (fun t => ⟨.unexpectedCloseBracket, t.position⟩) ++
    lone.opening.map (fun t => ⟨.unclosedBracket, t.position⟩)

/-- Everything that keeps a token list from being an expression. An empty list is not reported. -/
def validate : List Token → List StructuralError
  | [] => []
  | first :: tokens =>
    startErrors first ++ endErrors ((first :: tokens).getLast (List.cons_ne_nil first tokens)) ++
      neighbourErrors (first :: tokens) ++ balanceErrors (first :: tokens)

@[simp] theorem validate_nil : validate [] = [] := rfl

end Formula
