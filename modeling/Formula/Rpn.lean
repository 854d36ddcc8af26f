import Formula.Token

/-!
# Reverse Polish notation

Ordering the tokens of a formula so that each function and operator stands behind its operands, by
the shunting-yard method: operands pass, functions and operators wait on a stack. A waiting token
goes out when one arrives that does not bind tighter, so every operator associates to the left. An
opening bracket waits too, and holds back what lies below it until its partner comes.

The method takes any token list. A closing bracket without a partner lets everything out that
waits, and an opening one without a partner is dropped at the end.
-/

namespace Formula

/-- How tightly a token binds its operands. Brackets and operands do not. -/
def Token.precedence (t : Token) : Nat :=
  match t.kind with
  | .function => 4
  | .operator =>
    if t.text = "^" then 3
    else if t.text = "*" ∨ t.text = "/" then 2
    else 1
  | _ => 0

/-- The order of the tokens still to come, behind those that wait, the last to come first out. -/
def toRpnFrom (waiting : List Token) : List Token → List Token
  | [] => waiting.filter (!·.isOpen)
  | t :: tokens =>
    match t.kind with
    | .number | .variable => t :: toRpnFrom waiting tokens
    | .openBracket => toRpnFrom (t :: waiting) tokens
    | .closeBracket =>
      waiting.takeWhile (!·.isOpen) ++ toRpnFrom (waiting.dropWhile (!·.isOpen)).tail tokens
    | .function | .operator =>
      let goesFirst (other : Token) : Bool := t.precedence ≤ other.precedence
      waiting.takeWhile goesFirst ++ toRpnFrom (t :: waiting.dropWhile goesFirst) tokens

/-- The tokens of a formula in reverse Polish notation. -/
def toRpn (tokens : List Token) : List Token :=
  toRpnFrom [] tokens

end Formula
