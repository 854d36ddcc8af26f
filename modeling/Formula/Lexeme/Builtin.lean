import Formula.Lexeme.Trie
import Formula.Token

/-!
# The lexemes of a formula

The words with a fixed meaning: three function names, five operators and the round brackets.
Everything else in a formula is a variable, a number or an error.
-/

namespace Formula

/-- The fixed lexemes and their kinds. -/
def builtinLexemes : List (String × Kind) :=
  [("sin", .function), ("cos", .function), ("tan", .function),
    ("+", .operator), ("-", .operator), ("*", .operator), ("/", .operator), ("^", .operator),
    ("(", .openBracket), (")", .closeBracket)]

/-- The table by which a formula is read unless another one is given. Tables of another kind with
the same entries lead to the same items. -/
def builtinTable : Trie Kind :=
  .ofList builtinLexemes

end Formula
