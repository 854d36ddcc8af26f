import Formula.Text

/-!
# Lexeme tables

A lexeme table maps words to values and is asked one question: of the words that the text at hand
starts with, which is the longest? Several containers can answer it, so the question is a class.
An answer counts at least one character and no more than the text has, which is what makes a reader
that advances by the answer come to an end.
-/

namespace Formula

universe u v

/-- A table that finds the longest of its words in front of a text. -/
class LexemeTable (T : Type u) (V : outParam (Type v)) where
  /-- The length in characters of the longest word that the text starts with, and its value. -/
  longest? : T → List Char → Option (Nat × V)
  /-- **Progress.** A match takes something, and no more than there is. -/
  longest?_bounds : ∀ {table : T} {text : List Char} {found : Nat × V},
    longest? table text = some found → 0 < found.1 ∧ found.1 ≤ text.length

/-- The size in bytes of the longest word that the string starts with, and its value. -/
def LexemeTable.match? {T : Type u} {V : Type v} [LexemeTable T V] (table : T) (s : String) :
    Option (Nat × V) :=
  (longest? table s.toList).map fun found => (Text.byteSize (s.toList.take found.1), found.2)

end Formula
