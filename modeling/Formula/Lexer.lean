import Formula.Diagnostics
import Formula.Lexeme.Builtin
import Formula.Text

/-!
# The lexer

Reading a text as tokens. At each point the lexer skips blanks and then takes

* the longest word of its table, if one stands there, with the kind that the table gives it;
* otherwise the longest identifier, as a variable;
* otherwise the longest number;
* otherwise one character, reported as an error.

So every character that is not blank ends up in exactly one item, and an item is never empty
(`lexeme?_bounds`): the lexer comes to an end on every text, with every table.
-/

namespace Formula

universe u

/-! ### Lexemes at the start of a text -/

/-- A character that an identifier can start with. -/
def startsIdentifier (c : Char) : Bool :=
  c.isAlpha || c == '_'

/-- A character that an identifier can go on with. -/
def continuesIdentifier (c : Char) : Bool :=
  c.isAlphanum || c == '_'

/-- The length of the identifier that the text starts with, `0` if there is none. Identifiers are
ASCII: a letter or an underscore, then letters, digits and underscores. -/
def identifierLength : List Char → Nat
  | [] => 0
  | c :: text =>
    if startsIdentifier c then 1 + (text.takeWhile continuesIdentifier).length else 0

/-- The length of the number that the text starts with, `0` if there is none. A number is a run of
digits, and a point with another run of digits behind it if both are there. -/
def numberLength (text : List Char) : Nat :=
  let whole := (text.takeWhile Char.isDigit).length
  match text.drop whole with
  | '.' :: rest =>
    let fraction := (rest.takeWhile Char.isDigit).length
    if whole = 0 ∨ fraction = 0 then whole else whole + 1 + fraction
  | _ => whole

theorem identifierLength_le (text : List Char) : identifierLength text ≤ text.length := by
  cases text with
  | nil => simp [identifierLength]
  | cons c text =>
    have := (List.takeWhile_prefix (l := text) continuesIdentifier).length_le
    simp only [identifierLength, List.length_cons]
    split <;> omega

theorem numberLength_le (text : List Char) : numberLength text ≤ text.length := by
  have hwhole := (List.takeWhile_prefix (l := text) Char.isDigit).length_le
  simp only [numberLength]
  split
  case h_1 rest hrest =>
    have hfraction := (List.takeWhile_prefix (l := rest) Char.isDigit).length_le
    have hlength := congrArg List.length hrest
    simp only [List.length_drop, List.length_cons] at hlength
    split <;> omega
  case h_2 => exact hwhole

section Reading

variable {T : Type u} [LexemeTable T Kind]

/-- The lexeme that the text starts with: its length in characters and its kind. -/
def lexeme? (table : T) (text : List Char) : Option (Nat × Kind) :=
  match LexemeTable.longest? table text with
  | some found => some found
  | none =>
    if 0 < identifierLength text then some (identifierLength text, .variable)
    else if 0 < numberLength text then some (numberLength text, .number)
    else none

theorem lexeme?_bounds {table : T} {text : List Char} {found : Nat × Kind}
    (h : lexeme? table text = some found) : 0 < found.1 ∧ found.1 ≤ text.length := by
  unfold lexeme? at h
  split at h
  case h_1 found' hfound =>
    obtain rfl := Option.some.inj h
    exact LexemeTable.longest?_bounds hfound
  case h_2 =>
    split at h
    case isTrue hpos =>
      obtain rfl := Option.some.inj h
      exact ⟨hpos, identifierLength_le text⟩
    case isFalse =>
      split at h
      case isTrue hpos =>
        obtain rfl := Option.some.inj h
        exact ⟨hpos, numberLength_le text⟩
      case isFalse => simp at h

end Reading

/-! ### Reading item by item -/

/-- A text partly read: the table in use, what is left, and the bytes already behind. -/
structure Lexer (T : Type u) where
  table : T
  rest : List Char
  position : Nat

namespace Lexer

/-- A lexer at the start of a text. -/
def ofString {T : Type u} (table : T) (s : String) : Lexer T :=
  ⟨table, s.toList, 0⟩

variable {T : Type u}

/-- Passes over the next `n` characters. -/
def advance (lexer : Lexer T) (n : Nat) : Lexer T :=
  { lexer with
    rest := lexer.rest.drop n
    position := lexer.position + Text.byteSize (lexer.rest.take n) }

/-- Passes over the blanks in front of the next item. -/
def skipBlanks (lexer : Lexer T) : Lexer T :=
  lexer.advance (lexer.rest.takeWhile Text.isBlank).length

/-- The bytes not yet read, which bound the number of items still to come. -/
def remaining (lexer : Lexer T) : Nat :=
  Text.byteSize lexer.rest

theorem skipBlanks_rest (lexer : Lexer T) : lexer.skipBlanks.rest = Text.trimStart lexer.rest := by
  have h : (lexer.rest.takeWhile Text.isBlank ++ lexer.rest.dropWhile Text.isBlank).drop
      (lexer.rest.takeWhile Text.isBlank).length = lexer.rest.dropWhile Text.isBlank :=
    List.drop_left
  rwa [List.takeWhile_append_dropWhile] at h

variable [LexemeTable T Kind]

/-- The next item, a token or an error, and the lexer behind it. At the end of the text there is
none, now and whenever asked again. -/
def next (lexer : Lexer T) : Option (Except LexicalError Token) × Lexer T :=
  let lexer := lexer.skipBlanks
  match lexer.rest, lexeme? lexer.table lexer.rest with
  | text, some (n, kind) =>
    (some (.ok ⟨kind, String.ofList (text.take n), lexer.position⟩), lexer.advance n)
  | c :: _, none => (some (.error (.unexpectedChar c lexer.position)), lexer.advance 1)
  | [], none => (none, lexer)

/-- **Progress.** Every item takes something from the text. -/
theorem next_rest_length_lt {lexer later : Lexer T} {item : Except LexicalError Token}
    (h : lexer.next = (some item, later)) : later.rest.length < lexer.rest.length := by
  -- blanks are passed over first, and that does not lengthen the text
  have hskip : lexer.skipBlanks.rest.length ≤ lexer.rest.length := by
    rw [skipBlanks_rest]
    exact Text.trimStart_length_le _
  simp only [next] at h
  split at h
  case h_1 n kind hlexeme =>
    -- a lexeme has at least one character
    obtain ⟨hpos, hle⟩ := lexeme?_bounds hlexeme
    obtain ⟨-, rfl⟩ := Prod.mk.inj h
    simp only [advance, List.length_drop]
    omega
  case h_2 c text hrest _ =>
    -- an error passes over a single character
    obtain ⟨-, rfl⟩ := Prod.mk.inj h
    simp only [advance, List.length_drop]
    rw [hrest, List.length_cons] at hskip ⊢
    omega
  case h_3 => simp at h

/-- All items that are still to come. -/
def items (lexer : Lexer T) : List (Except LexicalError Token) :=
  match _h : lexer.next with
  | (some item, later) => item :: later.items
  | (none, _) => []
termination_by lexer.rest.length
decreasing_by exact next_rest_length_lt _h

theorem items_eq_cons {lexer later : Lexer T} {item : Except LexicalError Token}
    (h : lexer.next = (some item, later)) : lexer.items = item :: later.items := by
  rw [items]
  split
  case h_1 hnext =>
    rw [h] at hnext
    obtain ⟨hitem, rfl⟩ := Prod.mk.inj hnext
    rw [Option.some.inj hitem]
  case h_2 hnext => simp [h] at hnext

theorem items_eq_nil {lexer later : Lexer T} (h : lexer.next = (none, later)) :
    lexer.items = [] := by
  rw [items]
  split
  case h_1 hnext => simp [h] at hnext
  case h_2 => rfl

end Lexer

/-! ### Reading a formula -/

/-- A text read to its end: its tokens and the errors between them. -/
structure Lexing where
  tokens : List Token
  errors : List LexicalError
  deriving DecidableEq, Repr

/-- Sorts the items of a text into tokens and errors. -/
def Lexing.ofItems : List (Except LexicalError Token) → Lexing
  | [] => ⟨[], []⟩
  | .ok token :: items =>
    let later := ofItems items
    { later with tokens := token :: later.tokens }
  | .error error :: items =>
    let later := ofItems items
    { later with errors := error :: later.errors }

/-- Reads a formula. Blanks at either end do not count, also not for positions; a text of blanks
alone is an error. -/
def tokenize (s : String) : Lexing :=
  match Text.trim s.toList with
  | [] => ⟨[], [.empty]⟩
  | text => .ofItems (Lexer.mk builtinTable text 0).items

end Formula
