import Formula.Lexeme.Table
import Std.Data.HashMap

/-!
# Hash tables of lexemes

A lexeme table kept as one hash map from words to values. A text is looked up by trying its first
bytes as a word, from as many as the longest word has down to one, so the first hit is the longest
match. Sizes that end within a character are passed over: no word ends there. Nothing in the answer
depends on the hash function; `fnv1a` is one that is quick on the handful of short words that a
lexeme table holds.
-/

namespace Formula

universe v

/-- Words with their values, and the size in bytes of the longest word. -/
structure HashTable (V : Type v) [Hashable String] where
  entries : Std.HashMap String V
  longest : Nat

namespace HashTable

variable {V : Type v} [Hashable String]

def empty : HashTable V := ⟨∅, 0⟩

/-- Stores a word; a word stored before gets the new value. The empty word is not stored. -/
def insert (table : HashTable V) (word : List Char) (v : V) : HashTable V :=
  if word.isEmpty then table
  else ⟨table.entries.insert (String.ofList word) v, max table.longest (Text.byteSize word)⟩

/-- The table of the given words; of two entries for one word the later counts. -/
def ofList (entries : List (String × V)) : HashTable V :=
  entries.foldl (fun table entry => table.insert entry.1.toList entry.2) empty

/-- The value stored for exactly this word. -/
def find? (table : HashTable V) (word : List Char) : Option V :=
  table.entries[String.ofList word]?

/-- The longest stored word among the first `size`, `size - 1`, …, `1` bytes of the text. -/
def probe (table : HashTable V) (text : List Char) : Nat → Option (Nat × V)
  | 0 => none
  | size + 1 =>
    match (Text.prefixOfSize? (size + 1) text).bind fun word =>
        (table.find? word).map (word.length, ·) with
    | some found => some found
    | none => table.probe text size

/-- The longest word that the text starts with: its length in characters and its value. -/
def longest? (table : HashTable V) (text : List Char) : Option (Nat × V) :=
  table.probe text (min table.longest (Text.byteSize text))

/-- A hit is a stored word, of at least one byte, that the text starts with. -/
theorem exists_prefix_of_probe {table : HashTable V} {text : List Char} {size : Nat}
    {found : Nat × V} (h : table.probe text size = some found) :
    ∃ word, word <+: text ∧ 0 < Text.byteSize word ∧ table.find? word = some found.2 ∧
      found.1 = word.length := by
  induction size with
  | zero => simp [probe] at h
  | succ size ih =>
    rw [probe] at h
    split at h
    case h_1 hit hhit =>
      obtain rfl := Option.some.inj h
      obtain ⟨word, hword, hfind⟩ := Option.bind_eq_some_iff.1 hhit
      obtain ⟨v, hv, rfl⟩ := Option.map_eq_some_iff.1 hfind
      -- a hit is a word of exactly this size that the text starts with
      obtain ⟨hstart, hsize⟩ := Text.prefixOfSize?_eq_some_iff.1 hword
      exact ⟨word, hstart, by omega, hv, rfl⟩
    case h_2 => exact ih h

theorem longest?_bounds {table : HashTable V} {text : List Char} {found : Nat × V}
    (h : table.longest? text = some found) : 0 < found.1 ∧ found.1 ≤ text.length := by
  obtain ⟨word, hstart, hsize, -, hlength⟩ := exists_prefix_of_probe h
  rw [hlength]
  refine ⟨List.length_pos_iff.2 ?_, hstart.length_le⟩
  rintro rfl
  simp at hsize

end HashTable

instance {V : Type v} [Hashable String] : LexemeTable (HashTable V) V where
  longest? := HashTable.longest?
  longest?_bounds := HashTable.longest?_bounds

/-! ### A hash function for short words -/

/-- The 64-bit FNV-1a hash of the bytes of a string. -/
def fnv1a (s : String) : UInt64 :=
  s.toUTF8.toList.foldl (fun hash byte => (hash ^^^ byte.toUInt64) * 0x100000001b3)
    0xcbf29ce484222325

/-- A hash table whose words are hashed with `fnv1a`. -/
abbrev FnvTable (V : Type v) : Type v :=
  @HashTable V ⟨fnv1a⟩

end Formula
