import Formula.Lexeme.Table

/-!
# Tries

A lexeme table kept as a tree of characters, in which words that begin alike share a path. A node
holds one character, the value of the word that ends there if there is one, the trie of what may
follow (`child`), and the trie of the other characters possible in its place (`sibling`).

Looking up a text walks down as long as some word goes on with the next character, and remembers
the last word passed. The empty word cannot be stored: a lexeme of no characters would never
advance a reader.

What a trie holds is read off by `find?`, which looks for exactly one word; `find?_insert` says how
an entry changes it.
-/

namespace Formula

universe v

/-- Words over characters, each with a value. -/
inductive Trie (V : Type v) where
  | empty
  | node (c : Char) (value : Option V) (child sibling : Trie V)
  deriving Repr, Inhabited

namespace Trie

variable {V : Type v}

/-- The trie of a single word. -/
def singleton : List Char → V → Trie V
  | [], _ => .empty
  | [c], v => .node c (some v) .empty .empty
  | c :: d :: word, v => .node c none (singleton (d :: word) v) .empty

/-- Stores a word; a word stored before gets the new value. -/
def insert : Trie V → List Char → V → Trie V
  | .empty, word, v => singleton word v
  | .node e value child sibling, [], _ => .node e value child sibling
  | .node e value child sibling, c :: word, v =>
    if c = e then
      if word.isEmpty then .node e (some v) child sibling
      else .node e value (child.insert word v) sibling
    else .node e value child (sibling.insert (c :: word) v)

/-- The trie of the given words; of two entries for one word the later counts. -/
def ofList (entries : List (String × V)) : Trie V :=
  entries.foldl (fun table entry => table.insert entry.1.toList entry.2) .empty

/-- The value stored for exactly this word. -/
def find? : Trie V → List Char → Option V
  | .empty, _ => none
  | .node _ _ _ _, [] => none
  | .node e value child sibling, c :: word =>
    if c = e then
      if word.isEmpty then value else child.find? word
    else sibling.find? (c :: word)

@[simp] theorem find?_nil (table : Trie V) : table.find? [] = none := by
  cases table <;> rfl

theorem find?_singleton {word : List Char} (v : V) (other : List Char) :
    (singleton word v).find? other = if other = word ∧ word ≠ [] then some v else none := by
  fun_induction singleton word v generalizing other with
  | case1 => cases other <;> simp [find?]
  | case2 c v =>
    cases other with
    | nil => simp [find?]
    | cons d other => by_cases hd : d = c <;> simp [find?, hd]
  | case3 c d word v ih =>
    -- the word goes on, so it ends further down
    cases other with
    | nil => simp [find?]
    | cons e other =>
      by_cases he : e = c
      · cases other <;> simp [find?, he, ih]
      · simp [find?, he]

/-- **What an entry changes.** The stored word has the new value, and every other word what it had
before. -/
theorem find?_insert {table : Trie V} {word : List Char} (hword : word ≠ []) (v : V)
    (other : List Char) :
    (table.insert word v).find? other = if other = word then some v else table.find? other := by
  fun_induction insert table word v generalizing other with
  | case1 word v =>
    rw [find?_singleton]
    simp [hword, find?]
  | case2 => contradiction
  | case3 value child sibling c word v hempty =>
    -- the word ends at this node
    cases other with
    | nil => simp [find?]
    | cons d other => by_cases hd : d = c <;> cases other <;> simp_all [find?]
  | case4 value child sibling c word v hempty ih =>
    -- the word goes on below this node
    have hne : word ≠ [] := by simpa using hempty
    cases other with
    | nil => simp [find?]
    | cons d other =>
      by_cases hd : d = c
      · cases other <;> simp [find?, hd, ih hne, hne.symm]
      · simp [find?, hd]
  | case5 e value child sibling c word v hne ih =>
    -- the word starts with another character, which comes further along the siblings
    cases other with
    | nil => simp [find?]
    | cons d other =>
      by_cases hd : d = e
      · simp [find?, hd, Ne.symm hne]
      · simp [find?, hd, ih]

/-- The longest word that the text starts with: its length in characters and its value. -/
def longest? : Trie V → List Char → Option (Nat × V)
  | .empty, _ => none
  | .node _ _ _ _, [] => none
  | .node e value child sibling, c :: text =>
    if c = e then
      match child.longest? text with
      | some (n, v) => some (n + 1, v)
      | none => value.map fun v => (1, v)
    else sibling.longest? (c :: text)

@[simp] theorem longest?_nil (table : Trie V) : table.longest? [] = none := by
  cases table <;> rfl

theorem longest?_bounds {table : Trie V} {text : List Char} {found : Nat × V}
    (h : table.longest? text = some found) : 0 < found.1 ∧ found.1 ≤ text.length := by
  fun_induction longest? table text generalizing found with
  | case1 => simp at h
  | case2 => simp at h
  | case3 e value child sibling text n v hdeep ih =>
    -- a longer word was found further down
    obtain rfl := Option.some.inj h
    have := ih hdeep
    simp only [List.length_cons] at this ⊢
    omega
  | case4 e value child sibling text hdeep ih =>
    -- no longer word, so the word that ends at this node counts
    obtain ⟨v, _, rfl⟩ := Option.map_eq_some_iff.1 h
    simp
  | case5 e value child sibling c text hne ih => exact ih h

end Trie

instance {V : Type v} : LexemeTable (Trie V) V where
  longest? := Trie.longest?
  longest?_bounds := Trie.longest?_bounds

end Formula
