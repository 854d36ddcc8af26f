import Formula.Lexeme.Table

/-!
# Lexeme tables over a byte trie

A lexeme table kept in a container that has byte strings for keys and that can be narrowed to the
entries below a prefix. The container is not part of this library: the operations that the table
calls are a class (`PrefixStore`), and what the table relies on is another
(`LawfulPrefixStore`). `AssocStore` is a container that has them.

A text is looked up by walking along its characters. Every character narrows the store further; the
last word passed is remembered, and the walk ends where the narrowed store is empty, as no word
goes on from there.
-/

namespace Formula

universe u v

/-! ### The container -/

/-- A map from byte strings that can be narrowed to the keys with a given prefix. -/
class PrefixStore (M : Type v → Type v) where
  empty {V : Type v} : M V
  insert {V : Type v} : M V → List UInt8 → V → M V
  get? {V : Type v} : M V → List UInt8 → Option V
  /-- The part of the store below a prefix, under the same keys. -/
  narrow {V : Type v} : M V → List UInt8 → M V
  isEmpty {V : Type v} : M V → Bool

/-- **What a store is relied on for.** Lookup is exact, a later value replaces an earlier one,
narrowing keeps just the keys that start with the prefix, and a store is empty if it has no key. -/
class LawfulPrefixStore (M : Type v → Type v) [PrefixStore M] : Prop where
  get?_empty {V : Type v} (key : List UInt8) :
    PrefixStore.get? (PrefixStore.empty : M V) key = none
  get?_insert {V : Type v} (store : M V) (key : List UInt8) (v : V) (other : List UInt8) :
    PrefixStore.get? (PrefixStore.insert store key v) other =
      if other = key then some v else PrefixStore.get? store other
  get?_narrow {V : Type v} (store : M V) (front key : List UInt8) :
    PrefixStore.get? (PrefixStore.narrow store front) key =
      if front <+: key then PrefixStore.get? store key else none
  isEmpty_iff {V : Type v} (store : M V) :
    PrefixStore.isEmpty store ↔ ∀ key, PrefixStore.get? store key = none

/-! ### The table -/

/-- Words with their values, under the bytes of the words. -/
structure StoreTable (M : Type v → Type v) (V : Type v) where
  store : M V

namespace StoreTable

variable {M : Type v → Type v} [PrefixStore M] {V : Type v}

def empty : StoreTable M V := ⟨PrefixStore.empty⟩

/-- Stores a word; a word stored before gets the new value. The empty word is not stored. -/
def insert (table : StoreTable M V) (word : List Char) (v : V) : StoreTable M V :=
  if word.isEmpty then table else ⟨PrefixStore.insert table.store (Text.utf8 word) v⟩

/-- The table of the given words; of two entries for one word the later counts. -/
def ofList (entries : List (String × V)) : StoreTable M V :=
  entries.foldl (fun table entry => table.insert entry.1.toList entry.2) empty

/-- The value stored for exactly this word. -/
def find? (table : StoreTable M V) (word : List Char) : Option V :=
  PrefixStore.get? table.store (Text.utf8 word)

/-- Follows the text through stores that get smaller. `passed` is what has been followed so far and
`best` the longest word in it. -/
def walk (store : M V) (passed : List Char) (best : Option (Nat × V)) :
    List Char → Option (Nat × V)
  | [] => best
  | c :: text =>
    let passed := passed ++ [c]
    let store := PrefixStore.narrow store (Text.utf8 passed)
    if PrefixStore.isEmpty store then best
    else
      let found := (PrefixStore.get? store (Text.utf8 passed)).map (passed.length, ·)
      walk store passed (found.or best) text

/-- The longest word that the text starts with: its length in characters and its value. -/
def longest? (table : StoreTable M V) (text : List Char) : Option (Nat × V) :=
  walk (PrefixStore.narrow table.store []) [] none text

/-- A walk finds nothing longer than the text, and it moves on before it finds anything. -/
theorem walk_bounds {store : M V} {passed text : List Char} {best : Option (Nat × V)}
    {found : Nat × V} (h : walk store passed best text = some found) :
    best = some found ∨ passed.length < found.1 ∧ found.1 ≤ passed.length + text.length := by
  induction text generalizing store passed best with
  | nil => exact .inl h
  | cons c text ih =>
    rw [walk] at h
    split at h
    case isTrue => exact .inl h
    case isFalse =>
      rcases ih h with hbest | hlater
      · rcases Option.or_eq_some_iff.1 hbest with hfound | ⟨-, hbest⟩
        · obtain ⟨v, -, rfl⟩ := Option.map_eq_some_iff.1 hfound
          exact .inr (by simp)
        · exact .inl hbest
      · simp only [List.length_append, List.length_cons, List.length_nil] at hlater ⊢
        omega

theorem longest?_bounds {table : StoreTable M V} {text : List Char} {found : Nat × V}
    (h : table.longest? text = some found) : 0 < found.1 ∧ found.1 ≤ text.length := by
  rcases walk_bounds h with hnone | hfound
  · simp at hnone
  · simpa using hfound

end StoreTable

instance {M : Type v → Type v} [PrefixStore M] {V : Type v} :
    LexemeTable (StoreTable M V) V where
  longest? := StoreTable.longest?
  longest?_bounds := StoreTable.longest?_bounds

/-! ### A container -/

/-- Keys and values in a list, the latest first. -/
structure AssocStore (V : Type v) where
  entries : List (List UInt8 × V)

instance : PrefixStore AssocStore where
  empty := ⟨[]⟩
  insert store key v := ⟨(key, v) :: store.entries⟩
  get? store key := store.entries.lookup key
  narrow store front := ⟨store.entries.filter fun entry => front.isPrefixOf entry.1⟩
  isEmpty store := store.entries.isEmpty

/-- The first entry of a list is looked at first. -/
theorem lookup_cons_eq_ite {α : Type u} {β : Type v} [BEq α] [LawfulBEq α] [DecidableEq α]
    (entry : α × β) (entries : List (α × β)) (key : α) :
    (entry :: entries).lookup key =
      if key = entry.1 then some entry.2 else entries.lookup key := by
  by_cases h : key = entry.1
  · rw [h, List.lookup_cons_self, if_pos rfl]
  · rw [List.lookup_cons, beq_false_of_ne h, if_neg h]

instance : LawfulPrefixStore AssocStore where
  get?_empty _ := rfl
  get?_insert store key v other := lookup_cons_eq_ite (key, v) store.entries other
  get?_narrow store front key := by
    simp only [PrefixStore.get?, PrefixStore.narrow]
    induction store.entries with
    | nil => simp
    | cons entry entries ih =>
      by_cases hfront : front <+: entry.1
      · rw [List.filter_cons_of_pos (by simpa using hfront), lookup_cons_eq_ite,
          lookup_cons_eq_ite, ih]
        by_cases hkey : key = entry.1
        · simp [hkey, hfront]
        · simp [hkey]
      · -- a key below the prefix is not the one of this entry
        rw [List.filter_cons_of_neg (by simpa using hfront), ih, lookup_cons_eq_ite]
        by_cases hkey : key = entry.1
        · simp [hkey, hfront]
        · simp [hkey]
  isEmpty_iff store := by
    simp only [PrefixStore.get?, PrefixStore.isEmpty, List.isEmpty_iff]
    constructor
    · intro h key
      rw [h, List.lookup_nil]
    · intro h
      cases hentries : store.entries with
      | nil => rfl
      | cons entry entries =>
        have hfirst := h entry.1
        simp [hentries] at hfirst

end Formula
