import Formula.Lexeme.HashTable
import Formula.Lexeme.Store
import Formula.Proofs.Tokenizing

/-!
# Lexeme tables agree

A text can be matched against a lexeme table by walking down a trie, by narrowing a store character
by character, or by trying ever smaller sizes in a hash map. All of them find the longest prefix of
the text that lookup has a value for (`LongestMatch`), and lookup of a word in any of the tables
gives the value of the last entry for it (`lastValue?`). There is only one such answer
(`LongestMatch.unique`), so the tables agree, and a lexer delivers the same items with each of them.

Main statements:

* `HashTable.longestMatch`, `StoreTable.longestMatch`: what each table finds, as a trie does
  (`Trie.longestMatch`);
* `Represents.match?_eq_some_iff`, `Represents.match?_eq_none_iff`: such an answer in terms of the
  entries of the table;
* `tables_agree`: all tables of the same entries give the same answers, and lexers the same items;
* `items_builtinTable`: so the table by which a formula is read could be any of them.
-/

namespace Formula

variable {V : Type*}

/-! ### Hash tables -/

namespace HashTable

variable [Hashable String]

/-- What a hash table keeps: the empty word is not in it, and no word is longer than its record of
the longest. -/
structure WellFormed (table : HashTable V) : Prop where
  find?_nil : table.find? [] = none
  size_le : ∀ {word v}, table.find? word = some v → Text.byteSize word ≤ table.longest

/-- The stored word has the new value, and every other word what it had before. -/
theorem find?_insert (table : HashTable V) (word : List Char) (v : V) (other : List Char) :
    (table.insert word v).find? other =
      if word ≠ [] ∧ other = word then some v else table.find? other := by
  by_cases hword : word = []
  · simp [insert, hword]
  · have hiff : (String.ofList word == String.ofList other) = true ↔ other = word := by
      rw [beq_iff_eq, String.ofList_inj, eq_comm]
    simp only [insert, find?, List.isEmpty_iff, hword, if_false, Std.HashMap.getElem?_insert, hiff,
      ne_eq, not_false_eq_true, true_and]

theorem WellFormed.insert {table : HashTable V} (h : table.WellFormed) (word : List Char) (v : V) :
    (table.insert word v).WellFormed where
  find?_nil := by
    rw [find?_insert, if_neg (by rintro ⟨hne, rfl⟩; exact hne rfl), h.find?_nil]
  size_le {other w} hfind := by
    rw [find?_insert] at hfind
    by_cases hword : word = []
    · rw [if_neg (by simp [hword])] at hfind
      simpa [HashTable.insert, hword] using h.size_le hfind
    · simp only [HashTable.insert, List.isEmpty_iff, hword, if_false]
      split at hfind
      case isTrue heq => exact heq.2 ▸ Nat.le_max_right ..
      case isFalse => exact (h.size_le hfind).trans (Nat.le_max_left ..)

theorem wellFormed_ofList (entries : List (String × V)) : (ofList entries).WellFormed := by
  refine List.foldlRecOn entries _ ⟨?_, ?_⟩ fun table h entry _ => h.insert entry.1.toList entry.2
  · simp [find?, empty]
  · simp [find?, empty]

/-- **A probe from some size down** finds the longest match among the words of at most this size. -/
theorem longestMatch_probe {table : HashTable V} (h : table.find? [] = none) (text : List Char)
    (size : Nat) :
    LongestMatch (fun word => if Text.byteSize word ≤ size then table.find? word else none) text
      (table.probe text size) := by
  induction size with
  | zero =>
    -- size zero leaves the empty word only, which is not stored
    refine .none fun word _ => ?_
    split
    case isTrue hzero =>
      obtain rfl : word = [] := Text.byteSize_eq_zero_iff.1 (Nat.le_zero.1 hzero)
      exact h
    case isFalse => rfl
  | succ size ih =>
    rw [probe]
    split
    case h_1 found hhit =>
      -- a word of this size is the longest, as a longer one would exceed the bound
      obtain ⟨word, hword, hfind⟩ := Option.bind_eq_some_iff.1 hhit
      obtain ⟨v, hv, rfl⟩ := Option.map_eq_some_iff.1 hfind
      obtain ⟨hstart, hsize⟩ := Text.prefixOfSize?_eq_some_iff.1 hword
      refine .some hstart (by rw [if_pos hsize.le, hv]) fun longer hlong hlt => if_neg ?_
      have := Text.byteSize_lt_of_prefix hstart hlong hlt
      omega
    case h_2 hmiss =>
      -- no word of exactly this size is stored, so the bound can be lowered
      refine ih.congr fun word hword => ?_
      by_cases hsize : Text.byteSize word = size + 1
      · have hcut := Text.prefixOfSize?_eq_some_iff.2 ⟨hword, hsize⟩
        rw [hcut, Option.bind_some, Option.map_eq_none_iff] at hmiss
        rw [if_neg (by omega), if_pos hsize.le, hmiss]
      · simp only [show Text.byteSize word ≤ size ↔ Text.byteSize word ≤ size + 1 by omega]

/-- **A hash table finds the longest match.** -/
theorem longestMatch {table : HashTable V} (h : table.WellFormed) (text : List Char) :
    LongestMatch table.find? text (table.longest? text) := by
  refine (longestMatch_probe h.find?_nil text _).congr fun word hword => ?_
  rw [ite_eq_left_iff]
  intro hsize
  by_contra hne
  obtain ⟨v, hv⟩ := Option.ne_none_iff_exists'.1 (Ne.symm hne)
  have := h.size_le hv
  have := Text.byteSize_le_of_prefix hword
  omega

end HashTable

/-! ### Narrowed stores -/

namespace StoreTable

variable {M : Type → Type} [PrefixStore M] [LawfulPrefixStore M] {V : Type}

open PrefixStore LawfulPrefixStore

/-- The stored word has the new value, and every other word what it had before. -/
theorem find?_insert (table : StoreTable M V) (word : List Char) (v : V) (other : List Char) :
    (table.insert word v).find? other =
      if word ≠ [] ∧ other = word then some v else table.find? other := by
  by_cases hword : word = []
  · simp [insert, hword]
  · simp [insert, find?, hword, get?_insert, Text.utf8_injective.eq_iff]

/-- A walk that has passed some characters, with a store narrowed to them and the longest match in
them, comes to the longest match in all of the text. -/
theorem longestMatch_walk (table : StoreTable M V) (passed : List Char) {store : M V}
    {text : List Char} {best : Option (Nat × V)}
    (hstore : ∀ key, get? store key =
      if Text.utf8 passed <+: key then get? table.store key else none)
    (hbest : LongestMatch table.find? passed best) :
    LongestMatch table.find? (passed ++ text) (walk store passed best text) := by
  induction text generalizing store passed best with
  | nil => simpa [walk] using hbest
  | cons c text ih =>
    -- what is left below the next prefix is again what the whole table has there
    have hnarrow : ∀ key, get? (narrow store (Text.utf8 (passed ++ [c]))) key =
        if Text.utf8 (passed ++ [c]) <+: key then get? table.store key else none := by
      intro key
      rw [get?_narrow, hstore]
      by_cases hkey : Text.utf8 (passed ++ [c]) <+: key
      · have hpassed : Text.utf8 passed <+: key := by
          rw [Text.utf8_append] at hkey
          exact (List.prefix_append ..).trans hkey
        rw [if_pos hkey, if_pos hkey, if_pos hpassed]
      · rw [if_neg hkey, if_neg hkey]
    rw [walk]
    split
    case isTrue hempty =>
      -- nothing goes on from here, so the best word passed is the best of all
      refine hbest.extend fun word hacross _ => ?_
      obtain ⟨rest, rfl⟩ := hacross
      have hnone := (isEmpty_iff _).1 hempty (Text.utf8 (passed ++ [c] ++ rest))
      rwa [hnarrow, if_pos (by rw [Text.utf8_append (passed ++ [c])]; exact List.prefix_append ..)]
        at hnone
    case isFalse =>
      rw [hnarrow, if_pos (List.prefix_refl _), List.append_cons]
      exact ih (passed ++ [c]) hnarrow (hbest.snoc c)

/-- **A store that is narrowed step by step finds the longest match.** -/
theorem longestMatch {table : StoreTable M V} (h : table.find? [] = none) (text : List Char) :
    LongestMatch table.find? text (table.longest? text) := by
  refine table.longestMatch_walk [] (fun key => ?_) (.none fun word hword => ?_)
  · exact get?_narrow ..
  · rw [List.prefix_nil.1 hword, h]

end StoreTable

/-! ### Entries -/

theorem HashTable.find?_ofList [Hashable String] (entries : List (String × V)) (word : List Char) :
    (HashTable.ofList entries).find? word = entryValue? entries word :=
  find_foldl (fun word => by simp [find?, empty]) find?_insert entries word

theorem StoreTable.find?_ofList {M : Type → Type} [PrefixStore M] [LawfulPrefixStore M] {V : Type}
    (entries : List (String × V)) (word : List Char) :
    (StoreTable.ofList entries : StoreTable M V).find? word = entryValue? entries word :=
  find_foldl (fun word => LawfulPrefixStore.get?_empty (Text.utf8 word)) find?_insert entries word

/-- The longest word of the entries that the query starts with, and the value that it has. -/
structure LongestEntry (entries : List (String × V)) (query word : String) (v : V) : Prop where
  ne_empty : word ≠ ""
  starts : word.toList <+: query.toList
  last : lastValue? entries word = some v
  longest : ∀ entry ∈ entries, entry.1.toList <+: query.toList →
    entry.1.utf8ByteSize ≤ word.utf8ByteSize

/-- The query starts with no word of the entries. -/
def NoEntry (entries : List (String × V)) (query : String) : Prop :=
  ∀ entry ∈ entries, entry.1 ≠ "" → ¬ entry.1.toList <+: query.toList

/-! ### Tables and their entries -/

section Represents

variable {T T' : Type*} [LexemeTable T V] [LexemeTable T' V] {table : T} {table' : T'}
variable {entries : List (String × V)} {query : String}

/-- The table answers every text with the longest match among the entries. -/
def Represents (table : T) (entries : List (String × V)) : Prop :=
  ∀ text, LongestMatch (entryValue? entries) text (LexemeTable.longest? table text)

/-- A match is the longest entry. -/
theorem longestEntry_of_longestMatch {text : List Char} {found : Nat × V}
    (h : LongestMatch (entryValue? entries) text (some found)) :
    ∃ word, LongestEntry entries (String.ofList text) word found.2 ∧
      text.take found.1 = word.toList := by
  cases h with
  | @some word v hstart hfind hlonger =>
    have hne : word ≠ [] := by
      rintro rfl
      simp [entryValue?] at hfind
    rw [entryValue?, if_neg hne] at hfind
    refine ⟨String.ofList word, ⟨by simpa using hne, by simpa using hstart, hfind, ?_⟩,
      by rw [String.toList_ofList]; exact (List.prefix_iff_eq_take.1 hstart).symm⟩
    intro entry hmem hentry
    rw [String.toList_ofList] at hentry
    rw [← Text.byteSize_toList, ← Text.byteSize_toList, String.toList_ofList]
    rcases Nat.lt_or_ge word.length entry.1.toList.length with hlt | hle
    · -- a longer entry would have been found
      refine absurd (hlonger _ hentry hlt) (entryValue?_ne_none hmem ?_)
      intro hempty
      simp [hempty] at hlt
    · exact Text.byteSize_le_of_prefix (List.prefix_of_prefix_length_le hentry hstart hle)

/-- Without a match there is no entry. -/
theorem noEntry_of_longestMatch {text : List Char}
    (h : LongestMatch (entryValue? entries) text none) : NoEntry entries (String.ofList text) := by
  cases h with
  | none hnone =>
    intro entry hmem hne hstart
    rw [String.toList_ofList] at hstart
    exact entryValue?_ne_none hmem hne (hnone _ hstart)

theorem LongestEntry.mem {word : String} {v : V} (h : LongestEntry entries query word v) :
    ∃ entry ∈ entries, entry.1 = word := by
  by_contra hnone
  have hlast := h.last
  rw [lastValue?_eq_none_iff.2 fun entry hmem heq => hnone ⟨entry, hmem, heq⟩] at hlast
  simp at hlast

theorem LongestEntry.not_noEntry {word : String} {v : V} (h : LongestEntry entries query word v) :
    ¬ NoEntry entries query := by
  obtain ⟨entry, hmem, rfl⟩ := h.mem
  exact fun hnone => hnone entry hmem h.ne_empty h.starts

/-- **There is one longest entry.** -/
theorem LongestEntry.unique {word word' : String} {v v' : V}
    (h : LongestEntry entries query word v) (h' : LongestEntry entries query word' v') :
    word = word' ∧ v = v' := by
  obtain ⟨entry, hmem, hentry⟩ := h.mem
  obtain ⟨entry', hmem', hentry'⟩ := h'.mem
  have hle := h'.longest entry hmem (hentry ▸ h.starts)
  have hle' := h.longest entry' hmem' (hentry' ▸ h'.starts)
  rw [hentry, ← Text.byteSize_toList, ← Text.byteSize_toList] at hle
  rw [hentry', ← Text.byteSize_toList, ← Text.byteSize_toList] at hle'
  have hlength : word.toList.length = word'.toList.length := by
    rcases Nat.lt_trichotomy word.toList.length word'.toList.length with hlt | heq | hlt
    · have := Text.byteSize_lt_of_prefix h.starts h'.starts hlt
      omega
    · exact heq
    · have := Text.byteSize_lt_of_prefix h'.starts h.starts hlt
      omega
  obtain rfl : word = word' := String.toList_inj.1
    ((List.prefix_of_prefix_length_le h.starts h'.starts hlength.le).eq_of_length hlength)
  exact ⟨rfl, Option.some.inj (h.last.symm.trans h'.last)⟩

namespace Represents

theorem longest?_eq (h : Represents table entries) (h' : Represents table' entries)
    (text : List Char) : LexemeTable.longest? table text = LexemeTable.longest? table' text :=
  (h text).unique (h' text)

/-- **The answer to a query** is the longest entry that it starts with. -/
theorem match?_eq_some_iff (h : Represents table entries) {size : Nat} {v : V} :
    LexemeTable.match? table query = some (size, v) ↔
      ∃ word, LongestEntry entries query word v ∧ word.utf8ByteSize = size := by
  have hmatch := h query.toList
  rw [LexemeTable.match?]
  cases hfound : LexemeTable.longest? table query.toList with
  | none =>
    rw [hfound] at hmatch
    have hnone := noEntry_of_longestMatch hmatch
    rw [String.ofList_toList] at hnone
    constructor
    · simp
    · rintro ⟨word, hword, -⟩
      exact absurd hnone hword.not_noEntry
  | some found =>
    rw [hfound] at hmatch
    obtain ⟨word, hword, htake⟩ := longestEntry_of_longestMatch hmatch
    rw [String.ofList_toList] at hword
    rw [Option.map_some, htake, Text.byteSize_toList, Option.some_inj, Prod.mk.injEq]
    constructor
    · rintro ⟨rfl, rfl⟩
      exact ⟨word, hword, rfl⟩
    · rintro ⟨word', hword', rfl⟩
      obtain ⟨rfl, rfl⟩ := hword.unique hword'
      exact ⟨rfl, rfl⟩

/-- **There is no answer** just where no entry matches. -/
theorem match?_eq_none_iff (h : Represents table entries) :
    LexemeTable.match? table query = none ↔ NoEntry entries query := by
  have hmatch := h query.toList
  rw [LexemeTable.match?, Option.map_eq_none_iff]
  constructor
  · intro hnone
    rw [hnone] at hmatch
    simpa using noEntry_of_longestMatch hmatch
  · intro hnone
    by_contra hsome
    obtain ⟨found, hfound⟩ := Option.ne_none_iff_exists'.1 hsome
    rw [hfound] at hmatch
    obtain ⟨word, hword, -⟩ := longestEntry_of_longestMatch hmatch
    rw [String.ofList_toList] at hword
    exact hword.not_noEntry hnone

end Represents

end Represents

/-! ### The tables of this library -/

theorem represents_trie (entries : List (String × V)) :
    Represents (Trie.ofList entries) entries :=
  fun text => (Trie.longestMatch _ text).congr fun word _ => Trie.find?_ofList entries word

theorem represents_hashTable [Hashable String] (entries : List (String × V)) :
    Represents (HashTable.ofList entries) entries :=
  fun text => (HashTable.longestMatch (HashTable.wellFormed_ofList entries) text).congr
    fun word _ => HashTable.find?_ofList entries word

theorem represents_storeTable {M : Type → Type} [PrefixStore M] [LawfulPrefixStore M] {V : Type}
    (entries : List (String × V)) :
    Represents (StoreTable.ofList entries : StoreTable M V) entries :=
  fun text => (StoreTable.longestMatch (by rw [StoreTable.find?_ofList, entryValue?, if_pos rfl])
    text).congr fun word _ => StoreTable.find?_ofList entries word

/-! ### Lexers over different tables -/

namespace Lexer

variable {T T' : Type*} [LexemeTable T Kind] [LexemeTable T' Kind] {table : T} {table' : T'}

/-- Lexers whose tables answer alike take the same item and come to the same place. -/
theorem next_congr
    (h : ∀ text, LexemeTable.longest? table text = LexemeTable.longest? table' text)
    (rest : List Char) (n : Nat) :
    ∃ item rest' n', (Lexer.mk table rest n).next = (item, ⟨table, rest', n'⟩) ∧
      (Lexer.mk table' rest n).next = (item, ⟨table', rest', n'⟩) := by
  have hlexeme (text : List Char) : lexeme? table text = lexeme? table' text := by
    rw [lexeme?, h, lexeme?]
  simp only [next, skipBlanks, advance, hlexeme]
  split
  case h_1 => exact ⟨_, _, _, rfl, rfl⟩
  case h_2 => exact ⟨_, _, _, rfl, rfl⟩
  case h_3 => exact ⟨_, _, _, rfl, rfl⟩

/-- **Lexers whose tables answer alike** deliver the same items. -/
theorem items_congr
    (h : ∀ text, LexemeTable.longest? table text = LexemeTable.longest? table' text)
    (rest : List Char) (n : Nat) :
    (Lexer.mk table rest n).items = (Lexer.mk table' rest n).items := by
  generalize hlexer : Lexer.mk table rest n = lexer
  fun_induction items lexer generalizing rest n with
  | case1 lexer item later hnext ih =>
    subst hlexer
    obtain ⟨item', rest', n', hleft, hright⟩ := next_congr h rest n
    rw [hleft] at hnext
    obtain ⟨rfl, rfl⟩ := Prod.mk.inj hnext
    rw [ih rest' n' rfl, items_eq_cons hright]
  | case2 lexer later hnext =>
    subst hlexer
    obtain ⟨item', rest', n', hleft, hright⟩ := next_congr h rest n
    rw [hleft] at hnext
    obtain ⟨rfl, rfl⟩ := Prod.mk.inj hnext
    rw [items_eq_nil hright]

end Lexer

/-- **Tables of the same entries** lead a lexer to the same items. -/
theorem Represents.items_ofString {T T' : Type*} [LexemeTable T Kind] [LexemeTable T' Kind]
    {table : T} {table' : T'} {entries : List (String × Kind)} (h : Represents table entries)
    (h' : Represents table' entries) (s : String) :
    (Lexer.ofString table s).items = (Lexer.ofString table' s).items :=
  Lexer.items_congr (h.longest?_eq h') _ _

/-- **The tables agree.** Whatever entries they are made of, and whatever lawful store or hash
function they use, all tables give the same answer to every query: the size in bytes of the longest
entry that the query starts with, and the value of the last entry for it, or nothing if it starts
with none. So a lexer delivers the same items from each of them. -/
theorem tables_agree {M : Type → Type} [PrefixStore M] [LawfulPrefixStore M] [Hashable String] :
    (∀ {V : Type} (entries : List (String × V)) (query : String),
      let answer := LexemeTable.match? (StoreTable.ofList entries : StoreTable M V) query
      LexemeTable.match? (HashTable.ofList entries) query = answer ∧
        LexemeTable.match? (Trie.ofList entries) query = answer ∧
        (∀ size v, answer = some (size, v) ↔
          ∃ word, LongestEntry entries query word v ∧ word.utf8ByteSize = size) ∧
        (answer = none ↔ NoEntry entries query)) ∧
      ∀ (entries : List (String × Kind)) (s : String),
        let items := (Lexer.ofString (StoreTable.ofList entries : StoreTable M Kind) s).items
        (Lexer.ofString (HashTable.ofList entries) s).items = items ∧
          (Lexer.ofString (Trie.ofList entries) s).items = items := by
  refine ⟨fun {V} entries query => ?_, fun entries s => ?_⟩
  · have hstore := represents_storeTable (M := M) entries
    refine ⟨?_, ?_, fun size v => hstore.match?_eq_some_iff, hstore.match?_eq_none_iff⟩
    · simp only [LexemeTable.match?, (represents_hashTable entries).longest?_eq hstore]
    · simp only [LexemeTable.match?, (represents_trie entries).longest?_eq hstore]
  · have hstore := represents_storeTable (M := M) entries
    exact ⟨(represents_hashTable entries).items_ofString hstore s,
      (represents_trie entries).items_ofString hstore s⟩

/-- Of two entries for one word the later counts, also if the word takes more than one byte and is
the start of another, and whatever stands for the empty word. -/
theorem tables_agree_repeated :
    let entries : List (String × Kind) :=
      [("", .number), ("é", .operator), ("éa", .function), ("é", .openBracket)]
    LexemeTable.match? (@HashTable.ofList Kind ⟨fnv1a⟩ entries) "éb" = some (2, .openBracket) ∧
      LexemeTable.match? (Trie.ofList entries) "éb" = some (2, .openBracket) ∧
      LexemeTable.match? (Trie.ofList entries) "éab" = some (3, .function) := by
  intro entries
  obtain ⟨hanswers, -⟩ := @tables_agree AssocStore _ _ ⟨fnv1a⟩
  obtain ⟨hhash, htrie, -⟩ := hanswers entries "éb"
  obtain ⟨-, htrie', -⟩ := hanswers entries "éab"
  rw [hhash, htrie, htrie']
  decide +kernel

/-- **The built-in table** is a trie, and a formula is read with it as with a store or a hash table
of the built-in lexemes. -/
theorem items_builtinTable {M : Type → Type} [PrefixStore M] [LawfulPrefixStore M]
    [Hashable String] (s : String) :
    (Lexer.ofString builtinTable s).items =
        (Lexer.ofString (StoreTable.ofList builtinLexemes : StoreTable M Kind) s).items ∧
      (Lexer.ofString builtinTable s).items =
        (Lexer.ofString (HashTable.ofList builtinLexemes) s).items := by
  have htable : Represents builtinTable builtinLexemes := represents_trie builtinLexemes
  exact ⟨htable.items_ofString (represents_storeTable builtinLexemes) s,
    htable.items_ofString (represents_hashTable builtinLexemes) s⟩

end Formula
