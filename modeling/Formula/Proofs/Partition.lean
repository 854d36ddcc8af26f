import Formula.Proofs.Backends
import Formula.Proofs.Context

/-!
# The lexer cuts a text into its items

A lexer leaves nothing out: every character of the text is in an item or is a blank in front of one,
or behind the last. What an item takes is decided by the text from there on alone (`Takes`): the
longest word of the table, or else the longest name, or else the longest numeral, or else one
character that is an error.

One step of the lexer takes a single item (`Lexer.next_takes`), and a run cuts all of the text
(`Cut`, `Lexer.cut_items`). Everything else is read off from that cut: the places of the items are
the bytes in front of them and increase, items do not overlap, and there are no more of them than
bytes. `lexing_partitions` states this for every table that this library can make of any entries.
-/

namespace Formula

/-! ### Longest names and numerals -/

/-- The word is the longest prefix of the text that has the property. -/
structure LongestPrefix (p : List Char → Prop) (text word : List Char) : Prop where
  starts : word <+: text
  holds : p word
  longest : ∀ other, other <+: text → p other → other.length ≤ word.length

theorem longestPrefix_name {text : List Char} (h : 0 < identifierLength text) :
    LongestPrefix IsName text (text.take (identifierLength text)) where
  starts := List.take_prefix _ _
  holds := isName_take h
  longest other hstart hname := by
    rw [List.length_take, min_eq_left (identifierLength_le text)]
    exact hname.length_le hstart

theorem longestPrefix_numeral {text : List Char} (h : 0 < numberLength text) :
    LongestPrefix Numeral text (text.take (numberLength text)) where
  starts := List.take_prefix _ _
  holds := numeral_take h
  longest other hstart hnumeral := by
    rw [List.length_take, min_eq_left (numberLength_le text)]
    exact hnumeral.length_le hstart

theorem not_isName_of_identifierLength {text w : List Char} (h : ¬ 0 < identifierLength text)
    (hstart : w <+: text) : ¬ IsName w := by
  intro hname
  have hle := hname.length_le hstart
  obtain ⟨c, cs, rfl, -⟩ := hname
  rw [List.length_cons] at hle
  omega

theorem not_numeral_of_numberLength {text w : List Char} (h : ¬ 0 < numberLength text)
    (hstart : w <+: text) : ¬ Numeral w := by
  intro hnumeral
  have hle := hnumeral.length_le hstart
  cases hnumeral with
  | whole hne _ =>
    have := List.length_pos_iff.2 hne
    omega
  | decimal hne _ _ _ =>
    rw [List.length_append, List.length_cons] at hle
    omega

/-! ### Items -/

namespace Lexer

/-- The characters that an item is read from. -/
def piece : Except LexicalError Token → List Char
  | .ok t => t.text.toList
  | .error (.unexpectedChar c _) => [c]
  | .error .empty => []

/-- The place where an item stands. -/
def place : Except LexicalError Token → Nat
  | .ok t => t.position
  | .error (.unexpectedChar _ n) => n
  | .error .empty => 0

/-- The place where an item ends. -/
def stop (item : Except LexicalError Token) : Nat :=
  place item + Text.byteSize (piece item)

end Lexer

/-- **What the lexer takes from a text**: the longest word of the entries with the kind of its last
entry; without one, the longest name; without one, the longest numeral; and without one, a single
character as an error. -/
inductive Takes (entries : List (String × Kind)) (text : List Char) :
    Except LexicalError Token → Prop
  | word {t : Token} (h : LongestEntry entries (String.ofList text) t.text t.kind) :
      Takes entries text (.ok t)
  | name {t : Token} (hword : NoEntry entries (String.ofList text)) (hkind : t.kind = .variable)
      (h : LongestPrefix IsName text t.text.toList) : Takes entries text (.ok t)
  | numeral {t : Token} (hword : NoEntry entries (String.ofList text))
      (hname : ∀ w, w <+: text → ¬ IsName w) (hkind : t.kind = .number)
      (h : LongestPrefix Numeral text t.text.toList) : Takes entries text (.ok t)
  | error {c : Char} {n : Nat} (hword : NoEntry entries (String.ofList text))
      (hname : ∀ w, w <+: text → ¬ IsName w) (hnumeral : ∀ w, w <+: text → ¬ Numeral w)
      (h : [c] <+: text) : Takes entries text (.error (.unexpectedChar c n))

/-- **A text cut into items**, its first character being at place `n`: in front of every item and
behind the last there are blanks and nothing else, and an item takes what the lexer owes to the text
from there on. -/
inductive Cut (entries : List (String × Kind)) :
    Nat → List Char → List (Except LexicalError Token) → Prop
  | blank {n : Nat} {text : List Char} (h : ∀ c ∈ text, Text.isBlank c) : Cut entries n text []
  | item {n : Nat} {blanks rest : List Char} {item : Except LexicalError Token}
      {items : List (Except LexicalError Token)} (hblanks : ∀ c ∈ blanks, Text.isBlank c)
      (hplace : Lexer.place item = n + Text.byteSize blanks) (hne : Lexer.piece item ≠ [])
      (htakes : Takes entries (Lexer.piece item ++ rest) item)
      (hrest : Cut entries (Lexer.stop item) rest items) :
      Cut entries n (blanks ++ (Lexer.piece item ++ rest)) (item :: items)

/-! ### What one step takes -/

section Step

variable {T : Type*} [LexemeTable T Kind] {table : T} {entries : List (String × Kind)}

/-- A lexeme is what the lexer owes to the text. -/
theorem takes_of_lexeme? (h : Represents table entries) {text : List Char} {n : Nat} {kind : Kind}
    (hlexeme : lexeme? table text = some (n, kind)) (position : Nat) :
    Takes entries text (.ok ⟨kind, String.ofList (text.take n), position⟩) := by
  have hmatch := h text
  unfold lexeme? at hlexeme
  split at hlexeme
  case h_1 found hfound =>
    obtain rfl := Option.some.inj hlexeme
    -- the table has a word for the text, so the item is the longest entry
    rw [hfound] at hmatch
    obtain ⟨word, hword, htake⟩ := longestEntry_of_longestMatch hmatch
    refine .word ?_
    simpa [htake] using hword
  case h_2 hnone =>
    rw [hnone] at hmatch
    -- no entry fits, and then names come before numbers
    have hword := noEntry_of_longestMatch hmatch
    split at hlexeme
    case isTrue hpos =>
      obtain ⟨rfl, rfl⟩ := Prod.mk.inj (Option.some.inj hlexeme)
      exact .name hword rfl (by simpa using longestPrefix_name hpos)
    case isFalse hname =>
      split at hlexeme
      case isTrue hpos =>
        obtain ⟨rfl, rfl⟩ := Prod.mk.inj (Option.some.inj hlexeme)
        exact .numeral hword (fun w => not_isName_of_identifierLength hname) rfl
          (by simpa using longestPrefix_numeral hpos)
      case isFalse => simp at hlexeme

/-- Without a lexeme a character is owed. -/
theorem takes_of_lexeme?_eq_none (h : Represents table entries) {c : Char} {text : List Char}
    (hlexeme : lexeme? table (c :: text) = none) (position : Nat) :
    Takes entries (c :: text) (.error (.unexpectedChar c position)) := by
  have hmatch := h (c :: text)
  unfold lexeme? at hlexeme
  split at hlexeme
  case h_1 => simp at hlexeme
  case h_2 hnone =>
    rw [hnone] at hmatch
    have hword := noEntry_of_longestMatch hmatch
    split at hlexeme
    case isTrue => simp at hlexeme
    case isFalse hname =>
      split at hlexeme
      case isTrue => simp at hlexeme
      case isFalse hnumeral =>
        -- neither an entry nor a name nor a number fits, so the character stands for itself
        exact .error hword (fun w => not_isName_of_identifierLength hname)
          (fun w => not_numeral_of_numberLength hnumeral) (by simp)

namespace Lexer

variable {lexer later : Lexer T} {item : Except LexicalError Token}

omit [LexemeTable T Kind] in
/-- Nothing but blanks is passed over. -/
theorem exists_blanks (lexer : Lexer T) :
    ∃ blanks, lexer.rest = blanks ++ lexer.skipBlanks.rest ∧ (∀ c ∈ blanks, Text.isBlank c) ∧
      lexer.skipBlanks.position = lexer.position + Text.byteSize blanks := by
  refine ⟨lexer.rest.takeWhile Text.isBlank, ?_, fun c hc => List.mem_takeWhile_imp hc, ?_⟩
  · rw [skipBlanks_rest, Text.trimStart, List.takeWhile_append_dropWhile]
  · rw [skipBlanks, advance, take_length_takeWhile]

/-- **One step** passes over blanks and takes what is owed to the text behind them. -/
theorem next_takes (h : Represents lexer.table entries) (hnext : lexer.next = (some item, later)) :
    ∃ blanks, lexer.rest = blanks ++ (piece item ++ later.rest) ∧
      (∀ c ∈ blanks, Text.isBlank c) ∧ place item = lexer.position + Text.byteSize blanks ∧
      piece item ≠ [] ∧ Takes entries (piece item ++ later.rest) item ∧
      later.position = stop item := by
  -- what is passed over first belongs to no item
  obtain ⟨blanks, hrest, hblanks, hposition⟩ := lexer.exists_blanks
  have htable : lexer.skipBlanks.table = lexer.table := rfl
  refine ⟨blanks, ?_⟩
  rw [hrest]
  simp only [next] at hnext
  split at hnext
  case h_1 n kind hlexeme =>
    obtain ⟨hitem, rfl⟩ := Prod.mk.inj hnext
    obtain rfl := Option.some.inj hitem
    -- a lexeme is cut off the text behind the blanks
    obtain ⟨hpos, hle⟩ := lexeme?_bounds hlexeme
    have hsplit : piece (.ok ⟨kind, String.ofList (lexer.skipBlanks.rest.take n),
        lexer.skipBlanks.position⟩) ++ (lexer.skipBlanks.advance n).rest =
        lexer.skipBlanks.rest := by
      simp [piece, advance]
    rw [hsplit]
    refine ⟨rfl, hblanks, hposition, ?_, ?_, ?_⟩
    · rw [piece, String.toList_ofList]
      exact List.ne_nil_of_length_pos (by rw [List.length_take]; omega)
    · exact takes_of_lexeme? (htable ▸ h) hlexeme _
    · simp [stop, piece, place, advance]
  case h_2 c text hchar hlexeme =>
    -- no lexeme fits, and a single character is taken
    obtain ⟨hitem, rfl⟩ := Prod.mk.inj hnext
    obtain rfl := Option.some.inj hitem
    rw [hchar] at hlexeme ⊢
    refine ⟨by simp [piece, advance, hchar], hblanks, hposition, by simp [piece], ?_, ?_⟩
    · simpa [piece, advance, hchar] using takes_of_lexeme?_eq_none (htable ▸ h) hlexeme _
    · simp [stop, piece, place, advance, hchar]
  case h_3 => simp at hnext

/-- **A run** cuts all of the text. -/
theorem cut_items (h : Represents lexer.table entries) :
    Cut entries lexer.position lexer.rest lexer.items := by
  fun_induction items lexer with
  | case1 lexer item later hnext ih =>
    obtain ⟨blanks, hrest, hblanks, hplace, hne, htakes, hposition⟩ := next_takes h hnext
    rw [hrest]
    have hlater := ih (table_of_next hnext ▸ h)
    exact .item hblanks hplace hne htakes (hposition ▸ hlater)
  | case2 lexer later hnext =>
    refine .blank fun c hc => ?_
    have hnil := trimStart_eq_nil_of_next hnext
    exact List.dropWhile_eq_nil_iff.1 hnil c hc

end Lexer

end Step

/-! ### What a cut says -/

namespace Cut

variable {entries : List (String × Kind)} {n : Nat} {text : List Char}
variable {items : List (Except LexicalError Token)}

/-- An item stands behind the bytes in front of its characters. -/
theorem sliced (h : Cut entries n text items) {item : Except LexicalError Token}
    (hitem : item ∈ items) :
    ∃ front rest, text = front ++ (Lexer.piece item ++ rest) ∧
      Lexer.place item = n + Text.byteSize front ∧ Lexer.piece item ≠ [] ∧
      Takes entries (Lexer.piece item ++ rest) item := by
  induction h with
  | blank => simp at hitem
  | @item n blanks rest first items hblanks hplace hne htakes hrest ih =>
    rcases List.mem_cons.1 hitem with rfl | hlater
    · exact ⟨blanks, rest, rfl, hplace, hne, htakes⟩
    · obtain ⟨front, rest', rfl, hplace', hne', htakes'⟩ := ih hlater
      refine ⟨blanks ++ (Lexer.piece first ++ front), rest', by simp, ?_, hne', htakes'⟩
      rw [hplace', Lexer.stop, hplace, Text.byteSize_append, Text.byteSize_append]
      omega

/-- No item ends behind the place where the next one starts. -/
theorem disjoint (h : Cut entries n text items) :
    items.Pairwise fun a b => Lexer.stop a ≤ Lexer.place b := by
  induction h with
  | blank => exact .nil
  | item hblanks hplace hne htakes hrest ih =>
    refine .cons (fun b hb => ?_) ih
    obtain ⟨front, rest, -, hplace', -⟩ := hrest.sliced hb
    omega

/-- Items take at least a byte, so their places increase. -/
theorem increasing (h : Cut entries n text items) :
    items.Pairwise fun a b => Lexer.place a < Lexer.place b := by
  refine h.disjoint.imp_of_mem fun {a b} ha _ hle => ?_
  obtain ⟨-, -, -, -, hne, -⟩ := h.sliced ha
  have hsize : Text.byteSize (Lexer.piece a) ≠ 0 := mt Text.byteSize_eq_zero_iff.1 hne
  rw [Lexer.stop] at hle
  omega

/-- There are no more items than bytes. -/
theorem length_le (h : Cut entries n text items) : items.length ≤ Text.byteSize text := by
  induction h with
  | blank => simp
  | item hblanks hplace hne htakes hrest ih =>
    have hsize := mt Text.byteSize_eq_zero_iff.1 hne
    rw [List.length_cons, Text.byteSize_append, Text.byteSize_append]
    omega

/-- **Nothing is left out**: a character is a blank or within an item. -/
theorem covered (h : Cut entries n text items) {front back : List Char} {c : Char}
    (hsplit : text = front ++ c :: back) :
    Text.isBlank c ∨ ∃ item ∈ items, Lexer.place item ≤ n + Text.byteSize front ∧
      n + Text.byteSize front + c.utf8Size ≤ Lexer.stop item := by
  induction h generalizing front with
  | blank hblank => exact .inl (hblank c (by simp [hsplit]))
  | @item n blanks rest item items hblanks hplace hne htakes hrest ih =>
    -- the character is a blank in front of the first item, or in it, or behind it
    rcases append_eq_append_cons hsplit with ⟨_, hblank, -⟩ | ⟨front, rfl, hbehind⟩
    · exact .inl (hblanks c (by simp [hblank]))
    rcases append_eq_append_cons hbehind with ⟨after, hpiece, -⟩ | ⟨front, rfl, hlater⟩
    · -- the character is in the first item
      refine .inr ⟨item, List.mem_cons_self, ?_, ?_⟩
      · rw [hplace, Text.byteSize_append]
        omega
      · rw [Lexer.stop, hplace, hpiece]
        simp only [Text.byteSize_append, Text.byteSize_cons]
        omega
    · -- the items behind start where the first one ends
      have hfront : n + Text.byteSize (blanks ++ (Lexer.piece item ++ front)) =
          Lexer.stop item + Text.byteSize front := by
        rw [Lexer.stop, hplace, Text.byteSize_append, Text.byteSize_append]
        omega
      rw [hfront]
      refine (ih hlater).imp_right fun ⟨later, hmem, hwithin⟩ => ?_
      exact ⟨later, List.mem_cons_of_mem _ hmem, hwithin⟩

end Cut

/-! ### Asking again and again -/

namespace Lexer

variable {T : Type*} [LexemeTable T Kind]

/-- The lexer when it has been asked `k` times. -/
def after (lexer : Lexer T) : Nat → Lexer T
  | 0 => lexer
  | k + 1 => lexer.next.2.after k

theorem table_next (lexer : Lexer T) : lexer.next.2.table = lexer.table := by
  simp only [next]
  split
  case h_1 => rfl
  case h_2 => rfl
  case h_3 => rfl

theorem table_after (lexer : Lexer T) (k : Nat) : (lexer.after k).table = lexer.table := by
  induction k generalizing lexer with
  | zero => rfl
  | succ k ih => rw [after, ih, table_next]

/-- At the end of a text there is nothing to be had. -/
theorem items_of_rest_eq_nil {lexer : Lexer T} (h : lexer.rest = []) : lexer.items = [] := by
  rcases hnext : lexer.next with ⟨_ | item, later⟩
  · exact items_eq_nil hnext
  · have hlt := next_rest_length_lt hnext
    simp [h] at hlt

/-- A lexer without an item comes to the end of the text. -/
theorem rest_of_next {lexer later : Lexer T} (h : lexer.next = (none, later)) :
    later.rest = [] := by
  simp only [next] at h
  split at h
  case h_1 => simp at h
  case h_2 => simp at h
  case h_3 hrest _ =>
    obtain ⟨-, rfl⟩ := Prod.mk.inj h
    exact hrest

/-- **Being asked once** brings the first item and leaves the others, if there are any. -/
theorem next_eq_head (lexer : Lexer T) :
    lexer.next.1 = lexer.items.head? ∧ lexer.next.2.items = lexer.items.tail := by
  rcases hnext : lexer.next with ⟨_ | item, later⟩
  · rw [items_eq_nil hnext, items_of_rest_eq_nil (rest_of_next hnext)]
    exact ⟨rfl, rfl⟩
  · rw [items_eq_cons hnext]
    exact ⟨rfl, rfl⟩

/-- **What is still to come** after `k` questions. -/
theorem items_after (lexer : Lexer T) (k : Nat) : (lexer.after k).items = lexer.items.drop k := by
  induction k generalizing lexer with
  | zero => rfl
  | succ k ih => rw [after, ih, lexer.next_eq_head.2, List.drop_tail]

end Lexer

/-! ### The partition -/

/-- **The items of a lexer partition the text**, and asking for them again and again delivers them
one by one, and then nothing any more. -/
structure Partitions {T : Type*} [LexemeTable T Kind] (entries : List (String × Kind)) (s : String)
    (lexer : Lexer T) : Prop where
  delivered : ∀ k, (lexer.after k).next.1 = lexer.items[k]?
  /-- What is still to come at any moment are at most as many items as bytes remain. -/
  bounded : ∀ k, (lexer.items.drop k).length ≤ (lexer.after k).remaining
  increasing : lexer.items.Pairwise fun a b => Lexer.place a < Lexer.place b
  disjoint : lexer.items.Pairwise fun a b => Lexer.stop a ≤ Lexer.place b
  /-- An item has at least one character, consists of those at its place, and takes what is owed to
  the text from there on. -/
  sliced : ∀ item ∈ lexer.items, ∃ front rest, s.toList = front ++ (Lexer.piece item ++ rest) ∧
    Lexer.place item = Text.byteSize front ∧ Lexer.piece item ≠ [] ∧
    Takes entries (Lexer.piece item ++ rest) item
  /-- A character that is in no item is a blank. -/
  covered : ∀ front c back, s.toList = front ++ c :: back → Text.isBlank c ∨
    ∃ item ∈ lexer.items, Lexer.place item ≤ Text.byteSize front ∧
      Text.byteSize front + c.utf8Size ≤ Lexer.stop item

theorem Represents.partitions {T : Type*} [LexemeTable T Kind] {table : T}
    {entries : List (String × Kind)} (h : Represents table entries) (s : String) :
    Partitions entries s (Lexer.ofString table s) := by
  have htable : Represents (Lexer.ofString table s).table entries := h
  have hcut : Cut entries 0 s.toList (Lexer.ofString table s).items := Lexer.cut_items htable
  refine ⟨fun k => ?_, fun k => ?_, hcut.increasing, hcut.disjoint, fun item hitem => ?_,
    fun front c back hsplit => ?_⟩
  · rw [(Lexer.next_eq_head _).1, Lexer.items_after, List.head?_drop]
  · rw [← Lexer.items_after]
    rw [← Lexer.table_after _ k] at htable
    exact (Lexer.cut_items htable).length_le
  · simpa using hcut.sliced hitem
  · simpa using hcut.covered hsplit

/-- **Lexing partitions the text**, whatever the text is and whatever entries the table is made of,
and also whichever store or hash function it uses. -/
theorem lexing_partitions {M : Type → Type} [PrefixStore M] [LawfulPrefixStore M]
    [Hashable String] (entries : List (String × Kind)) (s : String) :
    Partitions entries s (Lexer.ofString (StoreTable.ofList entries : StoreTable M Kind) s) ∧
      Partitions entries s (Lexer.ofString (HashTable.ofList entries) s) ∧
      Partitions entries s (Lexer.ofString (Trie.ofList entries) s) :=
  ⟨(represents_storeTable entries).partitions s, (represents_hashTable entries).partitions s,
    (represents_trie entries).partitions s⟩

/-- A dangling point behind a numeral is an error of its own, also behind words that take more than
one byte and overlap. -/
theorem lexing_partitions_overlapping :
    let entries : List (String × Kind) := [("é", .operator), ("2éé", .function)]
    let lexer := Lexer.ofString (StoreTable.ofList entries : StoreTable AssocStore Kind) " é2é 3.é"
    Partitions entries " é2é 3.é" lexer ∧
      lexer.items[4]? = some (.error (.unexpectedChar '.' 8)) := by
  intro entries lexer
  have hpartitions := (@lexing_partitions AssocStore _ _ ⟨fnv1a⟩ entries " é2é 3.é").1
  refine ⟨hpartitions, ?_⟩
  rw [← hpartitions.delivered 4]
  decide +kernel

end Formula
