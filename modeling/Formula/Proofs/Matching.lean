import Formula.Lexeme.Store
import Formula.Lexeme.Trie
import Mathlib.Data.List.Infix

/-!
# Longest matches

What a lookup at the start of a text is to find: the longest prefix of the text that has a value
(`LongestMatch`). It does not depend on how the values are kept, and there is only one
(`LongestMatch.unique`). Longer texts are matched by going on with the matches of shorter ones
(`LongestMatch.extend`, `LongestMatch.snoc`).

What a table has been made of are entries, and it holds the last one for each word
(`entryValue?`, `find_foldl`). A trie finds the longest match among them (`Trie.longestMatch`,
`Trie.find?_ofList`).
-/

namespace Formula

variable {V : Type*}

/-! ### Longest matches -/

/-- **What a lookup finds at the start of a text**: the longest prefix with a value, its length and
the value, or nothing if no prefix has one. -/
inductive LongestMatch (find : List Char → Option V) (text : List Char) :
    Option (Nat × V) → Prop
  | none (h : ∀ word, word <+: text → find word = .none) : LongestMatch find text .none
  | some {word : List Char} {v : V} (hstart : word <+: text) (hfind : find word = .some v)
      (hlonger : ∀ longer, longer <+: text → word.length < longer.length → find longer = .none) :
      LongestMatch find text (.some (word.length, v))

namespace LongestMatch

variable {find find' : List Char → Option V} {text : List Char} {found found' : Option (Nat × V)}

/-- **There is one longest match.** -/
theorem unique (h : LongestMatch find text found) (h' : LongestMatch find text found') :
    found = found' := by
  cases h with
  | none hnone =>
    cases h' with
    | none => rfl
    | some hstart hfind _ => simp [hnone _ hstart] at hfind
  | @some word v hstart hfind hlonger =>
    cases h' with
    | none hnone => simp [hnone _ hstart] at hfind
    | @some word' v' hstart' hfind' hlonger' =>
      -- a longer one of the two would be a match that the other has ruled out
      have hlength : word.length = word'.length := by
        rcases Nat.lt_trichotomy word.length word'.length with hlt | heq | hlt
        · simp [hlonger _ hstart' hlt] at hfind'
        · exact heq
        · simp [hlonger' _ hstart hlt] at hfind
      obtain rfl : word = word' :=
        (List.prefix_of_prefix_length_le hstart hstart' hlength.le).eq_of_length hlength
      rw [hfind] at hfind'
      rw [Option.some.inj hfind']

/-- Only the values of prefixes of the text matter. -/
theorem congr (h : LongestMatch find text found)
    (heq : ∀ word, word <+: text → find word = find' word) : LongestMatch find' text found := by
  cases h with
  | none hnone => exact .none fun word hword => heq word hword ▸ hnone word hword
  | some hstart hfind hlonger =>
    exact .some hstart (heq _ hstart ▸ hfind)
      fun longer hstart' hlt => heq longer hstart' ▸ hlonger longer hstart' hlt

/-- The match stays the same if nothing with a value goes on beyond the text. -/
theorem extend {c : Char} {rest : List Char} (h : LongestMatch find text found)
    (hbeyond : ∀ word, text ++ [c] <+: word → word <+: text ++ c :: rest → find word = .none) :
    LongestMatch find (text ++ c :: rest) found := by
  -- a prefix of the longer text either ends within `text` or goes on with `c`
  have hsplit {word : List Char} (hword : word <+: text ++ c :: rest) :
      word <+: text ∨ text ++ [c] <+: word := by
    by_cases hle : word.length ≤ text.length
    · exact .inl (List.prefix_of_prefix_length_le hword (List.prefix_append ..) hle)
    · refine .inr (List.prefix_of_prefix_length_le ?_ hword ?_)
      · simp
      · simp
        omega
  cases h with
  | none hnone =>
    refine .none fun word hword => ?_
    rcases hsplit hword with hwithin | hacross
    · exact hnone word hwithin
    · exact hbeyond word hacross hword
  | some hstart hfind hlonger =>
    refine .some (hstart.trans (List.prefix_append ..)) hfind fun longer hlong hlt => ?_
    rcases hsplit hlong with hwithin | hacross
    · exact hlonger longer hwithin hlt
    · exact hbeyond longer hacross hlong

/-- One more character is matched as a whole with the text, or does not count. -/
theorem snoc (h : LongestMatch find text found) (c : Char) :
    LongestMatch find (text ++ [c])
      (((find (text ++ [c])).map ((text ++ [c]).length, ·)).or found) := by
  cases hfind : find (text ++ [c]) with
  | none =>
    refine h.extend fun word hacross hword => ?_
    rwa [hword.eq_of_length_le hacross.length_le]
  | some v =>
    refine .some (List.prefix_refl _) hfind fun longer hstart hlt => ?_
    have := hstart.length_le
    omega

end LongestMatch

/-! ### What a table holds -/

/-- The value of the last entry for a word. -/
def lastValue? (entries : List (String × V)) (word : String) : Option V :=
  entries.reverse.lookup word

theorem lastValue?_eq_none_iff {entries : List (String × V)} {word : String} :
    lastValue? entries word = none ↔ ∀ entry ∈ entries, entry.1 ≠ word := by
  simp only [lastValue?, List.lookup_eq_none_iff, List.mem_reverse, bne_iff_ne, ne_comm]

/-- What a table of the entries holds for a word: nothing for the empty one, and else the value of
the last entry for it. -/
def entryValue? (entries : List (String × V)) (word : List Char) : Option V :=
  if word = [] then none else lastValue? entries (String.ofList word)

theorem entryValue?_append_singleton (entries : List (String × V)) (entry : String × V)
    (word : List Char) :
    entryValue? (entries ++ [entry]) word =
      if entry.1.toList ≠ [] ∧ word = entry.1.toList then some entry.2
      else entryValue? entries word := by
  have hword : String.ofList word = entry.1 ↔ word = entry.1.toList := by
    rw [← String.toList_inj, String.toList_ofList]
  rw [entryValue?, lastValue?, List.reverse_append, List.reverse_singleton, List.singleton_append,
    lookup_cons_eq_ite, entryValue?, lastValue?]
  by_cases hnil : word = []
  · rw [if_pos hnil, if_pos hnil, if_neg (by rintro ⟨hne, heq⟩; exact hne (heq ▸ hnil))]
  · by_cases heq : word = entry.1.toList
    · simp [hnil, hword.2 heq, ← heq]
    · simp [hnil, hword, heq]

theorem entryValue?_ne_none {entries : List (String × V)} {entry : String × V}
    (hmem : entry ∈ entries) (hne : entry.1 ≠ "") : entryValue? entries entry.1.toList ≠ none := by
  rw [entryValue?, if_neg (by simpa using hne), String.ofList_toList, ne_eq,
    lastValue?_eq_none_iff]
  exact fun h => h entry hmem rfl

theorem mem_of_entryValue? {entries : List (String × V)} {word : List Char} {v : V}
    (h : entryValue? entries word = some v) : (String.ofList word, v) ∈ entries := by
  rw [entryValue?] at h
  split at h
  case isTrue => simp at h
  case isFalse =>
    obtain ⟨later, earlier, hsplit, -⟩ := List.lookup_eq_some_iff.1 h
    rw [← List.mem_reverse, hsplit]
    simp

/-- **A table made entry by entry** holds what its entries give. -/
theorem find_foldl {T : Type*} {insert : T → List Char → V → T} {find : T → List Char → Option V}
    {empty : T} (hempty : ∀ word, find empty word = none)
    (hinsert : ∀ table word v other, find (insert table word v) other =
      if word ≠ [] ∧ other = word then some v else find table other)
    (entries : List (String × V)) (word : List Char) :
    find (entries.foldl (fun table entry => insert table entry.1.toList entry.2) empty) word =
      entryValue? entries word := by
  induction entries using List.reverseRecOn with
  | nil => simp [hempty, entryValue?, lastValue?]
  | append_singleton entries entry ih =>
    rw [List.foldl_append, List.foldl_cons, List.foldl_nil, hinsert, ih,
      entryValue?_append_singleton]

/-! ### Tries -/

namespace Trie

/-- **A trie finds the longest match.** -/
theorem longestMatch (table : Trie V) (text : List Char) :
    LongestMatch table.find? text (table.longest? text) := by
  fun_induction longest? table text with
  | case1 text => exact .none fun word _ => by rw [find?]
  | case2 e value child sibling =>
    refine .none fun word hword => ?_
    rw [List.prefix_nil.1 hword, find?_nil]
  | case3 value child sibling c text n v hdeep ih =>
    -- a match further down is a match here, with this character in front
    rw [hdeep] at ih
    cases ih with
    | @some word v hstart hfind hlonger =>
      refine .some ((List.prefix_cons_inj c).2 hstart) ?_ ?_
      · have hne : word ≠ [] := by
          rintro rfl
          simp at hfind
        simpa [find?, hne] using hfind
      · rintro (_ | ⟨d, longer⟩) hlong hlt
        · simp
        · obtain ⟨rfl, hrest⟩ := List.cons_prefix_cons.1 hlong
          have hlt : word.length < longer.length := by simpa using hlt
          have hne : longer ≠ [] := List.ne_nil_of_length_pos (by omega)
          simpa [find?, hne] using hlonger longer hrest hlt
  | case4 value child sibling c text hdeep ih =>
    rw [hdeep] at ih
    cases ih with
    | none hnone =>
      -- no word goes on, so only the one that ends at this node can match
      have hfind {word : List Char} (hword : word <+: text) (hne : word ≠ []) :
          (node c value child sibling).find? (c :: word) = none := by
        simpa [find?, hne] using hnone word hword
      cases hvalue : value with
      | none =>
        refine .none ?_
        rintro (_ | ⟨d, word⟩) hword
        · simp
        · obtain ⟨rfl, hrest⟩ := List.cons_prefix_cons.1 hword
          by_cases hne : word = []
          · simp [find?, hne]
          · exact hvalue ▸ hfind hrest hne
      | some v =>
        have hstart : [c] <+: c :: text := by simp
        refine .some hstart (by simp [find?]) ?_
        rintro (_ | ⟨d, longer⟩) hlong hlt
        · simp
        · obtain ⟨rfl, hrest⟩ := List.cons_prefix_cons.1 hlong
          exact hvalue ▸ hfind hrest (List.ne_nil_of_length_pos (by simpa using hlt))
  | case5 e value child sibling c text hne ih =>
    -- the text does not start with this character, so only the siblings count
    refine ih.congr ?_
    rintro (_ | ⟨d, word⟩) hword
    · simp
    · obtain ⟨rfl, -⟩ := List.cons_prefix_cons.1 hword
      simp [find?, hne]

/-- Storing the empty word changes nothing. -/
theorem insert_nil (table : Trie V) (v : V) : table.insert [] v = table := by
  cases table <;> rfl

theorem find?_ofList (entries : List (String × V)) (word : List Char) :
    (ofList entries).find? word = entryValue? entries word := by
  refine find_foldl (fun word => by rw [find?]) (fun table word v other => ?_) entries word
  by_cases hword : word = []
  · rw [hword, insert_nil, if_neg (by simp)]
  · rw [find?_insert hword]
    simp [hword]

/-- **A match is a word** that the trie was made of. -/
theorem mem_of_longest? {entries : List (String × V)} {text : List Char} {n : Nat} {v : V}
    (h : (ofList entries).longest? text = some (n, v)) :
    (String.ofList (text.take n), v) ∈ entries := by
  have hmatch := longestMatch (ofList entries) text
  rw [h] at hmatch
  cases hmatch with
  | @some word v hstart hfind _ =>
    rw [← List.prefix_iff_eq_take.1 hstart]
    exact mem_of_entryValue? ((find?_ofList entries word).symm.trans hfind)

theorem longest?_take_eq_none {table : Trie V} {text : List Char}
    (h : table.longest? text = none) (n : Nat) : table.longest? (text.take n) = none := by
  have hmatch := longestMatch table text
  rw [h] at hmatch
  cases hmatch with
  | none hnone =>
    refine (longestMatch table (text.take n)).unique (.none fun word hword => ?_)
    exact hnone word (hword.trans (List.take_prefix n text))

end Trie

end Formula
