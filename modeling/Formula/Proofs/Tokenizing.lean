import Formula.Lexer
import Formula.Proofs.Matching
import Formula.Proofs.Phrase
import Mathlib.Data.List.TakeWhile

/-!
# What the lexer delivers

A token is a word of the table with the kind that the table gives it, or a name or a numeral that no
word of the table starts (`Token.Legal`, `legal_of_mem_tokenize`). This says nothing about the text
that the token was found in. An operator is thus always one of the words that the table has as
operators, and with the builtin table that is an operator of arithmetic (`arithmetic_tokenize`).

A text that is read without an error has at least one token (`tokenize_ne_nil`): there is either
something in it that is not blank, or an error for that.
-/

namespace Formula

/-! ### Names and numerals -/

/-- The operators of the builtin table are those of arithmetic. -/
theorem isArithmetic_of_mem_builtinLexemes {t : Token} (hkind : t.kind = .operator)
    (h : (t.text, t.kind) ∈ builtinLexemes) : t.isArithmetic := by
  rw [hkind] at h
  simpa [builtinLexemes, Token.isArithmetic, Token.isOperatorIn, hkind] using h

/-- A letter or an underscore, and then letters, digits and underscores. -/
def IsName (w : List Char) : Prop :=
  ∃ c cs, w = c :: cs ∧ startsIdentifier c ∧ ∀ d ∈ cs, continuesIdentifier d

/-- Digits, perhaps with a point and more digits behind them. -/
inductive Numeral : List Char → Prop
  | whole {ds : List Char} (hne : ds ≠ []) (hds : ∀ d ∈ ds, d.isDigit) : Numeral ds
  | decimal {ds fs : List Char} (hne : ds ≠ []) (hds : ∀ d ∈ ds, d.isDigit) (hne' : fs ≠ [])
      (hfs : ∀ d ∈ fs, d.isDigit) : Numeral (ds ++ '.' :: fs)

theorem take_length_takeWhile (p : Char → Bool) (text : List Char) :
    text.take (text.takeWhile p).length = text.takeWhile p :=
  (List.prefix_iff_eq_take.1 (List.takeWhile_prefix p)).symm

/-- What is measured as a name is one. -/
theorem isName_take {text : List Char} (h : 0 < identifierLength text) :
    IsName (text.take (identifierLength text)) := by
  cases text with
  | nil => simp [identifierLength] at h
  | cons c cs =>
    rw [identifierLength] at h ⊢
    split at h
    case isFalse => simp at h
    case isTrue hc =>
      rw [if_pos hc, Nat.add_comm, List.take_succ_cons, take_length_takeWhile]
      exact ⟨c, _, rfl, hc, fun d hd => List.mem_takeWhile_imp hd⟩

/-- What is measured as a number is a numeral. -/
theorem numeral_take {text : List Char} (h : 0 < numberLength text) :
    Numeral (text.take (numberLength text)) := by
  -- no fraction: the first run of digits is the whole numeral
  have hwhole (hpos : 0 < (text.takeWhile Char.isDigit).length) :
      Numeral (text.take (text.takeWhile Char.isDigit).length) := by
    rw [take_length_takeWhile]
    exact .whole (List.ne_nil_of_length_pos hpos) fun d hd => List.mem_takeWhile_imp hd
  simp only [numberLength] at h ⊢
  split at h
  case h_2 => exact hwhole h
  case h_1 rest hrest =>
    split at h
    case isTrue hnone =>
      rw [if_pos hnone]
      exact hwhole h
    case isFalse hsome =>
      rw [if_neg hsome]
      obtain ⟨hne, hne'⟩ := not_or.1 hsome
      have hdigits : ∀ d ∈ text.takeWhile Char.isDigit, d.isDigit :=
        fun d hd => List.mem_takeWhile_imp hd
      have hfirst := take_length_takeWhile Char.isDigit text
      have hsplit := List.take_append_drop (text.takeWhile Char.isDigit).length text
      rw [hfirst, hrest] at hsplit
      generalize text.takeWhile Char.isDigit = ds at hne hdigits hsplit ⊢
      -- the point and its digits are behind the first run
      have htake : text.take (ds.length + 1 + (rest.takeWhile Char.isDigit).length) =
          ds ++ '.' :: rest.takeWhile Char.isDigit := by
        rw [← hsplit, Nat.add_assoc, List.take_length_add_append, Nat.add_comm 1,
          List.take_succ_cons, take_length_takeWhile]
      rw [htake]
      exact .decimal (by simpa using hne) hdigits (by simpa using hne')
        fun d hd => List.mem_takeWhile_imp hd

/-- No name at the start of a text is longer than what is measured. -/
theorem IsName.length_le {w text : List Char} (h : IsName w) (hstart : w <+: text) :
    w.length ≤ identifierLength text := by
  obtain ⟨c, cs, rfl, hc, hcs⟩ := h
  obtain ⟨rest, rfl⟩ := hstart
  rw [List.cons_append, identifierLength, if_pos hc,
    List.takeWhile_append_of_pos hcs, List.length_append, List.length_cons]
  omega

theorem length_takeWhile_le_numberLength (text : List Char) :
    (text.takeWhile Char.isDigit).length ≤ numberLength text := by
  simp only [numberLength]
  split
  case h_1 => split <;> omega
  case h_2 => exact le_rfl

/-- No numeral at the start of a text is longer than what is measured. -/
theorem Numeral.length_le {w text : List Char} (h : Numeral w) (hstart : w <+: text) :
    w.length ≤ numberLength text := by
  obtain ⟨rest, rfl⟩ := hstart
  cases h with
  | whole hne hds =>
    -- more digits may follow the numeral, which only makes the run longer
    refine le_trans ?_ (length_takeWhile_le_numberLength _)
    rw [List.takeWhile_append_of_pos hds, List.length_append]
    omega
  | @decimal ds fs hne hds hne' hfs =>
    -- the point ends the first run, so the digits behind it are counted apart
    have hwhole : (ds ++ '.' :: fs ++ rest).takeWhile Char.isDigit = ds := by
      rw [List.append_assoc, List.takeWhile_append_of_pos hds]
      simp
    have hfraction : ((fs ++ rest).takeWhile Char.isDigit).length =
        fs.length + (rest.takeWhile Char.isDigit).length := by
      rw [List.takeWhile_append_of_pos hfs, List.length_append]
    have hlength : ds.length ≠ 0 ∧ fs.length ≠ 0 := by simp [hne, hne']
    rw [numberLength, hwhole, List.append_assoc, List.drop_left, List.cons_append]
    simp only [hfraction]
    rw [if_neg (by omega), List.length_append, List.length_cons]
    omega

theorem IsName.identifierLength_eq {w : List Char} (h : IsName w) :
    identifierLength w = w.length :=
  le_antisymm (identifierLength_le w) (h.length_le (List.prefix_refl w))

theorem Numeral.numberLength_eq {w : List Char} (h : Numeral w) : numberLength w = w.length :=
  le_antisymm (numberLength_le w) (h.length_le (List.prefix_refl w))

/-! ### Legal tokens -/

/-- **What a token of a formula can be**: a word of the table, or a name or a numeral that no word
of the table starts. -/
inductive Token.Legal (t : Token) : Prop
  | word (h : (t.text, t.kind) ∈ builtinLexemes)
  | name (hkind : t.kind = .variable) (hword : builtinTable.longest? t.text.toList = none)
      (h : IsName t.text.toList)
  | numeral (hkind : t.kind = .number) (hword : builtinTable.longest? t.text.toList = none)
      (h : Numeral t.text.toList)

/-- What the lexer finds is legal. -/
theorem legal_of_lexeme? {text : List Char} {n : Nat} {t : Token}
    (h : lexeme? builtinTable text = some (n, t.kind))
    (htext : t.text = String.ofList (text.take n)) : t.Legal := by
  have hchars : t.text.toList = text.take n := by rw [htext, String.toList_ofList]
  unfold lexeme? at h
  split at h
  case h_1 found hfound =>
    -- the table comes first
    obtain rfl := Option.some.inj h
    have hmem := Trie.mem_of_longest? hfound
    rw [← htext] at hmem
    exact .word hmem
  case h_2 hnone =>
    -- what the table does not know of the text, it does not know of a part of it either
    have hword : builtinTable.longest? t.text.toList = none := by
      rw [hchars]
      exact Trie.longest?_take_eq_none hnone n
    split at h
    case isTrue hpos =>
      obtain ⟨rfl, hkind⟩ := Prod.mk.inj (Option.some.inj h)
      exact .name hkind.symm hword (hchars ▸ isName_take hpos)
    case isFalse =>
      split at h
      case isTrue hpos =>
        obtain ⟨rfl, hkind⟩ := Prod.mk.inj (Option.some.inj h)
        exact .numeral hkind.symm hword (hchars ▸ numeral_take hpos)
      case isFalse => simp at h

/-! ### Items of the lexer -/

namespace Lexer

variable {T : Type*} [LexemeTable T Kind]

/-- The table stays the same. -/
theorem table_of_next {lexer later : Lexer T} {item : Except LexicalError Token}
    (h : lexer.next = (some item, later)) : later.table = lexer.table := by
  simp only [next] at h
  split at h
  case h_1 =>
    obtain ⟨-, rfl⟩ := Prod.mk.inj h
    rfl
  case h_2 =>
    obtain ⟨-, rfl⟩ := Prod.mk.inj h
    rfl
  case h_3 => simp at h

/-- A token is what the table finds at the start of some text. -/
theorem exists_lexeme_of_next {lexer later : Lexer T} {t : Token}
    (h : lexer.next = (some (.ok t), later)) :
    ∃ text n, lexeme? lexer.table text = some (n, t.kind) ∧
      t.text = String.ofList (text.take n) := by
  simp only [next] at h
  split at h
  case h_1 n kind hlexeme =>
    obtain ⟨hitem, -⟩ := Prod.mk.inj h
    obtain rfl := Except.ok.inj (Option.some.inj hitem)
    exact ⟨_, n, hlexeme, rfl⟩
  case h_2 => simp at h
  case h_3 => simp at h

/-- Every token is a lexeme of the table in use. -/
theorem exists_lexeme_of_mem_items {lexer : Lexer T} {t : Token}
    (h : .ok t ∈ lexer.items) :
    ∃ text n, lexeme? lexer.table text = some (n, t.kind) ∧
      t.text = String.ofList (text.take n) := by
  fun_induction items lexer with
  | case1 lexer item later hnext ih =>
    rcases List.mem_cons.1 h with rfl | hlater
    · exact exists_lexeme_of_next hnext
    · obtain ⟨text, n, hlexeme, htext⟩ := ih hlater
      exact ⟨text, n, table_of_next hnext ▸ hlexeme, htext⟩
  | case2 => simp at h

/-- There is no further item only where nothing but blanks is left. -/
theorem trimStart_eq_nil_of_next {lexer later : Lexer T} (h : lexer.next = (none, later)) :
    Text.trimStart lexer.rest = [] := by
  rw [← skipBlanks_rest]
  simp only [next] at h
  split at h
  case h_1 => simp at h
  case h_2 => simp at h
  case h_3 hrest _ => exact hrest

/-- A text that does not start with a blank has an item. -/
theorem items_ne_nil {lexer : Lexer T} {c : Char} {text : List Char}
    (hrest : lexer.rest = c :: text) (hc : ¬ Text.isBlank c) : lexer.items ≠ [] := by
  rw [items]
  split
  case h_1 => simp
  case h_2 hnext =>
    have hnil := trimStart_eq_nil_of_next hnext
    rw [hrest, Text.trimStart, List.dropWhile_cons_of_neg hc] at hnil
    simp at hnil

end Lexer

/-! ### Reading a formula -/

theorem Text.not_isBlank_of_trim {text cs : List Char} {c : Char} (h : trim text = c :: cs) :
    ¬ isBlank c := by
  -- trimming at the end leaves the start as it is
  have hprefix : trim text <+: trimStart text := by
    have hsuffix := List.dropWhile_suffix (l := (trimStart text).reverse) isBlank
    rw [← List.reverse_prefix, List.reverse_reverse] at hsuffix
    exact hsuffix
  rw [h] at hprefix
  obtain ⟨ts, hts⟩ := hprefix
  have hhead := List.head?_dropWhile_not isBlank text
  rw [show text.dropWhile isBlank = c :: (cs ++ ts) from hts.symm] at hhead
  simpa using hhead

theorem Lexing.ok_mem_of_mem_tokens {items : List (Except LexicalError Token)} {t : Token}
    (h : t ∈ (ofItems items).tokens) : .ok t ∈ items := by
  induction items with
  | nil => simp [ofItems] at h
  | cons item items ih =>
    cases item with
    | ok u =>
      rcases List.mem_cons.1 h with rfl | h
      · exact List.mem_cons_self
      · exact List.mem_cons_of_mem _ (ih h)
    | error e => exact List.mem_cons_of_mem _ (ih h)

/-- Without errors, every item is a token. -/
theorem Lexing.tokens_ne_nil {items : List (Except LexicalError Token)} (hne : items ≠ [])
    (herrors : (ofItems items).errors = []) : (ofItems items).tokens ≠ [] := by
  cases items with
  | nil => exact absurd rfl hne
  | cons item items =>
    cases item with
    | ok u => simp [ofItems]
    | error e => simp [ofItems] at herrors

/-- **The tokens of a text** are legal. -/
theorem legal_of_mem_tokenize {s : String} {t : Token} (h : t ∈ (tokenize s).tokens) : t.Legal := by
  unfold tokenize at h
  split at h
  case h_1 => simp at h
  case h_2 text _ =>
    obtain ⟨text, n, hlexeme, htext⟩ :=
      Lexer.exists_lexeme_of_mem_items (Lexing.ok_mem_of_mem_tokens h)
    exact legal_of_lexeme? hlexeme htext

/-- **The operators of a text** are those of arithmetic. -/
theorem arithmetic_tokenize (s : String) : Arithmetic (tokenize s).tokens := by
  intro t ht hkind
  cases legal_of_mem_tokenize ht with
  | word hword => exact isArithmetic_of_mem_builtinLexemes hkind hword
  -- a variable or a number is no operator
  | name hname => simp [hkind] at hname
  | numeral hnumeral => simp [hkind] at hnumeral

/-- **A text that is read without an error** has a token. -/
theorem tokenize_ne_nil {s : String} (h : (tokenize s).errors = []) : (tokenize s).tokens ≠ [] := by
  unfold tokenize at h ⊢
  split at h
  case h_1 => simp at h
  case h_2 text hne =>
    cases htrim : Text.trim s.toList with
    | nil => exact absurd htrim hne
    | cons c cs =>
      rw [htrim] at h
      exact Lexing.tokens_ne_nil (Lexer.items_ne_nil rfl (Text.not_isBlank_of_trim htrim)) h

end Formula
