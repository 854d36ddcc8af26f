import Formula.Proofs.Backends
import Formula.Proofs.NormalForm
import Formula.Proofs.Outcome

/-!
# Reading tokens again

Tokens that the lexer has delivered can be written down and read again. The lexer takes as much as
it can, so a token might grow into what is written behind it: a name or a number does if a letter, a
digit or a point follows. But blanks, operators and closing brackets stand apart (`StandsApart`),
and the words of the builtin table do not grow at all.

What stands apart from a text does not change its first lexeme (`lexeme?_append_of_standsApart`). So
legal tokens are read again as they are (`Token.Legal.lexeme?_append`), and where the lexer comes to
one of them it takes it (`Lexer.next_legal`).
-/

namespace Formula

/-! ### What stands apart -/

/-- Nothing that a name or a numeral could go on with stands at the start of the text. -/
def StandsApart (text : List Char) : Prop :=
  ∀ c ∈ text.head?, ¬ continuesIdentifier c ∧ c ≠ '.'

theorem standsApart_nil : StandsApart [] := by
  simp [StandsApart]

theorem standsApart_cons {c : Char} (hname : ¬ continuesIdentifier c) (hpoint : c ≠ '.')
    (rest : List Char) : StandsApart (c :: rest) := by
  intro d hd
  obtain rfl : c = d := by simpa using hd
  exact ⟨hname, hpoint⟩

/-- Digits by their code points. -/
theorem isDigit_iff {c : Char} : c.isDigit ↔ 48 ≤ c.toNat ∧ c.toNat ≤ 57 := by
  have hdigit : c.isDigit = (decide ('0'.val ≤ c.val) && decide (c.val ≤ '9'.val)) := rfl
  rw [hdigit, Bool.and_eq_true, decide_eq_true_eq, decide_eq_true_eq, UInt32.le_iff_toNat_le,
    UInt32.le_iff_toNat_le]
  rfl

/-- Letters by their code points. -/
theorem isAlpha_iff {c : Char} :
    c.isAlpha ↔ 65 ≤ c.toNat ∧ c.toNat ≤ 90 ∨ 97 ≤ c.toNat ∧ c.toNat ≤ 122 := by
  have halpha : c.isAlpha = (decide ('A'.val ≤ c.val ∧ c.val ≤ 'Z'.val) ||
      decide ('a'.val ≤ c.val) && decide (c.val ≤ 'z'.val)) := rfl
  simp only [halpha, Bool.or_eq_true, Bool.and_eq_true, decide_eq_true_eq,
    UInt32.le_iff_toNat_le]
  rfl

theorem continuesIdentifier_of_isDigit {c : Char} (h : c.isDigit) : continuesIdentifier c := by
  simp [continuesIdentifier, Char.isAlphanum, h]

theorem continuesIdentifier_of_startsIdentifier {c : Char} (h : startsIdentifier c) :
    continuesIdentifier c := by
  simp only [startsIdentifier, continuesIdentifier, Char.isAlphanum, Bool.or_eq_true] at h ⊢
  tauto

/-! ### Where a text ends -/

/-- A run stops at the end of a text if the text behind does not go on with it. -/
theorem takeWhile_append_of_head {p : Char → Bool} {rest : List Char}
    (hrest : ∀ c ∈ rest.head?, ¬ p c) (text : List Char) :
    (text ++ rest).takeWhile p = text.takeWhile p := by
  induction text with
  | nil =>
    cases rest with
    | nil => rfl
    | cons c rest => simp [hrest c rfl]
  | cons c text ih => simp only [List.cons_append, List.takeWhile_cons, ih]

section Apart

variable {text rest : List Char} (hne : text ≠ []) (hrest : StandsApart rest)

include hne hrest

/-- No word of the builtin table reaches from a text into what stands apart from it. -/
theorem longest?_append : builtinTable.longest? (text ++ rest) = builtinTable.longest? text := by
  cases rest with
  | nil => rw [List.append_nil]
  | cons c rest =>
    have hmatch := builtinTable.longestMatch text
    refine (builtinTable.longestMatch (text ++ c :: rest)).unique (hmatch.extend ?_)
    intro word hacross _
    by_contra hsome
    obtain ⟨kind, hkind⟩ := Option.ne_none_iff_exists'.1 hsome
    -- the word would go on with a letter
    have hmem : (String.ofList word, kind) ∈ builtinLexemes :=
      mem_of_entryValue? ((Trie.find?_ofList builtinLexemes word).symm.trans hkind)
    have hletters : ∀ entry ∈ builtinLexemes, entry.1.toList.tail.all continuesIdentifier := by
      decide +kernel
    obtain ⟨d, text, rfl⟩ := List.exists_cons_of_ne_nil hne
    obtain ⟨more, rfl⟩ := hacross
    refine (hrest c rfl).1 (List.all_eq_true.1 (hletters _ hmem) c ?_)
    simp

/-- A name at the end of the text stops there. -/
theorem identifierLength_append : identifierLength (text ++ rest) = identifierLength text := by
  obtain ⟨c, text, rfl⟩ := List.exists_cons_of_ne_nil hne
  rw [List.cons_append, identifierLength,
    takeWhile_append_of_head fun d hd => (hrest d hd).1, identifierLength]

omit hne in
/-- And so does a number. -/
theorem numberLength_append : numberLength (text ++ rest) = numberLength text := by
  have hdigit : ∀ c ∈ rest.head?, ¬ c.isDigit :=
    fun c hc hd => (hrest c hc).1 (continuesIdentifier_of_isDigit hd)
  have hle := (List.takeWhile_prefix (l := text) Char.isDigit).length_le
  rw [numberLength, numberLength, takeWhile_append_of_head hdigit,
    List.drop_append_of_le_length hle]
  generalize (text.takeWhile Char.isDigit).length = whole
  rcases text.drop whole with _ | ⟨c, more⟩
  · -- the digits end with the text, and no point follows
    rcases rest with _ | ⟨c, rest⟩
    · rfl
    · have hpoint : c ≠ '.' := (hrest c rfl).2
      simp [hpoint]
  · by_cases hc : c = '.'
    · subst hc
      simp only [List.cons_append, takeWhile_append_of_head hdigit]
    · simp [hc]

/-- **The first lexeme of a text** is the same in front of what stands apart. -/
theorem lexeme?_append_of_standsApart :
    lexeme? builtinTable (text ++ rest) = lexeme? builtinTable text := by
  have hword : LexemeTable.longest? builtinTable (text ++ rest) =
      LexemeTable.longest? builtinTable text := longest?_append hne hrest
  rw [lexeme?, lexeme?, hword, identifierLength_append hne hrest, numberLength_append hrest]

end Apart

/-! ### Reading a token again -/

/-- A word of the table is found whatever stands behind it. -/
theorem longest?_append_of_mem {word : String} {kind : Kind} (h : (word, kind) ∈ builtinLexemes)
    (rest : List Char) :
    builtinTable.longest? (word.toList ++ rest) = some (word.toList.length, kind) := by
  simp only [builtinLexemes, List.mem_cons, Prod.mk.injEq, List.not_mem_nil, or_false] at h
  rcases h with ⟨rfl, rfl⟩ | ⟨rfl, rfl⟩ | ⟨rfl, rfl⟩ | ⟨rfl, rfl⟩ | ⟨rfl, rfl⟩ | ⟨rfl, rfl⟩ |
    ⟨rfl, rfl⟩ | ⟨rfl, rfl⟩ | ⟨rfl, rfl⟩ | ⟨rfl, rfl⟩ <;> rfl

/-- What a lexeme is called is found in the table if it can be. -/
theorem lexeme?_of_longest? {text : List Char} {found : Nat × Kind}
    (h : builtinTable.longest? text = some found) : lexeme? builtinTable text = some found := by
  have htable : LexemeTable.longest? builtinTable text = some found := h
  rw [lexeme?, htable]

theorem lexeme?_of_longest?_eq_none {text : List Char} (h : builtinTable.longest? text = none) :
    lexeme? builtinTable text =
      if 0 < identifierLength text then some (identifierLength text, .variable)
      else if 0 < numberLength text then some (numberLength text, .number)
      else none := by
  have htable : LexemeTable.longest? builtinTable text = none := h
  rw [lexeme?, htable]

theorem Numeral.exists_cons {w : List Char} (h : Numeral w) :
    ∃ c cs, w = c :: cs ∧ c.isDigit := by
  cases h with
  | whole hne hds =>
    obtain ⟨c, cs, rfl⟩ := List.exists_cons_of_ne_nil hne
    exact ⟨c, cs, rfl, hds c (by simp)⟩
  | @decimal ds fs hne hds _ _ =>
    obtain ⟨c, cs, rfl⟩ := List.exists_cons_of_ne_nil hne
    exact ⟨c, cs ++ '.' :: fs, rfl, hds c (by simp)⟩

/-- No name starts with a digit. -/
theorem not_startsIdentifier_of_isDigit {c : Char} (h : c.isDigit) : ¬ startsIdentifier c := by
  intro hstart
  rw [startsIdentifier, Bool.or_eq_true, beq_iff_eq] at hstart
  rcases hstart with halpha | rfl
  · rw [isDigit_iff] at h
    rw [isAlpha_iff] at halpha
    omega
  · exact absurd h (by decide)

/-- **A legal token is read again** in front of anything if it is no operand, and in front of what
stands apart if it is one. -/
theorem Token.Legal.lexeme?_append {t : Token} (h : t.Legal) {rest : List Char}
    (hrest : t.isOperand → StandsApart rest) :
    lexeme? builtinTable (t.text.toList ++ rest) = some (t.text.toList.length, t.kind) := by
  cases h with
  | word hword => exact lexeme?_of_longest? (longest?_append_of_mem hword rest)
  | name hkind hword hname =>
    -- a name must not run on into what follows
    have hapart := hrest (by simp [Token.isOperand, hkind])
    have hpos : 0 < t.text.toList.length := by
      obtain ⟨c, cs, hcs, -⟩ := hname
      simp [hcs]
    rw [lexeme?_append_of_standsApart (List.ne_nil_of_length_pos hpos) hapart,
      lexeme?_of_longest?_eq_none hword, hname.identifierLength_eq, if_pos hpos, hkind]
  | numeral hkind hword hnumeral =>
    -- nor must a numeral, which is no name as it starts with a digit
    have hapart := hrest (by simp [Token.isOperand, hkind])
    obtain ⟨c, cs, hcs, hc⟩ := hnumeral.exists_cons
    have hpos : 0 < t.text.toList.length := by simp [hcs]
    have hname : identifierLength t.text.toList = 0 := by
      rw [hcs, identifierLength, if_neg (not_startsIdentifier_of_isDigit hc)]
    rw [lexeme?_append_of_standsApart (List.ne_nil_of_length_pos hpos) hapart,
      lexeme?_of_longest?_eq_none hword, hname, hnumeral.numberLength_eq, if_neg (lt_irrefl 0),
      if_pos hpos, hkind]

/-! ### Characters of legal tokens -/

/-- What a name can go on with is no blank. -/
theorem not_isBlank_of_continuesIdentifier {c : Char} (h : continuesIdentifier c) :
    ¬ Text.isBlank c := by
  rw [continuesIdentifier, Bool.or_eq_true, beq_iff_eq, Char.isAlphanum, Bool.or_eq_true,
    isAlpha_iff, isDigit_iff] at h
  rcases h with hrange | rfl
  · -- the blanks are below or above
    intro hblank
    simp only [Text.isBlank, Text.blankRanges, List.any_cons, List.any_nil, Bool.or_false,
      Bool.or_eq_true, Bool.and_eq_true, decide_eq_true_eq] at hblank
    omega
  · decide

/-- A blank goes on with nothing. -/
theorem standsApart_of_isBlank {c : Char} (hc : Text.isBlank c) (rest : List Char) :
    StandsApart (c :: rest) :=
  standsApart_cons (fun hname => not_isBlank_of_continuesIdentifier hname hc)
    (fun hpoint => absurd hc (hpoint ▸ by decide)) rest

theorem Numeral.not_isBlank {w : List Char} (h : Numeral w) : ∀ c ∈ w, ¬ Text.isBlank c := by
  have hdigits {ds : List Char} (hds : ∀ d ∈ ds, d.isDigit) : ∀ d ∈ ds, ¬ Text.isBlank d :=
    fun d hd => not_isBlank_of_continuesIdentifier (continuesIdentifier_of_isDigit (hds d hd))
  intro c hc
  cases h with
  | whole _ hds => exact hdigits hds c hc
  | decimal _ hds _ hfs =>
    rcases List.mem_append.1 hc with hc | hc
    · exact hdigits hds c hc
    · rcases List.mem_cons.1 hc with rfl | hc
      · decide
      · exact hdigits hfs c hc

namespace Token.Legal

variable {t : Token}

/-- Legal tokens have no blanks in them. -/
theorem not_isBlank (h : t.Legal) : ∀ c ∈ t.text.toList, ¬ Text.isBlank c := by
  cases h with
  | word hword =>
    have hwords : ∀ entry ∈ builtinLexemes, entry.1.toList.all fun c => !Text.isBlank c := by
      decide +kernel
    simpa using hwords _ hword
  | name _ _ hname =>
    obtain ⟨c, cs, hcs, hc, hall⟩ := hname
    rw [hcs]
    exact List.forall_mem_cons.2
      ⟨not_isBlank_of_continuesIdentifier (continuesIdentifier_of_startsIdentifier hc),
        fun d hd => not_isBlank_of_continuesIdentifier (hall d hd)⟩
  | numeral _ _ hnumeral => exact hnumeral.not_isBlank

/-- No legal token is empty. -/
theorem toList_ne_nil (h : t.Legal) : t.text.toList ≠ [] := by
  cases h with
  | word hword =>
    have hwords : ∀ entry ∈ builtinLexemes, entry.1.toList ≠ [] := by decide +kernel
    exact hwords _ hword
  | name _ _ hname =>
    obtain ⟨c, cs, hcs, -⟩ := hname
    simp [hcs]
  | numeral _ _ hnumeral =>
    obtain ⟨c, cs, hcs, -⟩ := hnumeral.exists_cons
    simp [hcs]

/-- Operators and closing brackets stand apart from the operand in front of them. -/
theorem standsApart (h : t.Legal) (hkind : t.kind = .operator ∨ t.isClose) (rest : List Char) :
    StandsApart (t.text.toList ++ rest) := by
  have hclose : t.isClose → t.kind = .closeBracket := Token.kind_of_isClose
  have hkind : t.kind = .operator ∨ t.kind = .closeBracket := hkind.imp_right hclose
  cases h with
  | word hword =>
    have hwords : ∀ entry ∈ builtinLexemes, entry.2 = .operator ∨ entry.2 = .closeBracket →
        entry.1.toList ≠ [] ∧
          entry.1.toList.head?.all fun c => !continuesIdentifier c && c != '.' := by
      decide +kernel
    obtain ⟨hne, hapart⟩ := hwords _ hword hkind
    rw [StandsApart, List.head?_append_of_ne_nil _ hne]
    simpa [Option.all_eq_true] using hapart
  | name hname | numeral hname => simp [hname] at hkind

end Token.Legal

/-! ### Reading legal tokens -/

/-- Where no blank stands there is nothing to pass over. -/
theorem Lexer.skipBlanks_eq {T : Type*} {lexer : Lexer T}
    (h : ∀ c ∈ lexer.rest.head?, ¬ Text.isBlank c) : lexer.skipBlanks = lexer := by
  have hnil : lexer.rest.takeWhile Text.isBlank = [] := by
    cases hrest : lexer.rest with
    | nil => rfl
    | cons c cs => exact List.takeWhile_cons_of_neg (h c (by simp [hrest]))
  rw [skipBlanks, hnil, advance]
  simp

/-- **A legal token is taken first** by the lexer, if what stands behind it does not go on with
it. -/
theorem Lexer.next_legal {t : Token} (h : t.Legal) {rest : List Char}
    (hrest : t.isOperand → StandsApart rest) (n : Nat) :
    (Lexer.mk builtinTable (t.text.toList ++ rest) n).next =
      (some (.ok ⟨t.kind, t.text, n⟩),
        Lexer.mk builtinTable rest (n + Text.byteSize t.text.toList)) := by
  have hlexeme := h.lexeme?_append hrest
  have hhead : ∀ c ∈ (t.text.toList ++ rest).head?, ¬ Text.isBlank c := by
    intro c hc
    rw [List.head?_append_of_ne_nil _ h.toList_ne_nil] at hc
    exact h.not_isBlank c (List.mem_of_mem_head? hc)
  rw [next, skipBlanks_eq hhead]
  simp [hlexeme, advance]

theorem Lexing.ofItems_map_ok (ts : List Token) : ofItems (ts.map .ok) = ⟨ts, []⟩ := by
  induction ts with
  | nil => rfl
  | cons t ts ih => rw [List.map_cons, ofItems, ih]

end Formula
