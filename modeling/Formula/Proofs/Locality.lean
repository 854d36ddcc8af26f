import Formula.Proofs.Rendering

/-!
# Lexing is local

Blanks, and characters that are in no lexeme, separate. What stands in front of such a separator is
read as if the text ended there, and what stands behind it as if the text began there; the separator
itself leaves nothing, or an error for its character. Nothing is read across it, since no lexeme
goes on with it (`StandsApart`), and all that the items behind it keep of what is in front is its
size in bytes (`Lexer.shiftItem`).

`lexing_local` states this for the builtin lexemes in each of the tables.
-/

namespace Formula

/-! ### Separators -/

/-- **A foreign character**: it is no blank and in no lexeme, so it is no part of a number or a name
and no operator or bracket. -/
structure IsForeign (c : Char) : Prop where
  not_isBlank : ¬ Text.isBlank c
  ne_point : c ≠ '.'
  not_continuesIdentifier : ¬ continuesIdentifier c
  not_mem_symbols : c ∉ ['+', '-', '*', '/', '^', '(', ')']

theorem IsForeign.standsApart {c : Char} (h : IsForeign c) (rest : List Char) :
    StandsApart (c :: rest) :=
  standsApart_cons h.not_continuesIdentifier h.ne_point rest

/-- No word of the builtin table starts with a foreign character. -/
theorem IsForeign.longest?_eq_none {c : Char} (h : IsForeign c) (rest : List Char) :
    builtinTable.longest? (c :: rest) = none := by
  -- all words begin with a letter or with one of the operators and brackets
  have hwords : ∀ entry ∈ builtinLexemes, entry.1.toList ≠ [] ∧ entry.1.toList.head?.all fun d =>
      continuesIdentifier d || ['+', '-', '*', '/', '^', '(', ')'].contains d := by
    decide +kernel
  refine longest?_eq_none_of_not_starts fun entry hentry hstarts => ?_
  obtain ⟨hne, hhead⟩ := hwords entry hentry
  rw [head?_of_starts hne hstarts, Option.all_some, Bool.or_eq_true, List.contains_iff_mem] at hhead
  exact hhead.elim h.not_continuesIdentifier h.not_mem_symbols

/-- Neither a word nor a name nor a number starts with a foreign character. -/
theorem IsForeign.lexeme?_eq_none {c : Char} (h : IsForeign c) (rest : List Char) :
    lexeme? builtinTable (c :: rest) = none := by
  have hname : ¬ startsIdentifier c :=
    fun hstarts => h.not_continuesIdentifier (continuesIdentifier_of_startsIdentifier hstarts)
  have hdigit : ¬ c.isDigit :=
    fun hdigit => h.not_continuesIdentifier (continuesIdentifier_of_isDigit hdigit)
  have hnumber : numberLength (c :: rest) = 0 := by
    rw [numberLength, List.takeWhile_cons_of_neg hdigit]
    simp [h.ne_point]
  rw [lexeme?_of_longest?_eq_none (h.longest?_eq_none rest), identifierLength, if_neg hname,
    hnumber]
  rfl

/-- **A foreign character is an error** of its own. -/
theorem Lexer.items_foreign {c : Char} (h : IsForeign c) (rest : List Char) (n : Nat) :
    (Lexer.mk builtinTable (c :: rest) n).items =
      .error (.unexpectedChar c n) :: (Lexer.mk builtinTable rest (n + c.utf8Size)).items := by
  refine items_eq_cons ?_
  have hskip : (Lexer.mk builtinTable (c :: rest) n).skipBlanks =
      Lexer.mk builtinTable (c :: rest) n :=
    skipBlanks_eq (by simpa using h.not_isBlank)
  simp [next, hskip, h.lexeme?_eq_none, advance]

/-! ### Texts with a separator -/

/-- **Local reading.** Blanks between two texts, and a foreign character between them, do not change
the items of either: those of the first come as they are, and those of the second stand further on
by what is in front of it. -/
structure ReadsLocally (items : String → List (Except LexicalError Token)) : Prop where
  blanks : ∀ a w b : String, w ≠ "" → (∀ c ∈ w.toList, Text.isBlank c) →
    items (a ++ w ++ b) = items a ++ (items b).map (Lexer.shiftItem (a ++ w).utf8ByteSize)
  foreign : ∀ (a b : String) (c : Char), IsForeign c →
    items (a ++ String.singleton c ++ b) =
      items a ++ .error (.unexpectedChar c a.utf8ByteSize) ::
        (items b).map (Lexer.shiftItem (a ++ String.singleton c).utf8ByteSize)

theorem readsLocally_builtin : ReadsLocally fun s => (Lexer.ofString builtinTable s).items where
  blanks a w b hne hw := by
    -- the first blank ends what is read of `a`
    have hapart : StandsApart (w.toList ++ b.toList) := by
      cases hlist : w.toList with
      | nil => exact absurd (String.toList_eq_nil_iff.1 hlist) hne
      | cons c cs => exact standsApart_of_isBlank (hw c (by simp [hlist])) _
    have hsize : (a ++ w).utf8ByteSize = Text.byteSize a.toList + Text.byteSize w.toList := by
      rw [← Text.byteSize_toList, String.toList_append, Text.byteSize_append]
    simp only [Lexer.ofString, String.toList_append, List.append_assoc]
    rw [Lexer.items_append hapart, Lexer.items_blanks hw, Nat.add_assoc, Lexer.items_shift, hsize]
  foreign a b c hc := by
    -- the foreign character is one item by itself
    have hsize : (a ++ String.singleton c).utf8ByteSize = Text.byteSize a.toList + c.utf8Size := by
      rw [← Text.byteSize_toList, String.toList_append, Text.byteSize_append,
        String.toList_singleton, Text.byteSize_cons, Text.byteSize_nil, Nat.add_zero]
    simp only [Lexer.ofString, String.toList_append, List.append_assoc, String.toList_singleton,
      List.singleton_append]
    rw [Lexer.items_append (hc.standsApart _), Lexer.items_foreign hc, Nat.add_assoc,
      Lexer.items_shift, hsize, Nat.zero_add, Text.byteSize_toList]

/-- A table of the builtin lexemes leads to the same items, so it makes no difference. -/
theorem Represents.readsLocally {T : Type*} [LexemeTable T Kind] {table : T}
    (h : Represents table builtinLexemes) :
    ReadsLocally fun s => (Lexer.ofString table s).items := by
  have hitems : (fun s => (Lexer.ofString table s).items) =
      fun s => (Lexer.ofString builtinTable s).items :=
    funext fun s => Lexer.items_congr (h.longest?_eq (represents_trie builtinLexemes)) _ _
  rw [hitems]
  exact readsLocally_builtin

/-- **Lexing is local**, with each of the tables that can hold the builtin lexemes, whichever store
or hash function it uses. -/
theorem lexing_local {M : Type → Type} [PrefixStore M] [LawfulPrefixStore M] [Hashable String] :
    (ReadsLocally fun s =>
        (Lexer.ofString (StoreTable.ofList builtinLexemes : StoreTable M Kind) s).items) ∧
      (ReadsLocally fun s => (Lexer.ofString (HashTable.ofList builtinLexemes) s).items) ∧
      ReadsLocally fun s => (Lexer.ofString builtinTable s).items :=
  ⟨(represents_storeTable builtinLexemes).readsLocally,
    (represents_hashTable builtinLexemes).readsLocally, readsLocally_builtin⟩

/-- A dangling point in front of a separator stays there, and digits behind it do not go on with the
number, also where the separator takes more than one byte. -/
theorem lexing_local_point :
    let items := fun s =>
      (Lexer.ofString (StoreTable.ofList builtinLexemes : StoreTable AssocStore Kind) s).items
    IsForeign '€' ∧ items ("3." ++ String.singleton '€' ++ "5 si") =
      [.ok ⟨.number, "3", 0⟩, .error (.unexpectedChar '.' 1), .error (.unexpectedChar '€' 2),
        .ok ⟨.number, "5", 5⟩, .ok ⟨.variable, "si", 7⟩] := by
  intro items
  have hlocal : ReadsLocally items := (@lexing_local AssocStore _ _ ⟨fnv1a⟩).1
  have hforeign : IsForeign '€' := ⟨by decide, by decide, by decide, by decide⟩
  refine ⟨hforeign, ?_⟩
  rw [hlocal.foreign _ _ _ hforeign]
  decide +kernel

end Formula
