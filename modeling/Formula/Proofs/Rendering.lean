import Formula.Proofs.Separation

/-!
# Rendered tokens are read back

A token list is rendered by writing the texts of its tokens one behind the other, with a separator
between neighbours. If the texts are spelled as the kinds demand (`Token.WellSpelled`), the result
is read as the same tokens, each of them at the place where its text has been written (`ReadBack`).

A separator of blanks is passed over wherever it stands. What is asked of a rendering is only that
no operand goes on into what is written behind it (`readBack_of_apart`). One blank is enough to keep
any two tokens apart. Without a separator the order of the tokens has to do it: behind an operand of
an accepted list there is an operator or a closing bracket (`WellPlaced.parted`).

The main statement is `readBack_of_wellSpelled`.
-/

namespace Formula

/-! ### Spelling -/

/-- **How a token of each kind is spelled.** A variable does not start with the name of a function,
because that would be read first. -/
def Token.WellSpelled (t : Token) : Prop :=
  match t.kind with
  | .function => t.text ∈ ["sin", "cos", "tan"]
  | .operator => t.text ∈ ["+", "-", "*", "/", "^"]
  | .openBracket => t.text = "("
  | .closeBracket => t.text = ")"
  | .number => Numeral t.text.toList
  | .variable => IsName t.text.toList ∧
      ∀ name ∈ ["sin", "cos", "tan"], ¬ name.toList <+: t.text.toList

/-- A text that no word of the builtin table starts has no match there. -/
theorem longest?_eq_none_of_not_starts {text : List Char}
    (h : ∀ entry ∈ builtinLexemes, ¬ entry.1.toList <+: text) :
    builtinTable.longest? text = none := by
  refine (builtinTable.longestMatch text).unique (.none fun word hword => ?_)
  by_contra hsome
  obtain ⟨kind, hkind⟩ := Option.ne_none_iff_exists'.1 hsome
  have hmem : (String.ofList word, kind) ∈ builtinLexemes :=
    mem_of_entryValue? ((Trie.find?_ofList builtinLexemes word).symm.trans hkind)
  exact h _ hmem (by simpa using hword)

/-- A word that starts a text starts with the same character. -/
theorem head?_of_starts {word : List Char} {c : Char} {cs : List Char} (hne : word ≠ [])
    (h : word <+: c :: cs) : word.head? = some c := by
  obtain ⟨rest, hrest⟩ := h
  rw [← List.head?_append_of_ne_nil _ hne, hrest, List.head?_cons]

/-- No word of the table starts a numeral. -/
theorem Numeral.longest?_eq_none {w : List Char} (h : Numeral w) :
    builtinTable.longest? w = none := by
  have hwords : ∀ entry ∈ builtinLexemes,
      entry.1.toList ≠ [] ∧ entry.1.toList.head?.all fun c => !c.isDigit := by
    decide +kernel
  obtain ⟨c, cs, rfl, hc⟩ := h.exists_cons
  refine longest?_eq_none_of_not_starts fun entry hentry hstarts => ?_
  obtain ⟨hne, hdigit⟩ := hwords entry hentry
  rw [head?_of_starts hne hstarts] at hdigit
  simp [hc] at hdigit

/-- Of the words of the table, only the names of functions can start a name. -/
theorem IsName.longest?_eq_none {w : List Char} (h : IsName w)
    (hfree : ∀ name ∈ ["sin", "cos", "tan"], ¬ name.toList <+: w) :
    builtinTable.longest? w = none := by
  -- the other words of the table start with a character that starts no name
  have hwords : ∀ entry ∈ builtinLexemes, entry.1 ∈ ["sin", "cos", "tan"] ∨
      entry.1.toList ≠ [] ∧ entry.1.toList.head?.all fun c => !startsIdentifier c := by
    decide +kernel
  obtain ⟨c, cs, rfl, hc, -⟩ := h
  refine longest?_eq_none_of_not_starts fun entry hentry hstarts => ?_
  rcases hwords entry hentry with hname | ⟨hne, hstart⟩
  · exact hfree _ hname hstarts
  · rw [head?_of_starts hne hstarts] at hstart
    simp [hc] at hstart

/-- **What is well spelled is legal.** -/
theorem Token.WellSpelled.legal {t : Token} (h : t.WellSpelled) : t.Legal := by
  unfold WellSpelled at h
  split at h
  case h_1 hkind | h_2 hkind => exact .word (by simpa [builtinLexemes, hkind] using h)
  case h_3 hkind | h_4 hkind => exact .word (by simp [builtinLexemes, hkind, h])
  case h_5 hkind => exact .numeral hkind h.longest?_eq_none h
  case h_6 hkind => exact .name hkind (h.1.longest?_eq_none h.2) h.1

/-! ### Rendered texts -/

section Rendering

variable (sep : String)

/-- What is written in front of the `i`-th token: the tokens before it, and a separator behind each
of them. -/
def inFront (ts : List Token) (i : Nat) : List Char :=
  (ts.take i).flatMap fun t => t.text.toList ++ sep.toList

/-- What is written behind a token: the tokens after it, and a separator in front of each. -/
def writtenBehind (ts : List Token) : List Char :=
  ts.flatMap fun t => sep.toList ++ t.text.toList

@[simp] theorem inFront_zero (ts : List Token) : inFront sep ts 0 = [] := rfl

@[simp] theorem inFront_succ (t : Token) (ts : List Token) (i : Nat) :
    inFront sep (t :: ts) (i + 1) = t.text.toList ++ sep.toList ++ inFront sep ts i := rfl

@[simp] theorem writtenBehind_nil : writtenBehind sep [] = [] := rfl

@[simp] theorem writtenBehind_cons (t : Token) (ts : List Token) :
    writtenBehind sep (t :: ts) = sep.toList ++ (t.text.toList ++ writtenBehind sep ts) := by
  rw [writtenBehind, List.flatMap_cons, List.append_assoc, ← writtenBehind]

theorem toList_join_cons (t : Token) (ts : List Token) :
    (Token.join (t :: ts) sep).toList = t.text.toList ++ writtenBehind sep ts := by
  rw [Token.join, String.toList_intercalate, List.map_map]
  induction ts generalizing t with
  | nil => simp
  | cons u ts ih =>
    rw [List.map_cons, List.map_cons, List.intercalate_cons_cons, ← List.map_cons, ih,
      writtenBehind_cons, List.append_assoc]
    rfl

/-- **A token stands where it has been written**, behind what is written in front of it. -/
theorem inFront_append_starts (t : Token) (ts : List Token) {i : Nat} (hi : i < (t :: ts).length) :
    inFront sep (t :: ts) i ++ (t :: ts)[i].text.toList <+:
      t.text.toList ++ writtenBehind sep ts := by
  induction ts generalizing t i with
  | nil =>
    obtain rfl : i = 0 := by simpa using hi
    simp
  | cons u ts ih =>
    cases i with
    | zero => simp
    | succ i =>
      have hrest := ih u (i := i) (by simpa using hi)
      simpa using hrest

end Rendering

/-- **Read back.** The rendered tokens are read without an error as what they were, each token with
the place of its text in the rendering, counted in bytes. -/
def ReadBack (sep : String) (ts : List Token) : Prop :=
  tokenize (Token.join ts sep) =
      ⟨ts.mapIdx fun i t => { t with position := Text.byteSize (inFront sep ts i) }, []⟩ ∧
    ∀ (i : Nat) (hi : i < ts.length),
      inFront sep ts i ++ ts[i].text.toList <+: (Token.join ts sep).toList

/-! ### Reading -/

section Reading

variable {sep : String} {t : Token} {ts : List Token}

/-- No operand of the list goes on into what is written behind it. -/
def Apart (sep : String) (ts : List Token) : Prop :=
  ∀ u us, u :: us <:+ ts → u.isOperand → StandsApart (writtenBehind sep us)

theorem Apart.tail (h : Apart sep (t :: ts)) : Apart sep ts :=
  fun u us hsuffix => h u us (hsuffix.trans (List.suffix_cons t ts))

/-- **The items of a rendering** are its tokens, at their places. -/
theorem items_rendered (hsep : ∀ c ∈ sep.toList, Text.isBlank c)
    (hlegal : ∀ u ∈ t :: ts, u.Legal) (hapart : Apart sep (t :: ts)) (n : Nat) :
    (Lexer.mk builtinTable (t.text.toList ++ writtenBehind sep ts) n).items =
      ((t :: ts).mapIdx fun i u =>
        { u with position := n + Text.byteSize (inFront sep (t :: ts) i) }).map .ok := by
  induction ts generalizing t n with
  | nil =>
    rw [writtenBehind_nil, Lexer.items_eq_cons (Lexer.next_legal (hlegal t List.mem_cons_self)
      (fun _ => standsApart_nil) n), Lexer.items_of_rest_eq_nil rfl]
    simp
  | cons u ts ih =>
    obtain ⟨ht, hts⟩ := List.forall_mem_cons.1 hlegal
    have hfirst := Lexer.next_legal ht (hapart t (u :: ts) List.suffix_rfl) n
    rw [Lexer.items_eq_cons hfirst, writtenBehind_cons, Lexer.items_blanks hsep,
      ih hts hapart.tail]
    -- the places behind the first token count it and a separator
    simp only [List.mapIdx_cons, List.map_cons, inFront_zero, inFront_succ, Text.byteSize_nil,
      Text.byteSize_append, Nat.add_zero, Nat.add_assoc]

/-- The rendering ends with its last token. -/
theorem not_isBlank_of_getLast? (hlegal : ∀ u ∈ t :: ts, u.Legal) :
    ∀ c ∈ (t.text.toList ++ writtenBehind sep ts).getLast?, ¬ Text.isBlank c := by
  induction ts generalizing t with
  | nil =>
    intro c hc
    rw [writtenBehind_nil, List.append_nil] at hc
    exact (hlegal t List.mem_cons_self).not_isBlank c (List.mem_of_mem_getLast? hc)
  | cons u ts ih =>
    obtain ⟨-, hts⟩ := List.forall_mem_cons.1 hlegal
    have hne : u.text.toList ++ writtenBehind sep ts ≠ [] := by
      simp [(hts u List.mem_cons_self).toList_ne_nil]
    rw [writtenBehind_cons, List.getLast?_append_of_ne_nil _ (by simp [hne]),
      List.getLast?_append_of_ne_nil _ hne]
    exact ih hts

/-- There is nothing to trim. -/
theorem trim_rendered (hlegal : ∀ u ∈ t :: ts, u.Legal) :
    Text.trim (t.text.toList ++ writtenBehind sep ts) = t.text.toList ++ writtenBehind sep ts := by
  have ht := hlegal t List.mem_cons_self
  refine Text.trim_of_ends (fun c hc => ?_) (not_isBlank_of_getLast? hlegal)
  rw [List.head?_append_of_ne_nil _ ht.toList_ne_nil] at hc
  exact ht.not_isBlank c (List.mem_of_mem_head? hc)

/-- **Legal tokens are read back** if they are kept apart. -/
theorem readBack_of_apart (hsep : ∀ c ∈ sep.toList, Text.isBlank c)
    (hlegal : ∀ u ∈ t :: ts, u.Legal) (hapart : Apart sep (t :: ts)) :
    ReadBack sep (t :: ts) := by
  constructor
  · rw [tokenize, toList_join_cons, trim_rendered hlegal]
    split
    case h_1 hnil => simp [(hlegal t List.mem_cons_self).toList_ne_nil] at hnil
    case h_2 =>
      rw [items_rendered hsep hlegal hapart, Lexing.ofItems_map_ok]
      simp only [Nat.zero_add]
  · intro i hi
    rw [toList_join_cons]
    exact inFront_append_starts sep t ts hi

/-- **A blank** keeps all tokens apart. -/
theorem apart_blank (ts : List Token) : Apart " " ts := by
  intro u us _ _
  cases us with
  | nil => exact standsApart_nil
  | cons v us =>
    exact standsApart_of_isBlank (show Text.isBlank ' ' by decide) _

end Reading

/-! ### Nothing between the tokens -/

section Joined

/-- The characters of the tokens, one token behind the other. -/
def written (ts : List Token) : List Char :=
  ts.flatMap fun t => t.text.toList

@[simp] theorem written_nil : written [] = [] := rfl

@[simp] theorem written_cons (t : Token) (ts : List Token) :
    written (t :: ts) = t.text.toList ++ written ts := rfl

theorem writtenBehind_empty (ts : List Token) : writtenBehind "" ts = written ts := rfl

theorem toList_join (ts : List Token) : (Token.join ts "").toList = written ts := by
  cases ts with
  | nil => rfl
  | cons t ts => rw [toList_join_cons, writtenBehind_empty, written_cons]

/-- Behind an operand stands an operator or a closing bracket, if anything. -/
def Parted (ts : List Token) : Prop :=
  ts.IsChain fun t u => t.isOperand → u.kind = .operator ∨ u.isClose

/-- It does in an accepted list. -/
theorem WellPlaced.parted {ts : List Token} (h : WellPlaced ts) : Parted ts :=
  h.next.imp fun _ _ hnext ht =>
    operator_or_close_of_allowsNext (by simp [Token.endsAtom, ht]) hnext

/-- What is written behind an operand stands apart from it. -/
theorem Parted.apart {ts : List Token} (h : Parted ts) (hlegal : ∀ t ∈ ts, t.Legal) :
    Apart "" ts := by
  intro u us hsuffix hu
  cases us with
  | nil => exact standsApart_nil
  | cons v us =>
    obtain ⟨hnext, -⟩ := List.isChain_cons_cons.1 (h.suffix hsuffix)
    have hv : v.Legal := hlegal v (hsuffix.subset (by simp))
    exact hv.standsApart (hnext hu) (writtenBehind "" us)

/-- The tokens at the places that they have if the first one is written at place `n`. -/
def placeFrom (n : Nat) : List Token → List Token
  | [] => []
  | t :: ts => ⟨t.kind, t.text, n⟩ :: placeFrom (n + Text.byteSize t.text.toList) ts

@[simp] theorem map_bare_placeFrom (n : Nat) (ts : List Token) :
    (placeFrom n ts).map Token.bare = ts.map Token.bare := by
  induction ts generalizing n with
  | nil => rfl
  | cons t ts ih => rw [placeFrom, List.map_cons, List.map_cons, ih, Token.bare, Token.bare]

theorem placeFrom_eq (n : Nat) (ts : List Token) :
    placeFrom n ts =
      ts.mapIdx fun i t => { t with position := n + Text.byteSize (inFront "" ts i) } := by
  induction ts generalizing n with
  | nil => rfl
  | cons t ts ih =>
    rw [placeFrom, ih, List.mapIdx_cons]
    simp [Nat.add_assoc]

variable {ts : List Token}

/-- **Tokens written without separators** are read again as they are, at the places where they have
been written. -/
theorem tokenize_join (hne : ts ≠ []) (hlegal : ∀ t ∈ ts, t.Legal) (hparted : Parted ts) :
    tokenize (Token.join ts "") = ⟨placeFrom 0 ts, []⟩ := by
  obtain ⟨t, ts, rfl⟩ := List.exists_cons_of_ne_nil hne
  obtain ⟨hread, -⟩ := readBack_of_apart (by simp) hlegal (hparted.apart hlegal)
  rw [hread, placeFrom_eq]
  simp only [Nat.zero_add]

theorem trimmed_join (hlegal : ∀ t ∈ ts, t.Legal) :
    trimmed (Token.join ts "") = Token.join ts "" := by
  cases ts with
  | nil => rfl
  | cons t ts =>
    rw [trimmed, toList_join_cons, trim_rendered hlegal, ← toList_join_cons, String.ofList_toList]

end Joined

/-- **Rendering and reading are inverse.** Well-spelled tokens are read back from a text with a
blank between neighbours, and also from one with nothing between them if the list is accepted. -/
theorem readBack_of_wellSpelled {ts : List Token} (hne : ts ≠ [])
    (hspelled : ∀ t ∈ ts, t.WellSpelled) :
    ReadBack " " ts ∧ (validate ts = [] → ReadBack "" ts) := by
  obtain ⟨t, ts, rfl⟩ := List.exists_cons_of_ne_nil hne
  have hlegal : ∀ u ∈ t :: ts, u.Legal := fun u hu => (hspelled u hu).legal
  have hblank : ∀ c ∈ " ".toList, Text.isBlank c := List.all_eq_true.1 (by decide)
  refine ⟨readBack_of_apart hblank hlegal (apart_blank _), fun hvalid => ?_⟩
  -- without blanks it is the order of accepted tokens that keeps operands apart
  obtain ⟨-, hplaced, -⟩ := (validate_cons_eq_nil_iff t ts).1 hvalid
  exact readBack_of_apart (by simp) hlegal (hplaced.parted.apart hlegal)

/-- A name may have the name of a function inside, and an operand may follow the sign in front. -/
theorem readBack_of_wellSpelled_call :
    let ts : List Token := [⟨.operator, "-", 7⟩, ⟨.function, "sin", 7⟩, ⟨.openBracket, "(", 7⟩,
      ⟨.variable, "xsin", 7⟩, ⟨.operator, "*", 7⟩, ⟨.number, "2.50", 7⟩, ⟨.closeBracket, ")", 7⟩]
    Token.join ts " " = "- sin ( xsin * 2.50 )" ∧ Token.join ts "" = "-sin(xsin*2.50)" ∧
      ts ≠ [] ∧ (∀ t ∈ ts, t.WellSpelled) ∧ validate ts = [] ∧
      ReadBack " " ts ∧ ReadBack "" ts := by
  intro ts
  have hname : IsName "xsin".toList ∧
      ∀ name ∈ ["sin", "cos", "tan"], ¬ name.toList <+: "xsin".toList :=
    ⟨⟨'x', ['s', 'i', 'n'], rfl, by decide, List.all_eq_true.1 (by decide)⟩, by decide⟩
  have hnumeral : Numeral (['2'] ++ '.' :: ['5', '0']) :=
    .decimal (by decide) (List.all_eq_true.1 (by decide)) (by decide)
      (List.all_eq_true.1 (by decide))
  have hspelled : ∀ t ∈ ts, t.WellSpelled := by
    simp only [ts, List.forall_mem_cons, List.not_mem_nil, false_imp_iff, implies_true, and_true]
    exact ⟨by simp [Token.WellSpelled], by simp [Token.WellSpelled], rfl, hname,
      by simp [Token.WellSpelled], hnumeral, rfl⟩
  have hvalid : validate ts = [] := by decide
  obtain ⟨hblank, hplain⟩ := readBack_of_wellSpelled (List.cons_ne_nil _ _) hspelled
  exact ⟨by decide, by decide, List.cons_ne_nil _ _, hspelled, hvalid, hblank, hplain hvalid⟩

end Formula
