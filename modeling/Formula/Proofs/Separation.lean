import Formula.Proofs.Partition
import Formula.Proofs.Relabelling
import Formula.Proofs.Relexing

/-!
# A text is read piece by piece

What the lexer takes depends on the text from there on, and on no more of it than it takes: the
words of the builtin table go on with letters only, a name goes on with letters, digits and
underscores, and a numeral with digits and a point. So where something else follows, the text in
front is read as if it stood alone, and the text behind it as if it started there
(`Lexer.items_append`). Where a text starts only shows in the places of its items
(`Lexer.items_shift`), and blanks in front of it do not show otherwise (`Lexer.items_blanks`).

In particular a text can be put in brackets, behind the name of a function or not, without a change
in how it is read (`tokenize_enclosed`).
-/

namespace Formula

/-! ### Where a text starts -/

/-- A text is blanks and what starts with none. -/
theorem Text.exists_blanks (text : List Char) :
    ∃ blanks behind, text = blanks ++ behind ∧ (∀ c ∈ blanks, isBlank c) ∧
      ∀ c ∈ behind.head?, ¬ isBlank c := by
  refine ⟨text.takeWhile isBlank, text.dropWhile isBlank, ?_, fun c hc => ?_, fun c hc => ?_⟩
  · rw [List.takeWhile_append_dropWhile]
  · exact List.mem_takeWhile_imp hc
  · have hhead := List.head?_dropWhile_not isBlank text
    rw [Option.mem_def.1 hc] at hhead
    simpa using hhead

namespace Lexer

/-- The item `d` bytes further on. -/
def shiftItem (d : Nat) : Except LexicalError Token → Except LexicalError Token
  | .ok t => .ok (t.shift d)
  | .error (.unexpectedChar c n) => .error (.unexpectedChar c (n + d))
  | .error .empty => .error .empty

section Places

variable {T : Type*} [LexemeTable T Kind] {table : T}

variable (table) in
/-- A lexer further on takes the same item further on. -/
theorem next_shift (rest : List Char) (n d : Nat) :
    ∃ item rest' n', (Lexer.mk table rest n).next = (item, ⟨table, rest', n'⟩) ∧
      (Lexer.mk table rest (n + d)).next = (item.map (shiftItem d), ⟨table, rest', n' + d⟩) := by
  simp only [next, skipBlanks, advance]
  split
  all_goals
    refine ⟨_, _, _, rfl, ?_⟩
    simp [shiftItem, Token.shift, Nat.add_right_comm]

/-- **The items of a text** that starts further on stand further on. -/
theorem items_shift (rest : List Char) (n d : Nat) :
    (Lexer.mk table rest (n + d)).items = (Lexer.mk table rest n).items.map (shiftItem d) := by
  generalize hlexer : Lexer.mk table rest n = lexer
  fun_induction items lexer generalizing rest n with
  | case1 lexer item later hnext ih =>
    subst hlexer
    obtain ⟨item', rest', n', hleft, hright⟩ := next_shift table rest n d
    rw [hleft] at hnext
    obtain ⟨rfl, rfl⟩ := Prod.mk.inj hnext
    rw [items_eq_cons hright, ih rest' n' rfl, List.map_cons]
  | case2 lexer later hnext =>
    subst hlexer
    obtain ⟨item', rest', n', hleft, hright⟩ := next_shift table rest n d
    rw [hleft] at hnext
    obtain ⟨rfl, rfl⟩ := Prod.mk.inj hnext
    rw [items_eq_nil hright, List.map_nil]

/-- **Blanks in front of a text** only count for the places. -/
theorem items_blanks {blanks : List Char} (hblanks : ∀ c ∈ blanks, Text.isBlank c)
    (rest : List Char) (n : Nat) :
    (Lexer.mk table (blanks ++ rest) n).items =
      (Lexer.mk table rest (n + Text.byteSize blanks)).items := by
  have hskip : (Lexer.mk table (blanks ++ rest) n).skipBlanks =
      (Lexer.mk table rest (n + Text.byteSize blanks)).skipBlanks := by
    simp only [skipBlanks, advance, List.takeWhile_append_of_pos hblanks, List.length_append,
      List.drop_length_add_append, List.take_length_add_append, Text.byteSize_append,
      Nat.add_assoc]
  have hnext : (Lexer.mk table (blanks ++ rest) n).next =
      (Lexer.mk table rest (n + Text.byteSize blanks)).next := by
    simp only [next, hskip]
  rcases h : (Lexer.mk table rest (n + Text.byteSize blanks)).next with ⟨_ | item, later⟩
  · rw [items_eq_nil h, items_eq_nil (hnext.trans h)]
  · rw [items_eq_cons h, items_eq_cons (hnext.trans h)]

end Places

end Lexer

/-! ### Where a text ends -/

namespace Lexer

/-- **The first item of a text** is taken alike in front of what stands apart. -/
theorem next_append {c : Char} (hc : ¬ Text.isBlank c) (text : List Char) {rest : List Char}
    (hrest : StandsApart rest) (n : Nat) :
    ∃ item k, 0 < k ∧ k ≤ (c :: text).length ∧
      (Lexer.mk builtinTable (c :: text) n).next =
        (some item, (Lexer.mk builtinTable (c :: text) n).advance k) ∧
      (Lexer.mk builtinTable (c :: text ++ rest) n).next =
        (some item, ⟨builtinTable, (c :: text).drop k ++ rest,
          n + Text.byteSize ((c :: text).take k)⟩) := by
  -- the lexeme at the front is found alike, whatever stands apart behind
  have hlexeme := lexeme?_append_of_standsApart (List.cons_ne_nil c text) hrest
  have hskip (behind : List Char) : (Lexer.mk builtinTable (c :: behind) n).skipBlanks =
      Lexer.mk builtinTable (c :: behind) n :=
    skipBlanks_eq (by simpa using hc)
  cases hfound : lexeme? builtinTable (c :: text) with
  | some found =>
    -- a lexeme: the same characters are cut off on both sides
    obtain ⟨hpos, hle⟩ := lexeme?_bounds hfound
    rw [hfound] at hlexeme
    refine ⟨.ok ⟨found.2, String.ofList ((c :: text).take found.1), n⟩, found.1, hpos, hle, ?_, ?_⟩
    · simp only [next, hskip, hfound]
    · rw [List.cons_append] at hlexeme
      simp only [next, List.cons_append, hskip, hlexeme, advance]
      rw [← List.cons_append, List.take_append_of_le_length hle,
        List.drop_append_of_le_length hle]
  | none =>
    -- no lexeme: one character is reported and skipped on both sides
    rw [hfound] at hlexeme
    refine ⟨.error (.unexpectedChar c n), 1, by decide, by simp, ?_, ?_⟩
    · simp only [next, hskip, hfound]
    · rw [List.cons_append] at hlexeme
      simp only [next, List.cons_append, hskip, hlexeme, advance]
      simp

/-- **The items of a text** in front of what stands apart are those of the text alone, and behind
them are those of what follows. -/
theorem items_append {text rest : List Char} (hrest : StandsApart rest) (n : Nat) :
    (Lexer.mk builtinTable (text ++ rest) n).items =
      (Lexer.mk builtinTable text n).items ++
        (Lexer.mk builtinTable rest (n + Text.byteSize text)).items := by
  induction hlength : text.length using Nat.strong_induction_on generalizing text n with
  | _ length ih =>
    subst hlength
    -- the blanks in front can be left out
    obtain ⟨blanks, behind, rfl, hblanks, hhead⟩ := Text.exists_blanks text
    rw [List.append_assoc, items_blanks hblanks, items_blanks hblanks, Text.byteSize_append,
      ← Nat.add_assoc]
    generalize n + Text.byteSize blanks = n
    cases behind with
    | nil =>
      have hnil : (Lexer.mk builtinTable [] n).items = [] := items_of_rest_eq_nil rfl
      rw [List.nil_append, hnil, List.nil_append, Text.byteSize_nil, Nat.add_zero]
    | cons c behind =>
      -- one item is delivered alike, and the induction goes on behind it
      obtain ⟨item, k, hpos, hle, hnext, hnext'⟩ := next_append (hhead c rfl) behind hrest n
      have hshorter : ((c :: behind).drop k).length < (blanks ++ c :: behind).length := by
        rw [List.length_drop, List.length_append]
        omega
      have hsize : Text.byteSize (c :: behind) =
          Text.byteSize ((c :: behind).take k) + Text.byteSize ((c :: behind).drop k) := by
        rw [← Text.byteSize_append, List.take_append_drop]
      rw [items_eq_cons hnext, items_eq_cons hnext', ih _ hshorter _ rfl, List.cons_append, hsize,
        ← Nat.add_assoc]
      rfl

/-- **A word of the builtin table** is taken first, whatever stands behind it. -/
theorem items_word {word : String} {kind : Kind} (h : (word, kind) ∈ builtinLexemes)
    (rest : List Char) (n : Nat) :
    (Lexer.mk builtinTable (word.toList ++ rest) n).items =
      .ok ⟨kind, word, n⟩ :: (Lexer.mk builtinTable rest (n + word.utf8ByteSize)).items := by
  have hkinds : ∀ entry ∈ builtinLexemes, entry.2 ≠ .number ∧ entry.2 ≠ .variable := by decide
  have hoperand : ¬ Token.isOperand ⟨kind, word, n⟩ := by
    simp [Token.isOperand, hkinds _ h]
  have hrest : Token.isOperand ⟨kind, word, n⟩ → StandsApart rest := fun h => absurd h hoperand
  have hnext := next_legal (.word h : Token.Legal ⟨kind, word, n⟩) hrest n
  rw [items_eq_cons hnext, Text.byteSize_toList]

end Lexer

/-! ### Blanks at the ends -/

namespace Text

/-- Trimming takes away blanks at either end. -/
theorem exists_trim (text : List Char) :
    ∃ back, text = text.takeWhile isBlank ++ (trim text ++ back) ∧ ∀ c ∈ back, isBlank c := by
  refine ⟨((trimStart text).reverse.takeWhile isBlank).reverse, ?_, fun c hc => ?_⟩
  · rw [trim, trimEnd, ← List.reverse_append, List.takeWhile_append_dropWhile,
      List.reverse_reverse, trimStart, List.takeWhile_append_dropWhile]
  · exact List.mem_takeWhile_imp (List.mem_reverse.1 hc)

/-- A text without blanks at its ends is not trimmed. -/
theorem trim_of_ends {text : List Char} (hhead : ∀ c ∈ text.head?, ¬ isBlank c)
    (hlast : ∀ c ∈ text.getLast?, ¬ isBlank c) : trim text = text := by
  have hdrop {text : List Char} (h : ∀ c ∈ text.head?, ¬ isBlank c) :
      text.dropWhile isBlank = text := by
    cases text with
    | nil => rfl
    | cons c text => exact List.dropWhile_cons_of_neg (h c rfl)
  rw [trim, trimStart, hdrop hhead, trimEnd, hdrop (by simpa using hlast), List.reverse_reverse]

theorem trim_trim (text : List Char) : trim (trim text) = trim text := by
  refine trim_of_ends (fun c hc => ?_) fun c hc => ?_
  · cases htrim : trim text with
    | nil => simp [htrim] at hc
    | cons d cs =>
      obtain rfl : d = c := by simpa [htrim] using hc
      exact not_isBlank_of_trim htrim
  · have hhead := List.head?_dropWhile_not isBlank (trimStart text).reverse
    rw [trim, trimEnd, List.getLast?_reverse] at hc
    rw [Option.mem_def.1 hc] at hhead
    simpa using hhead

end Text

theorem tokenize_trimmed (s : String) : tokenize (trimmed s) = tokenize s := by
  rw [tokenize, trimmed, String.toList_ofList, Text.trim_trim, ← tokenize]

/-- Items without an error are the tokens among them. -/
theorem Lexing.eq_map_of_errors {items : List (Except LexicalError Token)}
    (h : (ofItems items).errors = []) : items = (ofItems items).tokens.map .ok := by
  induction items with
  | nil => rfl
  | cons item items ih =>
    cases item with
    | ok t => rw [ofItems, List.map_cons, ← ih h]
    | error e => simp [ofItems] at h

/-- A text that is read without an error consists of tokens. -/
theorem items_of_tokenize {s : String} (h : (tokenize s).errors = []) :
    (Lexer.mk builtinTable (Text.trim s.toList) 0).items = (tokenize s).tokens.map .ok := by
  unfold tokenize at h ⊢
  split at h
  case h_1 => simp at h
  case h_2 => exact Lexing.eq_map_of_errors h

/-! ### Brackets around a text -/

/-- The tokens `d` bytes further on, in the bounds. -/
def Bounds.around (b : Bounds) (d : Nat) (ts : List Token) : List Token :=
  b.front ++ ts.map (Token.shift d) ++ b.back

/-- The tokens that come around a text when it is put in brackets behind the name `f`, or behind
nothing if `f` is empty. -/
def enclosing (f s : String) : Bounds :=
  let opening : Token := ⟨.openBracket, "(", f.utf8ByteSize⟩
  let closing : Token := ⟨.closeBracket, ")", f.utf8ByteSize + 1 + s.utf8ByteSize⟩
  if f = "" then .brackets opening closing else .call ⟨.function, f, 0⟩ opening closing

/-- The bytes that then stand in front of what the text is but for the blanks at its ends. -/
def enclosedAt (f s : String) : Nat :=
  f.utf8ByteSize + 1 + Text.byteSize (s.toList.takeWhile Text.isBlank)

section Enclosed

variable {s f : String}

theorem back_enclosing (f s : String) :
    (enclosing f s).back = [⟨.closeBracket, ")", f.utf8ByteSize + 1 + s.utf8ByteSize⟩] := by
  rw [enclosing]
  split <;> rfl

/-- What is put in front of the text is read first. -/
theorem items_opened (hf : f = "" ∨ (f, Kind.function) ∈ builtinLexemes) (rest : List Char) :
    (Lexer.mk builtinTable (f.toList ++ '(' :: rest) 0).items =
      (enclosing f s).front.map .ok ++
        (Lexer.mk builtinTable rest (f.utf8ByteSize + 1)).items := by
  have hopen (n : Nat) : (Lexer.mk builtinTable ('(' :: rest) n).items =
      .ok ⟨.openBracket, "(", n⟩ :: (Lexer.mk builtinTable rest (n + 1)).items :=
    Lexer.items_word (show ("(", Kind.openBracket) ∈ builtinLexemes by decide) rest n
  rcases hf with rfl | hf
  · exact hopen 0
  · have hne : f ≠ "" := by
      rintro rfl
      exact absurd hf (by decide)
    have hname := Lexer.items_word hf ('(' :: rest) 0
    rw [Nat.zero_add, hopen] at hname
    rw [enclosing, if_neg hne]
    exact hname

/-- The text is read at its place, and behind it the closing bracket. -/
theorem items_closed (hs : (tokenize s).errors = []) (n : Nat) :
    (Lexer.mk builtinTable (s.toList ++ [')']) n).items =
      ((tokenize s).tokens.map
          (Token.shift (n + Text.byteSize (s.toList.takeWhile Text.isBlank)))).map .ok ++
        [.ok ⟨.closeBracket, ")", n + s.utf8ByteSize⟩] := by
  obtain ⟨back, hsplit, hback⟩ := Text.exists_trim s.toList
  have hfront : ∀ c ∈ s.toList.takeWhile Text.isBlank, Text.isBlank c :=
    fun c hc => List.mem_takeWhile_imp hc
  have hsize : s.utf8ByteSize = Text.byteSize (s.toList.takeWhile Text.isBlank) +
      Text.byteSize (Text.trim s.toList) + Text.byteSize back := by
    conv => lhs; rw [← Text.byteSize_toList, hsplit]
    rw [Text.byteSize_append, Text.byteSize_append, Nat.add_assoc]
  -- neither a blank nor the bracket goes on with what stands in front
  have hapart : StandsApart (back ++ [')']) := by
    cases back with
    | nil => exact standsApart_cons (by decide) (by decide) []
    | cons c back => exact standsApart_of_isBlank (hback c List.mem_cons_self) _
  -- the body, then the bracket, each at the place it has in the whole text
  have hbody (d : Nat) : (Lexer.mk builtinTable (Text.trim s.toList) d).items =
      ((tokenize s).tokens.map (Token.shift d)).map .ok := by
    rw [← Nat.zero_add d, Lexer.items_shift, items_of_tokenize hs, List.map_map, List.map_map]
    simp only [Nat.zero_add]
    rfl
  have hclose (d : Nat) :
      (Lexer.mk builtinTable [')'] d).items = [.ok ⟨.closeBracket, ")", d⟩] := by
    have hword := Lexer.items_word (show (")", Kind.closeBracket) ∈ builtinLexemes by decide) [] d
    have hnil : (Lexer.mk builtinTable [] (d + ")".utf8ByteSize)).items = [] :=
      Lexer.items_of_rest_eq_nil rfl
    rw [hnil] at hword
    exact hword
  have hwhole : s.toList ++ [')'] = s.toList.takeWhile Text.isBlank ++
      (Text.trim s.toList ++ (back ++ [')'])) := by
    conv => lhs; rw [hsplit]
    simp only [List.append_assoc]
  rw [hwhole, Lexer.items_blanks hfront, Lexer.items_append hapart, Lexer.items_blanks hback, hbody,
    hclose, hsize]
  simp only [Nat.add_assoc]

/-- **A text in brackets** is read as before, further on and between the new tokens. -/
theorem tokenize_enclosed (hs : (tokenize s).errors = [])
    (hf : f = "" ∨ (f, Kind.function) ∈ builtinLexemes) :
    tokenize (f ++ "(" ++ s ++ ")") =
      ⟨(enclosing f s).around (enclosedAt f s) (tokenize s).tokens, []⟩ := by
  have htext : (f ++ "(" ++ s ++ ")").toList = f.toList ++ '(' :: (s.toList ++ [')']) := by simp
  -- the text starts with a name or a bracket and ends with a bracket: nothing is trimmed
  have htrim : Text.trim (f.toList ++ '(' :: (s.toList ++ [')'])) =
      f.toList ++ '(' :: (s.toList ++ [')']) := by
    refine Text.trim_of_ends (fun c hc => ?_) fun c hc => ?_
    · rcases hf with rfl | hf
      · obtain rfl : '(' = c := by simpa using hc
        decide
      · have hlegal : Token.Legal ⟨.function, f, 0⟩ := .word hf
        rw [List.head?_append_of_ne_nil _ hlegal.toList_ne_nil] at hc
        exact hlegal.not_isBlank c (List.mem_of_mem_head? hc)
    · rw [← List.cons_append, ← List.append_assoc, List.getLast?_concat] at hc
      obtain rfl : ')' = c := by simpa using hc
      decide
  -- the opening part, and then the body with its bracket
  have hitems : (Lexer.mk builtinTable (f.toList ++ '(' :: (s.toList ++ [')'])) 0).items =
      ((enclosing f s).around (enclosedAt f s) (tokenize s).tokens).map .ok := by
    rw [items_opened (s := s) hf, items_closed hs, Bounds.around, List.map_append, List.map_append,
      back_enclosing, List.append_assoc]
    rfl
  rw [tokenize, htext, htrim]
  split
  case h_1 hnil => simp at hnil
  case h_2 => rw [hitems, Lexing.ofItems_map_ok]

end Enclosed

end Formula
