import Formula.Proofs.Stability
import Formula.Proofs.Traversal

/-!
# A printed tree reads back as itself

Printing a tree and reading formulas are inverse to each other: the text of a tree is read as that
tree. The text is a phrase written without blanks (`Tree.Spelled.exists_phrase`), in which every
pair of operands stands in brackets and every argument too. So each part of it is an atom, binds as
tightly as its place demands, and the phrase has the printed tree. Its tokens are legal if the texts
in the tree are, and then the lexer reads them again where they are written.

What is printed is what recursion on the tree spells (`Tree.render_eq`), and the phrase is made by
the same recursion.
-/

namespace Formula

/-! ### The phrase of a printed tree -/

/-- A text that some formula has as a number or a variable. -/
def IsOperandText (w : String) : Prop :=
  ∃ (s : String) (t : Token), t ∈ (tokenize s).tokens ∧ t.isOperand ∧ t.text = w

/-- **A tree of legal texts**: operands at its leaves, names of functions above one argument, and
operators of arithmetic above two operands. -/
inductive Tree.Spelled : Tree → Prop
  | leaf {value : String} (h : IsOperandText value) : Spelled (.leaf value)
  | unary {value : String} {arg : Tree} (h : value ∈ ["sin", "cos", "tan"]) (harg : arg.Spelled) :
      Spelled (.unary value arg)
  | binary {value : String} {left right : Tree} (h : value ∈ ["+", "-", "*", "/", "^"])
      (hleft : left.Spelled) (hright : right.Spelled) : Spelled (.binary value left right)

theorem written_append (ts us : List Token) : written (ts ++ us) = written ts ++ written us :=
  List.flatMap_append

namespace Phrase

/-- The phrase is written as the text of the tree: an atom of legal tokens, without signs. -/
structure Prints (p : Phrase) (t : Tree) : Prop where
  binds : p.Binds 4
  signs_eq : p.signs = 0
  legal : p.Legal
  tree_eq : p.tree = t
  written_eq : written p.tokens = t.spell.toList

end Phrase

/-- The opening bracket that a printer writes. -/
def printedOpen : Token := ⟨.openBracket, "(", 0⟩

/-- The closing bracket that a printer writes. -/
def printedClose : Token := ⟨.closeBracket, ")", 0⟩

theorem legal_printed : printedOpen.Legal ∧ printedClose.Legal :=
  ⟨.word (by decide), .word (by decide)⟩

namespace Phrase.Prints

theorem unary {p : Phrase} {arg : Tree} (h : p.Prints arg) {value : String}
    (hvalue : value ∈ ["sin", "cos", "tan"]) :
    (region (.call ⟨.function, value, 0⟩ printedOpen printedClose) p).Prints
      (.unary value arg) where
  binds := .region ⟨rfl, rfl, rfl⟩ (h.binds.mono (by decide))
  signs_eq := h.signs_eq
  legal := by
    have hword : (value, Kind.function) ∈ builtinLexemes := by
      simpa [builtinLexemes] using hvalue
    have hname : Token.Legal ⟨.function, value, 0⟩ := .word hword
    rw [legal_region]
    simpa [Bounds.front, Bounds.back, legal_printed, hname] using h.legal
  tree_eq := by
    rw [tree, h.tree_eq]
    rfl
  written_eq := by
    rw [tokens, written_append, written_append, h.written_eq, Tree.spell]
    simp [Bounds.front, Bounds.back, printedOpen, printedClose]

theorem binary {l r : Phrase} {left right : Tree} (hl : l.Prints left) (hr : r.Prints right)
    {value : String} (hvalue : value ∈ ["+", "-", "*", "/", "^"]) :
    (region (.brackets printedOpen printedClose)
      (Phrase.binary l ⟨.operator, value, 0⟩ r)).Prints (.binary value left right) where
  binds := by
    -- the operator binds in some layer, and both operands are regions
    have harith : Token.isArithmetic ⟨.operator, value, 0⟩ := by
      simpa [Token.isArithmetic, Token.isOperatorIn] using hvalue
    obtain ⟨k, hk⟩ := Token.exists_joins_of_isArithmetic harith
    have hbounds := Token.joins_bounds hk
    exact .region ⟨rfl, rfl⟩ (.binary hbounds.1 (hl.binds.mono (by omega)) hk
      (hr.binds.mono (by omega)))
  signs_eq := by rw [signs, signs, hl.signs_eq, hr.signs_eq]
  legal := by
    have hword : (value, Kind.operator) ∈ builtinLexemes := by
      simpa [builtinLexemes] using hvalue
    have hoperator : Token.Legal ⟨.operator, value, 0⟩ := .word hword
    rw [legal_region, legal_binary]
    simp [Bounds.front, Bounds.back, legal_printed, hoperator, hl.legal, hr.legal]
  tree_eq := by
    rw [tree, tree, hl.tree_eq, hr.tree_eq]
    rfl
  written_eq := by
    rw [tokens, tokens, written_append, written_append, written_append, written_cons,
      hl.written_eq, hr.written_eq, Tree.spell]
    simp [Bounds.front, Bounds.back, printedOpen, printedClose]

end Phrase.Prints

/-- **Every tree of legal texts** is printed as a phrase. -/
theorem Tree.Spelled.exists_phrase {t : Tree} (h : t.Spelled) : ∃ p : Phrase, p.Prints t := by
  induction h with
  | leaf h =>
    obtain ⟨s, t, hmem, ht, rfl⟩ := h
    have hlegal := legal_of_mem_tokenize hmem
    exact ⟨.operand t, .operand ht, rfl, Phrase.legal_operand.2 hlegal, rfl,
      by simp [spell, Phrase.tokens]⟩
  | unary hvalue _ ih =>
    obtain ⟨p, hp⟩ := ih
    exact ⟨_, hp.unary hvalue⟩
  | binary hvalue _ _ ihl ihr =>
    obtain ⟨l, hl⟩ := ihl
    obtain ⟨r, hr⟩ := ihr
    exact ⟨_, hl.binary hr hvalue⟩

/-! ### Reading it back -/

/-- **The text of a tree of legal texts** is read without an error, is accepted, and has that
tree. -/
theorem ofRpn_render {t : Tree} (h : t.Spelled) :
    (tokenize t.render).errors = [] ∧ validate (tokenize t.render).tokens = [] ∧
      Tree.ofRpn (toRpn (tokenize t.render).tokens) = .ok t := by
  obtain ⟨p, hp⟩ := h.exists_phrase
  have htext : t.render = Token.join p.tokens "" := by
    rw [Tree.render_eq, ← String.toList_inj, toList_join, hp.written_eq]
  have hne : p.tokens ≠ [] := List.ne_nil_of_length_pos p.length_tokens_pos
  have htokenize := tokenize_join hne hp.legal hp.binds.parted
  -- the tokens stand at the places where they are written, and are the same phrase there
  obtain ⟨q, hq, htokens, hbare⟩ := hp.binds.exists_of_map_bare (map_bare_placeFrom 0 p.tokens)
  have hreads : q.Reads (placeFrom 0 p.tokens) := ⟨hq.mono (by decide), htokens⟩
  have hsigns : q.signs = 0 := by
    rw [← Phrase.signs_bare, hbare, Phrase.signs_bare, hp.signs_eq]
  have htree : q.tree = t := by
    rw [← Phrase.tree_bare, hbare, Phrase.tree_bare, hp.tree_eq]
  rw [htext, htokenize]
  refine ⟨rfl, htokens ▸ hq.derives_arithmetic.validate_eq_nil, ?_⟩
  rw [hreads.toRpn_eq, hq.ofRpn_postorder hsigns, htree]

/-- A function of a pair of operands is printed with two pairs of brackets, and one below a power
with its own only. -/
theorem ofRpn_render_nested :
    let t : Tree := .unary "sin" (.binary "^" (.unary "cos" (.leaf "x"))
      (.binary "-" (.leaf "2.5") (.leaf "_y1")))
    t.Spelled ∧ t.render = "sin((cos(x)^(2.5-_y1)))" ∧
      (tokenize t.render).errors = [] ∧ validate (tokenize t.render).tokens = [] ∧
      Tree.ofRpn (toRpn (tokenize t.render).tokens) = .ok t := by
  intro t
  have hx : IsOperandText "x" := ⟨"x", ⟨.variable, "x", 0⟩, by decide +kernel, rfl, rfl⟩
  have hnumber : IsOperandText "2.5" := ⟨"2.5", ⟨.number, "2.5", 0⟩, by decide +kernel, rfl, rfl⟩
  have hname : IsOperandText "_y1" := ⟨"_y1", ⟨.variable, "_y1", 0⟩, by decide +kernel, rfl, rfl⟩
  have hspelled : t.Spelled :=
    .unary (by decide) (.binary (by decide) (.unary (by decide) (.leaf hx))
      (.binary (by decide) (.leaf hnumber) (.leaf hname)))
  exact ⟨hspelled, by rw [Tree.render_eq]; decide, ofRpn_render hspelled⟩

end Formula
