import Formula.Analysis
import Formula.Proofs.Phrase
import Formula.Proofs.Regrouping

/-!
# Nesting

What the nesting of a token list starts with: an operand and an operator are items by themselves,
and a region is a group of its nested contents, since its brackets enclose a balanced list
(`nest_of_written`). The facts about the front of a list leave open what stands behind it.
-/

namespace Formula

@[simp] theorem nest_nil : nest [] = [] := by
  rw [nest]
  rfl

theorem nest_of_region {ts : List Token} {region : Region} (h : region? ts = some region) :
    nest ts = .group region.bounds (nest region.contents) :: nest region.rest := by
  rw [nest]
  split
  case h_1 found hfound =>
    obtain rfl : region = found := Option.some.inj (h.symm.trans hfound)
    rfl
  case h_2 hnone => simp [h] at hnone

theorem nest_of_token {t : Token} {ts : List Token} (h : region? (t :: ts) = none) :
    nest (t :: ts) = .token t :: nest ts := by
  rw [nest]
  split
  case h_1 found hfound => simp [h] at hfound
  case h_2 => rfl

/-- Operands and operators start no region. -/
theorem region?_eq_none {t : Token} (h : t.isOperand ∨ t.kind = .operator) (ts : List Token) :
    region? (t :: ts) = none := by
  rcases h with h | h
  · rcases Token.kind_of_isOperand h with h | h <;> simp [region?, h]
  · simp [region?, h]

/-- A pair around balanced tokens is split at its closing bracket. -/
theorem splitAtClose_of_balanced {c : Token} {ts : List Token} (hts : Balanced ts) (hc : c.isClose)
    (rest : List Token) : splitAtClose (ts ++ c :: rest) = some (ts, c, rest) := by
  have hopen : ¬ c.isOpen := fun h => Token.not_isClose_of_isOpen h hc
  have hspan : bracketSpan .rightward 1 (ts ++ c :: rest) = some (1 + ts.length) := by
    have hwalk := hts.bracketSpan .rightward 0 (c :: rest)
    simp only [Direction.along] at hwalk
    rw [hwalk, bracketSpan_one_of_leaves (d := .rightward) hopen hc, Option.map_some,
      Nat.add_comm]
  rw [splitAtClose, hspan]
  simp

/-- The region of a bracketed expression, or of a call. -/
theorem region?_brackets {o c : Token} {ts : List Token} (ho : o.isOpen) (hts : Balanced ts)
    (hc : c.isClose) (rest : List Token) :
    region? (o :: ts ++ [c] ++ rest) = some ⟨.brackets o c, ts, rest⟩ := by
  have hsplit := splitAtClose_of_balanced hts hc rest
  simp [region?, Token.kind_of_isOpen ho, hsplit]

theorem region?_call {f o c : Token} {ts : List Token} (hf : f.kind = .function) (ho : o.isOpen)
    (hts : Balanced ts) (hc : c.isClose) (rest : List Token) :
    region? (f :: o :: ts ++ [c] ++ rest) = some ⟨.call f o c, ts, rest⟩ := by
  have hsplit := splitAtClose_of_balanced hts hc rest
  simp [region?, hf, ho, hsplit]

/-- Around the nested contents of a region is its group. -/
theorem nest_of_written {b : Bounds} (hb : b.Written) {ts : List Token} (hts : Balanced ts)
    (rest : List Token) :
    nest (b.front ++ ts ++ b.back ++ rest) = .group b (nest ts) :: nest rest := by
  cases b with
  | implicit => exact hb.elim
  | brackets o c => exact nest_of_region (region?_brackets hb.1 hts hb.2 rest)
  | call f o c => exact nest_of_region (region?_call hb.1 hb.2.1 hts hb.2.2 rest)

/-- A level is all there is to the nesting of its tokens. -/
theorem nest_eq_of_forall {ts : List Token} {items : List Item}
    (h : ∀ rest, nest (ts ++ rest) = items ++ nest rest) : nest ts = items := by
  have hall := h []
  rwa [List.append_nil, nest_nil, List.append_nil] at hall

open Item in
theorem Item.arrangeEach_append (xs ys : List Item) :
    arrangeEach (xs ++ ys) = arrangeEach xs ++ arrangeEach ys := by
  induction xs with
  | nil => rw [arrangeEach, List.nil_append, List.nil_append]
  | cons x xs ih => rw [List.cons_append, arrangeEach, arrangeEach, ih, List.cons_append]

end Formula
