import Formula.Proofs.Grammar
import Formula.Rpn
import Mathlib.Data.List.TakeWhile

/-!
# Reverse Polish notation reorders

Putting tokens into reverse Polish notation moves them and drops the brackets, and does nothing
else, whatever the list is. When a token comes, some of those that wait go out, and the token goes
out too or waits in its turn (`Moves`); no token is copied on the way, and only a bracket is
dropped. Waiting is for functions, operators and opening brackets alone (`Waits`), so operands are
never overtaken.

* `exists_moves` — the step, one case for each kind of token;
* `toRpnFrom_perm`, `filter_isOperand_toRpnFrom` — the run;
* `toRpn_reorders` — both from the start.
-/

namespace Formula

/-- The tokens may wait: none of them is an operand or a closing bracket. -/
def Waits (waiting : List Token) : Prop :=
  ∀ t ∈ waiting, ¬ t.isOperand ∧ ¬ t.isClose

/-- The tokens but for the brackets. -/
def withoutBrackets (ts : List Token) : List Token :=
  ts.filter fun t => !t.isBracket

@[simp] theorem withoutBrackets_nil : withoutBrackets [] = [] := rfl

theorem withoutBrackets_append (xs ys : List Token) :
    withoutBrackets (xs ++ ys) = withoutBrackets xs ++ withoutBrackets ys :=
  List.filter_append ..

theorem withoutBrackets_cons_of_bracket {t : Token} (h : t.isBracket) (ts : List Token) :
    withoutBrackets (t :: ts) = withoutBrackets ts := by
  rw [withoutBrackets, List.filter_cons_of_neg (by simp [h]), withoutBrackets]

theorem withoutBrackets_cons_of_not {t : Token} (h : t.isBracket = false) (ts : List Token) :
    withoutBrackets (t :: ts) = t :: withoutBrackets ts := by
  rw [withoutBrackets, List.filter_cons_of_pos (by simp [h]), withoutBrackets]

theorem withoutBrackets_eq_self {ts : List Token} (h : ∀ t ∈ ts, t.isBracket = false) :
    withoutBrackets ts = ts :=
  List.filter_eq_self.2 fun t ht => by simp [h t ht]

namespace Waits

variable {waiting : List Token}

theorem cons (h : Waits waiting) {t : Token} (hoperand : ¬ t.isOperand) (hclose : ¬ t.isClose) :
    Waits (t :: waiting) :=
  List.forall_mem_cons.2 ⟨⟨hoperand, hclose⟩, h⟩

theorem sublist (h : Waits waiting) {fewer : List Token} (hfewer : fewer.Sublist waiting) :
    Waits fewer :=
  fun t ht => h t (hfewer.subset ht)

/-- No operand comes out of what waits. -/
theorem filter_isOperand (h : Waits waiting) : waiting.filter Token.isOperand = [] :=
  List.filter_eq_nil_iff.2 fun t ht => (h t ht).1

/-- If tokens go out as long as no opening bracket comes, then no bracket goes out. -/
theorem withoutBrackets_eq (h : Waits waiting) (goesOut : Token → Bool)
    (hopen : ∀ t : Token, t.isOpen → ¬ goesOut t) :
    withoutBrackets waiting =
      waiting.takeWhile goesOut ++ withoutBrackets (waiting.dropWhile goesOut) := by
  have hout : withoutBrackets (waiting.takeWhile goesOut) = waiting.takeWhile goesOut :=
    withoutBrackets_eq_self fun t ht => Token.isBracket_eq_false_iff.2
      ⟨fun ho => hopen t ho (List.mem_takeWhile_imp ht),
        (h t ((List.takeWhile_sublist _).subset ht)).2⟩
  rw [← hout, ← withoutBrackets_append, List.takeWhile_append_dropWhile]

end Waits

/-! ### One token -/

/-- **A token comes** while others wait: the tokens `out` go out, and `later` wait from then on. Of
the token and those that waited nothing is lost but brackets, nothing comes twice, and an operand
comes out at once. -/
structure Moves (waiting : List Token) (t : Token) (out later : List Token) : Prop where
  toRpnFrom_eq : ∀ ts, toRpnFrom waiting (t :: ts) = out ++ toRpnFrom later ts
  waits : Waits later
  perm : (out ++ withoutBrackets later).Perm (withoutBrackets (waiting ++ [t]))
  operands : out.filter Token.isOperand = [t].filter Token.isOperand

section Moves

variable {waiting : List Token} {t : Token}

theorem moves_operand (h : Waits waiting) (ht : t.isOperand) : Moves waiting t [t] waiting where
  toRpnFrom_eq ts := by
    rcases Token.kind_of_isOperand ht with hkind | hkind <;> simp [toRpnFrom, hkind]
  waits := h
  perm := by
    have hbracket : t.isBracket = false := Token.isBracket_eq_false_iff.2
      ⟨Token.not_isOpen_of_isOperand ht, Token.not_isClose_of_isOperand ht⟩
    rw [withoutBrackets_append, withoutBrackets_cons_of_not hbracket]
    exact List.perm_append_comm
  operands := rfl

theorem moves_open (h : Waits waiting) (ht : t.isOpen) : Moves waiting t [] (t :: waiting) where
  toRpnFrom_eq ts := by simp [toRpnFrom, Token.kind_of_isOpen ht]
  waits := h.cons (fun hoperand => Token.not_isOpen_of_isOperand hoperand ht)
    (Token.not_isClose_of_isOpen ht)
  perm := by
    have hbracket : t.isBracket := Token.isBracket_eq_true_iff.2 (.inl ht)
    rw [withoutBrackets_append, withoutBrackets_cons_of_bracket hbracket,
      withoutBrackets_cons_of_bracket hbracket, withoutBrackets_nil, List.append_nil,
      List.nil_append]
  operands := by
    rw [List.filter_cons_of_neg fun hoperand => Token.not_isOpen_of_isOperand hoperand ht]

/-- A closing bracket lets out what waits in front of the first opening one, which goes with it. -/
theorem moves_close (h : Waits waiting) (ht : t.isClose) :
    Moves waiting t (waiting.takeWhile (!·.isOpen)) (waiting.dropWhile (!·.isOpen)).tail where
  toRpnFrom_eq ts := by simp [toRpnFrom, Token.kind_of_isClose ht]
  waits := h.sublist ((List.tail_sublist _).trans (List.dropWhile_sublist _))
  perm := by
    have hbracket : t.isBracket := Token.isBracket_eq_true_iff.2 (.inr ht)
    -- what the scan stops at, if anything, is the partner, and a bracket is not missed
    have hpartner : withoutBrackets (waiting.dropWhile (!·.isOpen)) =
        withoutBrackets (waiting.dropWhile (!·.isOpen)).tail := by
      have hhead := List.head?_dropWhile_not (!·.isOpen) waiting
      cases hdrop : waiting.dropWhile (!·.isOpen) with
      | nil => rfl
      | cons o below =>
        have ho : o.isOpen := by simpa [hdrop] using hhead
        exact withoutBrackets_cons_of_bracket (Token.isBracket_eq_true_iff.2 (.inl ho)) below
    have hsplit := h.withoutBrackets_eq (!·.isOpen) (by simp)
    rw [withoutBrackets_append, withoutBrackets_cons_of_bracket hbracket, ← hpartner, ← hsplit,
      withoutBrackets_nil, List.append_nil]
  operands := by
    rw [(h.sublist (List.takeWhile_sublist _)).filter_isOperand, List.filter_cons_of_neg
      fun hoperand => Token.not_isClose_of_isOperand hoperand ht, List.filter_nil]

/-- Functions and operators bind more tightly than brackets. -/
theorem Token.precedence_pos (ht : t.kind = .function ∨ t.kind = .operator) : 0 < t.precedence := by
  rcases ht with ht | ht
  · simp [Token.precedence, ht]
  · simp only [Token.precedence, ht]
    split
    · decide
    · split <;> decide

/-- A function or an operator lets out what does not bind more loosely, which holds of no bracket,
and waits. -/
theorem moves_binding (h : Waits waiting) (ht : t.kind = .function ∨ t.kind = .operator) :
    Moves waiting t (waiting.takeWhile fun u => t.precedence ≤ u.precedence)
      (t :: waiting.dropWhile fun u => t.precedence ≤ u.precedence) where
  toRpnFrom_eq ts := by rcases ht with ht | ht <;> simp [toRpnFrom, ht]
  waits := by
    refine (h.sublist (List.dropWhile_sublist _)).cons ?_ ?_ <;> rcases ht with ht | ht <;>
      simp [Token.isOperand, Token.isClose, ht]
  perm := by
    -- none of these tokens is a bracket itself
    have hbracket : t.isBracket = false := by
      rcases ht with ht | ht <;> simp [Token.isBracket, Token.isOpen, Token.isClose, ht]
    have hsplit : withoutBrackets waiting =
        (waiting.takeWhile fun u => t.precedence ≤ u.precedence) ++
          withoutBrackets (waiting.dropWhile fun u => t.precedence ≤ u.precedence) := by
      -- an opening bracket binds too loosely to go out
      refine h.withoutBrackets_eq _ fun u hopen => ?_
      have hpos := Token.precedence_pos ht
      have hzero : u.precedence = 0 := by simp [Token.precedence, Token.kind_of_isOpen hopen]
      rw [decide_eq_true_iff]
      omega
    rw [withoutBrackets_append, hsplit, withoutBrackets_cons_of_not hbracket,
      withoutBrackets_cons_of_not hbracket, List.append_assoc]
    exact (List.perm_append_singleton _ _).symm.append_left _
  operands := by
    have hoperand : ¬ t.isOperand := by
      rcases ht with ht | ht <;> simp [Token.isOperand, ht]
    rw [(h.sublist (List.takeWhile_sublist _)).filter_isOperand, List.filter_cons_of_neg hoperand,
      List.filter_nil]

/-- **Every token moves**, whatever waits. -/
theorem exists_moves (h : Waits waiting) (t : Token) : ∃ out later, Moves waiting t out later := by
  cases hkind : t.kind with
  | number | «variable» => exact ⟨_, _, moves_operand h (by simp [Token.isOperand, hkind])⟩
  | function => exact ⟨_, _, moves_binding h (.inl hkind)⟩
  | operator => exact ⟨_, _, moves_binding h (.inr hkind)⟩
  | openBracket => exact ⟨_, _, moves_open h (by simp [Token.isOpen, hkind])⟩
  | closeBracket => exact ⟨_, _, moves_close h (by simp [Token.isClose, hkind])⟩

end Moves

/-! ### All tokens -/

/-- **Nothing is lost or made up**: what comes out is what waits and what comes, but for the
brackets. -/
theorem toRpnFrom_perm {waiting : List Token} (h : Waits waiting) (ts : List Token) :
    (toRpnFrom waiting ts).Perm (withoutBrackets (waiting ++ ts)) := by
  induction ts generalizing waiting with
  | nil =>
    -- at the end only opening brackets are left to drop
    rw [toRpnFrom, List.append_nil]
    refine .of_eq (List.filter_congr fun t ht => ?_)
    have hclose : t.isClose = false := by simpa using (h t ht).2
    rw [Token.isBracket, hclose, Bool.or_false]
  | cons t ts ih =>
    -- one token goes its way, and the rest is reordered behind it
    obtain ⟨out, later, hmoves⟩ := exists_moves h t
    calc toRpnFrom waiting (t :: ts)
        = out ++ toRpnFrom later ts := hmoves.toRpnFrom_eq ts
      List.Perm _ (out ++ withoutBrackets (later ++ ts)) := (ih hmoves.waits).append_left out
      _ = (out ++ withoutBrackets later) ++ withoutBrackets ts := by
        rw [withoutBrackets_append, List.append_assoc]
      List.Perm _ (withoutBrackets (waiting ++ [t]) ++ withoutBrackets ts) :=
        hmoves.perm.append_right _
      _ = withoutBrackets (waiting ++ t :: ts) := by
        rw [← withoutBrackets_append, List.append_assoc, List.singleton_append]

/-- **Operands stay in order.** -/
theorem filter_isOperand_toRpnFrom {waiting : List Token} (h : Waits waiting) (ts : List Token) :
    (toRpnFrom waiting ts).filter Token.isOperand = ts.filter Token.isOperand := by
  induction ts generalizing waiting with
  | nil => rw [toRpnFrom, (h.sublist List.filter_sublist).filter_isOperand, List.filter_nil]
  | cons t ts ih =>
    obtain ⟨out, later, hmoves⟩ := exists_moves h t
    rw [hmoves.toRpnFrom_eq, List.filter_append, hmoves.operands, ih hmoves.waits,
      ← List.filter_append, List.singleton_append]

/-- **Reverse Polish notation only reorders.** Of any token list whatsoever, all tokens but the
brackets come out, each as often as it is there and as it is there, and no bracket does; numbers and
variables come out in the order in which they stand. -/
theorem toRpn_reorders (ts : List Token) :
    (toRpn ts).Perm (ts.filter fun t => !t.isBracket) ∧ (∀ t ∈ toRpn ts, ¬ t.isBracket) ∧
      (toRpn ts).filter Token.isOperand = ts.filter Token.isOperand := by
  have hnone : Waits [] := by simp [Waits]
  have hperm : (toRpn ts).Perm (ts.filter fun t => !t.isBracket) := toRpnFrom_perm hnone ts
  refine ⟨hperm, fun t ht => ?_, filter_isOperand_toRpnFrom hnone ts⟩
  simpa using (List.mem_filter.1 (hperm.mem_iff.1 ht)).2

/-- Closing brackets without a partner let out what waits, and opening ones are dropped. -/
example (a b : Token) (ha : a.isOperand) (hb : b.isOperand) :
    toRpn [⟨.function, "sin", 0⟩, a, ⟨.operator, "-", 1⟩, ⟨.closeBracket, ")", 2⟩,
        ⟨.openBracket, "(", 3⟩, b] =
      [a, ⟨.function, "sin", 0⟩, ⟨.operator, "-", 1⟩, b] := by
  rcases Token.kind_of_isOperand ha with ha | ha <;>
    rcases Token.kind_of_isOperand hb with hb | hb <;>
    simp [toRpn, toRpnFrom, Token.isOpen, Token.precedence, ha, hb]

end Formula
