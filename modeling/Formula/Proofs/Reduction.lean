import Mathlib.Logic.Relation
import Formula.Proofs.Rewriting

/-!
# Runs of simplification

A run that comes to a result rewrites the reading step by step (`simplify_rewrites`), and where it
ends no rule applies any more. In particular no sign is in leading position there
(`leadingSigns_eq_zero_of_nextEdit`).

The edit that is carried out is the leftmost one, and divisions by zero have been looked for before
it. These are the two things that a single edit needs to be a step of rewriting.
-/

namespace Formula

/-! ### The leftmost edit -/

/-- In front of the leftmost place where a rule applies, none does. -/
theorem edit?_previous_of_nextEditFrom {before ts : List Token} {c : Cursor} {e : Edit}
    (h : nextEditFrom before ts = some (c, e))
    (hfirst : ∀ s bs, before = s :: bs → (Cursor.mk bs s ts).edit? = none) :
    ∀ s bs, c.before = s :: bs → (Cursor.mk bs s (c.focus :: c.after)).edit? = none := by
  induction ts generalizing before with
  | nil => simp [nextEditFrom] at h
  | cons t ts ih =>
    rw [nextEditFrom] at h
    split at h
    case h_1 =>
      -- the edit is here
      obtain ⟨rfl, rfl⟩ := Prod.mk.inj (Option.some.inj h)
      exact hfirst
    case h_2 hnone =>
      -- the token passed by is the one in front of the next place
      refine ih h fun s bs hcons => ?_
      obtain ⟨rfl, rfl⟩ := List.cons.inj hcons
      exact hnone

/-- A leading sign calls for an edit. -/
theorem edit?_ne_none_of_leading {c : Cursor} (hs : c.focus.isSign) (hlead : c.isLeading) :
    c.edit? ≠ none := by
  have hkind := Token.kind_of_isSign hs
  simp [Cursor.edit?, hkind, Cursor.signEdit, hs, hlead]

/-- The leftmost edit has no leading sign in front of it. -/
theorem behindNoSign_of_nextEdit {ts : List Token} {c : Cursor} {e : Edit}
    (h : nextEdit ts = some (c, e)) : c.BehindNoSign := by
  intro s bs hbefore hs hlead
  have hnone := edit?_previous_of_nextEditFrom h (by simp) s bs hbefore
  exact edit?_ne_none_of_leading (c := ⟨bs, s, c.focus :: c.after⟩) hs hlead hnone

/-- Where no rule applies, no sign is in leading position. -/
theorem leadingSigns_eq_zero_of_nextEditFrom {before ts : List Token}
    (h : nextEditFrom before ts = none) :
    leadingSigns (before.head?.all Token.isOpen) ts = 0 := by
  induction ts generalizing before with
  | nil => rfl
  | cons t ts ih =>
    rw [nextEditFrom] at h
    split at h
    case h_1 => simp at h
    case h_2 hnone =>
      have hsign : ¬ (before.head?.all Token.isOpen && t.isSign) = true := by
        intro hboth
        -- a leading sign would be edited before anything else
        obtain ⟨hlead, hs⟩ := Bool.and_eq_true_iff.1 hboth
        exact edit?_ne_none_of_leading (c := ⟨before, t, ts⟩) hs hlead hnone
      have hrest := ih h
      simp only [List.head?_cons, Option.all_some] at hrest
      rw [leadingSigns, if_neg hsign, hrest]

theorem leadingSigns_eq_zero_of_nextEdit {ts : List Token} (h : nextEdit ts = none) :
    leadingSigns true ts = 0 :=
  leadingSigns_eq_zero_of_nextEditFrom h

/-! ### Divisions by zero -/

/-- The two tokens are not a division by the literal `0`. -/
def NotByZero (o z : Token) : Prop :=
  o.isOperator "/" → ¬ z.isNumber "0"

instance (o z : Token) : Decidable (NotByZero o z) :=
  inferInstanceAs (Decidable (_ → _))

/-- None is found exactly if there is none. -/
theorem findDivisionByZero_eq_none_iff {ts : List Token} :
    findDivisionByZero ts = none ↔ ts.IsChain NotByZero := by
  fun_induction findDivisionByZero ts with
  | case1 first second tokens hzero =>
    simp only [Bool.and_eq_true] at hzero
    simp [NotByZero, hzero.1, hzero.2]
  | case2 first second tokens hnot ih =>
    simp only [Bool.and_eq_true, not_and] at hnot
    rw [List.isChain_cons_cons, ih]
    exact (and_iff_right hnot).symm
  | case3 ts hshort =>
    rcases ts with _ | ⟨t, _ | ⟨u, ts⟩⟩
    · simp
    · simp
    · exact (hshort t u ts rfl).elim

/-- A zero at the cursor is no divisor. -/
theorem not_divisor_of_findDivisionByZero {c : Cursor} (h : findDivisionByZero c.toList = none)
    (hz : c.focus.isNumber "0") : ¬ c.isPrecededBy ["/"] := by
  intro hpre
  cases hbefore : c.before with
  | nil => simp [Cursor.isPrecededBy, hbefore] at hpre
  | cons o bs =>
    rw [Cursor.isPrecededBy_cons hbefore, Token.isOperatorIn_singleton] at hpre
    have hlist : c.toList = bs.reverse ++ o :: c.focus :: c.after := by
      simp [Cursor.toList, hbefore]
    rw [findDivisionByZero_eq_none_iff, hlist, List.isChain_append, List.isChain_cons_cons] at h
    exact h.2.1.1 hpre hz

/-! ### Runs -/

/-- One step of simplification, by whichever rule. -/
def Phrase.Step (p q : Phrase) : Prop :=
  ∃ rule, Rewrites rule p q

/-- **A step of a run** rewrites the reading. -/
theorem step_of_nextEdit {ts : List Token} {c : Cursor} {e : Edit} {p : Phrase}
    (hdivision : findDivisionByZero ts = none) (h : nextEdit ts = some (c, e)) (hp : p.Reads ts) :
    ∃ q : Phrase, q.Reads (c.apply e) ∧ p.Step q := by
  obtain ⟨rfl, hedit⟩ := nextEdit_eq_some h
  obtain ⟨q, hq, hstep⟩ := Cursor.edit?_rewrites hp
    (not_divisor_of_findDivisionByZero hdivision) (behindNoSign_of_nextEdit h) hedit
  exact ⟨q, hq, e.rule, hstep⟩

/-- **A run** rewrites the reading step by step, up to where no rule applies. -/
theorem simplify_rewrites {ts out : List Token} {p : Phrase} (hp : p.Reads ts)
    (h : simplify ts = .ok out) :
    ∃ q : Phrase, q.Reads out ∧ Relation.ReflTransGen Phrase.Step p q ∧ nextEdit out = none := by
  unfold simplify at h
  fun_induction run ts generalizing p with
  | case1 => simp at h
  | case2 ts _ hnone =>
    obtain rfl : ts = out := by simpa using h
    exact ⟨p, hp, .refl, hnone⟩
  -- the edited list is searched again, so each step of the run has its own check
  | case3 ts hdivision c e hnext later =>
    rename_i ih
    obtain ⟨q, hq, hstep⟩ := step_of_nextEdit hdivision hnext hp
    obtain ⟨r, hr, hrun, hend⟩ := ih hq h
    exact ⟨r, hr, .head hstep hrun, hend⟩

/-- A run that comes to a result has found no division by zero. -/
theorem findDivisionByZero_of_simplify {ts out : List Token} (h : simplify ts = .ok out) :
    findDivisionByZero out = none := by
  unfold simplify at h
  fun_induction run ts with
  | case1 => simp at h
  | case2 ts hdivision _ =>
    obtain rfl : ts = out := by simpa using h
    exact hdivision
  | case3 ts _ c e _ later =>
    rename_i ih
    exact ih h

/-- A result can be compared as an option, which is decidable. -/
theorem simplify_eq_ok_of_toOption {ts out : List Token} (h : (simplify ts).toOption = some out) :
    simplify ts = .ok out := by
  cases hrun : simplify ts with
  | error => simp [hrun, Except.toOption] at h
  | ok found => simpa [hrun, Except.toOption] using h

/-- What a run ends with has a reading without signs. -/
theorem simplify_unsigned {ts out : List Token} {p : Phrase} (hp : p.Reads ts)
    (h : simplify ts = .ok out) : ∃ q : Phrase, q.Reads out ∧ q.signs = 0 := by
  obtain ⟨q, hq, -, hend⟩ := simplify_rewrites hp h
  exact ⟨q, hq, by rw [← hq.leadingSigns_eq, leadingSigns_eq_zero_of_nextEdit hend]⟩

end Formula
