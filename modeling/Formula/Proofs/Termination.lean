import Formula.Lexer
import Formula.Simplify
import Formula.Structure
import Mathlib.Data.List.Perm.Subperm

/-!
# How long simplification takes

Simplification of any list of tokens, an expression or not, takes at most as many edits as there are
tokens and signs (`run_bounded`).

An edit for a leading sign adds a token, and every other edit takes away at least two more than it
puts in (`Cursor.Bounded`). So the count comes down to how often a sign can get a zero, and it can
only do so once. A sign is settled when a zero in leading position stands in front of it, and this
stays so: what an edit removes ends at the end of an operand or with an operator, and never with an
opening bracket or with a zero in leading position (`Cursor.behind_removed`). Hence whatever settles
a sign goes only together with the sign.

The signs that are not settled yet (`unsettled`) therefore become fewer by the one that gets its
zero, and no edit brings in another one. Twice the number of edits is at most the number of tokens
and three times that of such signs (`Trace.length_le`).
-/

namespace Formula

/-! ### Traces -/

/-- **A trace** from one list to another: leftmost edits, carried out one after the other, each with
the cursor it was carried out at. Divisions by zero are not looked for in between. -/
inductive Trace : List Token → List (Cursor × Edit) → List Token → Prop
  | nil {ts : List Token} : Trace ts [] ts
  | cons {ts us : List Token} {c : Cursor} {e : Edit} {steps : List (Cursor × Edit)}
      (h : nextEdit ts = some (c, e)) (hrest : Trace (c.apply e) steps us) :
      Trace ts ((c, e) :: steps) us

/-- **The edits of a run** are a trace, and it leads to a division by zero or to a list where no
rule applies. -/
theorem exists_trace_run (ts : List Token) :
    ∃ us, Trace ts (run ts).edits us ∧
      ((∃ error, findDivisionByZero us = some error ∧ simplify ts = .error error) ∨
        (findDivisionByZero us = none ∧ nextEdit us = none ∧ simplify ts = .ok us)) := by
  unfold simplify
  fun_induction run ts with
  | case1 ts error herror => exact ⟨ts, .nil, .inl ⟨error, herror, rfl⟩⟩
  | case2 ts hnone hnext => exact ⟨ts, .nil, .inr ⟨hnone, hnext, rfl⟩⟩
  | case3 ts _ c e hnext later ih =>
    obtain ⟨us, htrace, hstop⟩ := ih
    exact ⟨us, .cons hnext htrace, hstop⟩

/-- Each edit of a trace is one that applies at its cursor. -/
theorem Trace.edit?_eq {ts us : List Token} {steps : List (Cursor × Edit)}
    (h : Trace ts steps us) : ∀ step ∈ steps, step.1.edit? = some step.2 := by
  induction h with
  | nil => simp
  | cons hnext _ ih => exact List.forall_mem_cons.2 ⟨(nextEdit_eq_some hnext).2, ih⟩

/-! ### What stands in front of a token -/

/-- What the tokens in front of a place are to a sign that stands there. -/
inductive Footing where
  /-- There is none, or an opening bracket. -/
  | leading
  /-- A zero in leading position. -/
  | settled
  | inner
  deriving DecidableEq, Repr

namespace Footing

/-- The footing behind one more token. -/
def next (p : Footing) (t : Token) : Footing :=
  if t.isOpen then .leading else if p = .leading ∧ t.isNumber "0" then .settled else .inner

/-- The footing behind a list of tokens. -/
def behind (p : Footing) (ts : List Token) : Footing :=
  ts.foldl next p

@[simp] theorem behind_nil (p : Footing) : p.behind [] = p := rfl

@[simp] theorem behind_cons (p : Footing) (t : Token) (ts : List Token) :
    p.behind (t :: ts) = (p.next t).behind ts := rfl

@[simp] theorem behind_append (p : Footing) (ts us : List Token) :
    p.behind (ts ++ us) = (p.behind ts).behind us :=
  List.foldl_append

theorem next_of_not_number {t : Token} (hopen : ¬ t.isOpen) (hkind : t.kind ≠ .number)
    (p : Footing) : p.next t = .inner := by
  simp [next, hopen, Token.isNumber, hkind]

theorem next_of_operator {t : Token} (h : t.kind = .operator) (p : Footing) : p.next t = .inner :=
  next_of_not_number (by simp [Token.isOpen, h]) (by simp [h]) p

theorem next_of_isOperatorIn {t : Token} {ops : List String} (h : t.isOperatorIn ops)
    (p : Footing) : p.next t = .inner := by
  simp only [Token.isOperatorIn, Bool.and_eq_true, beq_iff_eq] at h
  exact next_of_operator h.1 p

theorem next_inner {t : Token} (h : ¬ t.isOpen) : inner.next t = .inner := by
  simp [next, h]

/-- In front of a token in leading position there is nothing but what opens a bracket. -/
theorem behind_leading_of_isLeading {c : Cursor} (h : c.isLeading) :
    leading.behind c.before.reverse = .leading := by
  cases hbefore : c.before with
  | nil => rfl
  | cons t ts =>
    have hopen : t.isOpen := by simpa [Cursor.isLeading, hbefore] using h
    simp [next, hopen]

end Footing

open Footing

/-! ### Signs without a zero -/

/-- The signs that do not have a zero of their own in front, on the given footing. -/
def unsettled (p : Footing) : List Token → List Token
  | [] => []
  | t :: ts => (if t.isSign ∧ p ≠ .settled then [t] else []) ++ unsettled (p.next t) ts

theorem unsettled_append (p : Footing) (ts us : List Token) :
    unsettled p (ts ++ us) = unsettled p ts ++ unsettled (p.behind ts) us := by
  induction ts generalizing p with
  | nil => rfl
  | cons t ts ih => rw [List.cons_append, unsettled, ih, unsettled, List.append_assoc, behind_cons]

/-- They are signs of the list. -/
theorem unsettled_sublist_filter (p : Footing) (ts : List Token) :
    (unsettled p ts).Sublist (ts.filter Token.isSign) := by
  induction ts generalizing p with
  | nil => exact .slnil
  | cons t ts ih =>
    rw [unsettled]
    split
    case isTrue h =>
      rw [List.filter_cons_of_pos h.1]
      exact (ih _).cons_cons t
    case isFalse => exact (ih _).trans ((List.sublist_cons_self t ts).filter _)

/-- Inside, more signs lack a zero than on any other footing. -/
theorem unsettled_sublist_inner (p : Footing) (ts : List Token) :
    (unsettled p ts).Sublist (unsettled .inner ts) := by
  induction ts generalizing p with
  | nil => exact .slnil
  | cons t ts ih =>
    rw [unsettled, unsettled]
    refine List.Sublist.append ?_ ?_
    · split_ifs <;> simp_all
    · by_cases hopen : t.isOpen
      · simp [next, hopen]
      · rw [next_inner hopen]
        exact ih _

theorem unsettled_of_numbers {t : Option Token} (h : ∀ u ∈ t, u.kind = .number) (p : Footing) :
    unsettled p t.toList = [] := by
  cases t with
  | none => rfl
  | some u => simp [unsettled, Token.isSign, Token.isOperatorIn, h u rfl]

/-! ### Scans end inside -/

/-- What the scan counts, read from the inside, ends inside. -/
def Scan.StaysInner (scan : Scan) : Prop :=
  ∀ {ts : List Token} {n : Nat}, scan ts = some n → inner.behind (ts.take n) = .inner

/-- What the scan counts, if anything, ends inside, whatever the footing in front. -/
def Scan.ComesInner (scan : Scan) : Prop :=
  ∀ {ts : List Token} {n : Nat}, scan ts = some n → ∀ p : Footing,
    n = 0 ∨ p.behind (ts.take n) = .inner

theorem Scan.ComesInner.staysInner {scan : Scan} (h : scan.ComesInner) : scan.StaysInner := by
  intro ts n hn
  rcases h hn .inner with rfl | hinner
  · simp
  · exact hinner

/-- A span to the right ends with a closing bracket. -/
theorem behind_of_bracketSpan {depth n : Nat} {ts : List Token}
    (h : bracketSpan .rightward depth ts = some n) (p : Footing) :
    p.behind (ts.take n) = .inner := by
  fun_induction bracketSpan .rightward depth ts generalizing n p with
  | case1 => simp at h
  | case2 depth t ts _ ih | case5 t ts _ _ depth ih | case6 depth t ts _ _ ih =>
    obtain ⟨m, hm, rfl⟩ := Option.map_eq_some_iff.1 h
    rw [List.take_succ_cons, behind_cons]
    exact ih hm _
  | case3 => simp at h
  | case4 t ts hopen hclose =>
    obtain rfl : 1 = n := by simpa using h
    have hkind : t.kind = .closeBracket := by
      simpa [Direction.leaves, Token.isClose] using hclose
    exact next_of_not_number hopen (by simp [hkind]) p

theorem atom_staysInner : (Extent.atom .rightward).StaysInner := by
  intro ts n h
  unfold Extent.atom at h
  split at h
  case h_1 => simp at h
  case h_2 t ts =>
    simp only at h
    split at h
    case isTrue hoperand =>
      obtain rfl : 1 = n := by simpa using h
      have hopen : ¬ t.isOpen := by
        intro hopen
        simp_all [Token.isOperand, Token.isOpen]
      exact next_inner hopen
    case isFalse =>
      split at h
      case isTrue => exact behind_of_bracketSpan h .inner
      case isFalse => simp at h

/-- A run of links starts with an operator. -/
theorem Scan.StaysInner.links {piece : Scan} (hpiece : piece.StaysInner) (ops : List String) :
    (links ops piece).ComesInner := by
  intro ts n h p
  fun_induction Scan.links ops piece ts generalizing n p with
  | case1 => simp_all
  | case2 => simp at h
  | case3 t ts hop k hk ih =>
    obtain ⟨m, hm, rfl⟩ := Option.map_eq_some_iff.1 h
    right
    have htake : (t :: ts).take (1 + k + m) = t :: (ts.take k ++ (ts.drop k).take m) := by
      rw [← List.take_add, Nat.add_assoc, Nat.add_comm 1, List.take_succ_cons]
    rw [htake, behind_cons, next_of_isOperatorIn hop, behind_append, hpiece hk]
    rcases ih hm .inner with rfl | hinner
    · simp
    · exact hinner
  | case4 => simp_all

theorem Scan.StaysInner.andThen {first second : Scan} (hfirst : first.StaysInner)
    (hsecond : second.StaysInner) : (first.andThen second).StaysInner := by
  intro ts n h
  unfold Scan.andThen at h
  split at h
  case h_1 => simp at h
  case h_2 k hk =>
    obtain ⟨m, hm, rfl⟩ := Option.map_eq_some_iff.1 h
    rw [List.take_add, behind_append, hfirst hk, hsecond hm]

theorem Scan.ComesInner.andThen {first second : Scan} (hfirst : first.ComesInner)
    (hsecond : second.ComesInner) : (first.andThen second).ComesInner := by
  intro ts n h p
  unfold Scan.andThen at h
  split at h
  case h_1 => simp at h
  case h_2 k hk =>
    obtain ⟨m, hm, rfl⟩ := Option.map_eq_some_iff.1 h
    rw [List.take_add, behind_append]
    -- the first piece may be empty, and then the second one decides
    rcases hfirst hk p with rfl | hinner
    · simpa using hsecond hm p
    · rw [hinner]
      exact .inr (hsecond.staysInner hm)

theorem powerTail_comesInner : (Extent.powerTail .rightward).ComesInner :=
  Scan.StaysInner.links atom_staysInner ["^"]

theorem power_staysInner : (Extent.power .rightward).StaysInner :=
  Scan.StaysInner.andThen atom_staysInner (Scan.ComesInner.staysInner powerTail_comesInner)

theorem termTail_comesInner : (Extent.termTail .rightward).ComesInner :=
  Scan.ComesInner.andThen powerTail_comesInner
    (Scan.StaysInner.links power_staysInner ["*", "/"])

/-! ### What an edit removes -/

namespace Cursor

variable {c : Cursor} {e : Edit}

/-- The tokens that an edit removes. -/
def removed (c : Cursor) (e : Edit) : List Token :=
  (c.before.take e.back).reverse ++ (c.focus :: c.after).take e.ahead

/-- The list in front of an edit, in the three parts that the edit knows. -/
theorem toList_eq (c : Cursor) (e : Edit) :
    c.toList = (c.before.drop e.back).reverse ++ c.removed e ++
      (c.focus :: c.after).drop e.ahead := by
  have hbefore : c.before.reverse =
      (c.before.drop e.back).reverse ++ (c.before.take e.back).reverse := by
    rw [← List.reverse_append, List.take_append_drop]
  rw [toList, hbefore, removed, List.append_assoc, List.append_assoc, List.append_assoc,
    List.take_append_drop]

/-- What is removed up to a number behind an operator ends inside. -/
theorem behind_of_isPrecededBy {ops : List String} {back : Nat} (h : c.isPrecededBy ops)
    (hback : 0 < back) (p : Footing) : p.behind (c.before.take back).reverse = .inner := by
  obtain ⟨o, ts, hbefore, ho⟩ := exists_of_isPrecededBy h
  obtain ⟨n, rfl⟩ : ∃ n, back = n + 1 := ⟨back - 1, by omega⟩
  simp [hbefore, next_of_isOperatorIn ho]

/-- What an edit at a number removes ends inside. -/
theorem Calls.behind_removed (h : c.Calls e) (hnumber : c.focus.kind = .number) (p : Footing) :
    p.behind (c.removed e) = .inner := by
  have hfocus := Token.not_isOpen_of_number hnumber
  cases h with
  | unarySign hsign =>
    -- a sign is no number
    simp [Token.isSign, Token.isOperatorIn, hnumber] at hsign
  | @zeroExponent back _ hop hback =>
    -- the base, back to where the scan ends, and the operator
    have hpos := two_le_of_isPrecededBy (fun hop => two_le_of_links Extent.atom_pos hop) hop hback
    simp [removed, behind_of_isPrecededBy hop (show 0 < back by omega), next_inner hfocus]
  | zeroPower _ _ hop hliteral =>
    -- the base, the operator and the exponent
    obtain ⟨o, ts, hafter, ho⟩ := exists_of_isFollowedBy hop
    obtain ⟨n, hhead, hn⟩ : ∃ n ∈ ts.head?, n.isPositiveLiteral := by
      simpa [hafter, Option.any_eq_true] using hliteral
    obtain ⟨us, rfl⟩ := List.head?_eq_some_iff.1 hhead
    have hnumber := Token.not_isOpen_of_number (Token.kind_of_isPositiveLiteral hn)
    simp [removed, hafter, next_of_isOperatorIn ho, next_inner hnumber]
  | @zeroFactor back ahead _ _ _ hop hterm =>
    obtain ⟨hback, hahead⟩ := term_eq_some_iff.1 hterm
    simp only [removed, Nat.add_comm 1, List.take_succ_cons, behind_append, behind_cons]
    -- the term goes on to the right, or else the zero stands behind `*`
    rcases termTail_comesInner hahead (((p.behind (c.before.take back).reverse)).next c.focus) with
      rfl | hinner
    · rcases hop with hpre | hfol
      · have := two_le_of_isPrecededBy (fun hop => two_le_of_termTail (by simp) hop) hpre hback
        simp [behind_of_isPrecededBy hpre (show 0 < back by omega), next_inner hfocus]
      · have := two_le_of_isFollowedBy (fun hop => two_le_of_termTail (by simp) hop) hfol hahead
        omega
    · exact hinner
  | @powerOfOne n _ _ hop hatom =>
    -- the base, the operator and the atom behind it
    obtain ⟨o, ts, hafter, ho⟩ := exists_of_isFollowedBy hop
    have hatom : Extent.atom .rightward ts = some n := by simpa [hafter] using hatom
    simp [removed, hafter, Nat.add_comm 2, next_of_isOperatorIn ho, atom_staysInner hatom]
  | summandRight _ _ _ hop | exponentOne _ hop | factorRight _ _ hop =>
    simp [removed, behind_of_isPrecededBy hop Nat.one_pos, next_inner hfocus]
  | summandLeft _ _ _ _ hop | factorLeft _ _ _ hop =>
    obtain ⟨o, ts, hafter, ho⟩ := exists_of_isFollowedBy hop
    simp [removed, hafter, next_of_isOperatorIn ho]

/-- **What an edit removes**, unless it is one for a sign: at least two tokens more than it puts in,
and up to a place that no sign leads from. -/
theorem behind_removed (h : c.edit? = some e) :
    (c.focus.isSign ∧ c.isLeading ∧ e = ⟨.unarySign, 0, 0, some (c.literal "0")⟩) ∨
      (e.rule ≠ .unarySign ∧ Shortens c e ∧ ∀ p : Footing, p.behind (c.removed e) = .inner) := by
  have hcalls := calls_of_edit? h
  exact hcalls.sign_or_number.imp_right fun ⟨hnumber, hrule⟩ =>
    ⟨hrule, hcalls.shortens hnumber, hcalls.behind_removed hnumber⟩

/-! ### Edits stay within the list -/

/-- What every edit keeps to: the tokens it removes are a range of the list, and unless it is one
for a sign, the list becomes shorter by at least two. -/
structure Bounded (c : Cursor) (e : Edit) : Prop where
  back_le : e.back ≤ c.index
  ordered : (c.span e).1 ≤ (c.span e).2
  within : (c.span e).2 ≤ c.toList.length
  shorter : e.rule ≠ .unarySign → (c.apply e).length + 2 ≤ c.toList.length

theorem length_toList (c : Cursor) : c.toList.length = c.index + (c.after.length + 1) := by
  simp [toList, index]

theorem Shortens.length_apply_add_two_le (h : c.Shortens e) :
    (c.apply e).length + 2 ≤ c.toList.length := by
  obtain ⟨hback, hahead, hshorter, -⟩ := h
  simp only [length_toList, index, apply, List.length_append, List.length_reverse,
    List.length_drop, List.length_cons]
  omega

theorem bounded_of_edit? (h : c.edit? = some e) : c.Bounded e := by
  have hlist := c.length_toList
  rcases edit?_shape h with ⟨-, -, rfl⟩ | hshort
  · exact ⟨by simp, by simp [span], by simp [span, hlist], by simp⟩
  · have hahead := hshort.ahead_le
    refine ⟨hshort.back_le, ?_, ?_, fun _ => hshort.length_apply_add_two_le⟩
    · simp only [span]
      omega
    · simp only [span]
      omega

end Cursor

/-! ### One edit -/

section Step

variable {c : Cursor} {e : Edit}

/-- An edit for a sign settles that sign and no other. -/
theorem unsettled_of_signEdit (hsign : c.focus.isSign) (hlead : c.isLeading) :
    (unsettled .leading c.toList).Perm (c.focus ::
      unsettled .leading (c.apply ⟨.unarySign, 0, 0, some (c.literal "0")⟩)) := by
  have hfront := behind_leading_of_isLeading hlead
  have hsettled : Footing.leading.next (c.literal "0") = .settled := rfl
  have hliteral : (c.literal "0").isSign = false := rfl
  simp only [Cursor.toList, Cursor.apply, List.drop_zero, Option.toList_some, unsettled_append,
    behind_append, behind_cons, behind_nil, unsettled, hfront, hsettled, hliteral, hsign,
    next_of_isOperatorIn hsign]
  simp

/-- What an edit leaves behind the tokens it removes has no more signs without a zero. -/
theorem unsettled_apply_sublist (hnumber : ∀ t ∈ e.insert, t.kind = .number)
    (hremoved : ∀ p : Footing, p.behind (c.removed e) = .inner) :
    (unsettled .leading (c.apply e)).Sublist (unsettled .leading c.toList) := by
  rw [c.toList_eq e, Cursor.apply]
  simp only [unsettled_append, hremoved, unsettled_of_numbers hnumber, List.append_assoc,
    List.nil_append]
  exact (List.Sublist.refl _).append
    ((unsettled_sublist_inner _ _).trans (List.sublist_append_right _ _))

end Step

/-! ### Whole traces -/

/-- The signs that are given a zero in a sequence of edits. -/
def signsGiven (steps : List (Cursor × Edit)) : List Token :=
  (steps.filter fun step => step.2.rule = .unarySign).map fun step => step.1.focus

namespace Trace

variable {ts us : List Token} {steps : List (Cursor × Edit)}

/-- **No sign gets a zero twice.** Those that get one along a trace, together with those that have
none at its end, are signs that have none at its start. -/
theorem signsGiven_append_subperm (h : Trace ts steps us) :
    (signsGiven steps ++ unsettled .leading us).Subperm (unsettled .leading ts) := by
  induction h with
  | nil => exact .refl _
  | @cons ts us c e steps hnext _ ih =>
    obtain ⟨rfl, hedit⟩ := nextEdit_eq_some hnext
    rcases Cursor.behind_removed hedit with ⟨hsign, hlead, rfl⟩ | ⟨hrule, hshort, hremoved⟩
    · have hgiven : signsGiven ((c, ⟨.unarySign, 0, 0, some (c.literal "0")⟩) :: steps) =
          c.focus :: signsGiven steps := by
        simp [signsGiven]
      rw [hgiven, (unsettled_of_signEdit hsign hlead).subperm_left]
      exact (List.subperm_cons _).2 ih
    · have hgiven : signsGiven ((c, e) :: steps) = signsGiven steps := by
        simp [signsGiven, hrule]
      rw [hgiven]
      exact ih.trans (unsettled_apply_sublist hshort.number hremoved).subperm

theorem length_le (h : Trace ts steps us) :
    2 * steps.length + us.length + 3 * (unsettled .leading us).length ≤
      ts.length + 3 * (unsettled .leading ts).length := by
  induction h with
  | nil => simp
  | @cons ts us c e steps hnext _ ih =>
    obtain ⟨rfl, hedit⟩ := nextEdit_eq_some hnext
    rw [List.length_cons]
    rcases Cursor.behind_removed hedit with ⟨hsign, hlead, rfl⟩ | ⟨hrule, hshort, hremoved⟩
    · -- one token more, and one sign less without a zero
      have hperm := (unsettled_of_signEdit hsign hlead).length_eq
      have hlength : (c.apply ⟨.unarySign, 0, 0, some (c.literal "0")⟩).length =
          c.toList.length + 1 := by
        simp [Cursor.apply, Cursor.toList]
        omega
      rw [List.length_cons] at hperm
      omega
    · -- at least two tokens less
      have hsub := (unsettled_apply_sublist hshort.number hremoved).length_le
      have hlength := hshort.length_apply_add_two_le
      omega

theorem bounded (h : Trace ts steps us) : ∀ step ∈ steps, step.1.Bounded step.2 :=
  fun _ hstep => Cursor.bounded_of_edit? (h.edit?_eq _ hstep)

end Trace

/-- **How long simplification takes.** Whatever the list, each edit that is carried out stays within
the list as it is then. It makes it shorter by at least two tokens if it is not one for a sign, and
no sign gets a zero twice. There are at most as many edits as there are tokens and signs in the
list, and a run makes them until it meets a division by zero or a list where no rule applies. -/
theorem run_bounded (ts : List Token) :
    (∀ steps us, Trace ts steps us →
      (∀ step ∈ steps, step.1.Bounded step.2) ∧
      (signsGiven steps).Subperm (ts.filter Token.isSign) ∧
      steps.length ≤ ts.length + (ts.filter Token.isSign).length) ∧
    ∃ us, Trace ts (run ts).edits us ∧
      ((∃ error, findDivisionByZero us = some error ∧ simplify ts = .error error) ∨
        (findDivisionByZero us = none ∧ nextEdit us = none ∧ simplify ts = .ok us)) := by
  refine ⟨fun steps us htrace => ⟨htrace.bounded, ?_, ?_⟩, exists_trace_run ts⟩
  · have hfront : (signsGiven steps).Sublist (signsGiven steps ++ unsettled .leading us) :=
      List.sublist_append_left _ _
    exact hfront.subperm.trans (htrace.signsGiven_append_subperm.trans
      (unsettled_sublist_filter _ _).subperm)
  · have hlength := htrace.length_le
    have hunsettled := (unsettled_sublist_filter .leading ts).length_le
    have hsigns : (ts.filter Token.isSign).length ≤ ts.length := List.length_filter_le _ _
    omega

/-- In `1*-0++x`, which is no expression, both signs come to lead after a while and get their
zeros. -/
theorem run_bounded_malformed :
    let ts := (tokenize "1*-0++x").tokens
    validate ts ≠ [] ∧ ts.length = 7 ∧ (ts.filter Token.isSign).length = 3 ∧
      signsGiven (run ts).edits = [⟨.operator, "-", 2⟩, ⟨.operator, "+", 5⟩] ∧
      (signsGiven (run ts).edits).Subperm (ts.filter Token.isSign) ∧
      (run ts).edits.length ≤ ts.length + (ts.filter Token.isSign).length := by
  intro ts
  obtain ⟨hall, us, htrace, -⟩ := run_bounded ts
  obtain ⟨-, hsigns, hlength⟩ := hall _ us htrace
  exact ⟨by decide +kernel, by decide +kernel, by decide +kernel, by decide +kernel, hsigns,
    hlength⟩

end Formula
