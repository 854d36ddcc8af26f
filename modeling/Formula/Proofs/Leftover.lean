import Formula.Lexer
import Formula.Proofs.Firing

/-!
# What simplification leaves

The result of simplification has ones and zeros only where no rule applies to them. Around a one
there are brackets, signs and the end of the list, and perhaps a division behind it. A zero is
raised to a power that nothing is known about, or it is all that stands in front of a `-` or
between brackets (`simplify_leftover`).

A rule gives up where the operand that it needs cannot be measured, and then an identity would be
left. On an expression this does not happen (`Cursor.zeroEdit_ne_none`, `Cursor.oneEdit_ne_none`).
So it is enough to go through what can stand next to an operand: an opening bracket or an operator
in front, a closing bracket or an operator behind, or nothing.
-/

namespace Formula

open Context

/-- Two tokens that a rule could make less of: an operator and a literal that is neutral or
absorbing for it on that side. -/
def Token.isIdentityWith (t u : Token) : Bool :=
  t.isOperatorIn ["+", "-", "*"] && u.isNumber "0" || t.isOperatorIn ["*", "/"] && u.isNumber "1" ||
    t.isNumber "0" && u.isOperatorIn ["+", "*"] || t.isNumber "1" && u.isOperator "*"

/-- The tokens behind a base: the operator `^` and something other than a positive literal. -/
def RaisedBy (ts : List Token) : Prop :=
  ∃ o n rest, ts = o :: n :: rest ∧ o.isOperator "^" ∧ ¬ n.isPositiveLiteral

theorem Token.joins_layers {t : Token} {k : Nat} (h : t.joins k) :
    t.joins 1 ∨ t.joins 2 ∨ t.joins 3 := by
  have hk := joins_bounds h
  obtain rfl | rfl | rfl : k = 1 ∨ k = 2 ∨ k = 3 := by omega
  · exact .inl h
  · exact .inr (.inl h)
  · exact .inr (.inr h)

/-! ### Next to an operand -/

namespace Cursor

variable {c : Cursor} {C : Context} {t : Token} {ops : List String}

theorem isPrecededBy_of_mem (ht : t ∈ c.before.head?) (hop : t.isOperatorIn ops) :
    c.isPrecededBy ops := by
  rwa [isPrecededBy, Option.mem_def.1 ht]

theorem isFollowedBy_of_mem (ht : t ∈ c.after.head?) (hop : t.isOperatorIn ops) :
    c.isFollowedBy ops := by
  rwa [isFollowedBy, Option.mem_def.1 ht]

namespace StandsIn

theorem isOpen_or_joins (h : c.StandsIn C) (ht : t ∈ c.before.head?) :
    t.isOpen ∨ t.joins 1 ∨ t.joins 2 ∨ t.joins 3 := by
  rw [← h.before_eq] at ht
  rcases h.accepts.bars t (by simpa using ht) with hopen | ⟨k, -, hk⟩
  · exact .inl hopen
  · exact .inr (Token.joins_layers hk)

theorem isClose_or_joins (h : c.StandsIn C) (ht : t ∈ c.after.head?) :
    t.isClose ∨ t.joins 1 ∨ t.joins 2 ∨ t.joins 3 := by
  rw [← h.after_eq] at ht
  rcases h.accepts.isClose_or_joins t ht with hclose | ⟨k, -, hk⟩
  · exact .inl hclose
  · exact .inr (Token.joins_layers hk)

/-- **A one that stays** is at the start or the end of a product, and a dividend at most. -/
theorem of_oneEdit_eq_none (h : c.StandsIn C) (hnone : c.oneEdit = none) :
    (∀ t ∈ c.before.head?, t.isOpen ∨ t.isSign) ∧
      ∀ t ∈ c.after.head?, t.isClose ∨ t.isSign ∨ t.isOperator "/" := by
  -- no rule for a one applies, so no operator is where a rule looks for it
  have hnot := mt (oneEdit_ne_none h) (not_not.2 hnone)
  simp only [not_or] at hnot
  obtain ⟨hexponent, hbase, hfactor, hfirst⟩ := hnot
  constructor
  · intro t ht
    -- of the operators in front only a sign is left
    rcases h.isOpen_or_joins ht with hopen | hsum | hproduct | hpower
    · exact .inl hopen
    · exact .inr hsum
    · exact absurd (isPrecededBy_of_mem ht hproduct) hfactor
    · exact absurd (isPrecededBy_of_mem ht hpower) hexponent
  · intro t ht
    -- behind the one a slash is left as well: it is no rule to divide a one
    rcases h.isClose_or_joins ht with hclose | hsum | hproduct | hpower
    · exact .inl hclose
    · exact .inr (.inl hsum)
    · rcases (t.isOperatorIn_pair _ _).1 hproduct with hstar | hslash
      · exact absurd (isFollowedBy_of_mem ht (t.isOperatorIn_singleton _ ▸ hstar)) hfirst
      · exact .inr (.inr hslash)
    · exact absurd (isFollowedBy_of_mem ht hpower) hbase

/-- A base stands in front of an operator and an exponent. -/
theorem raisedBy (h : c.StandsIn C) (hbase : c.isFollowedBy ["^"])
    (hexponent : ¬ c.isPrecededBy ["^"])
    (hliteral : ¬ (c.after.drop 1).head?.any Token.isPositiveLiteral) : RaisedBy c.after := by
  obtain ⟨o, r, E, rfl, ho, hr, -⟩ := h.exists_base hbase hexponent
  obtain ⟨n, us, htokens, -⟩ := hr.derives_arithmetic.exists_cons
  have hafter : c.after = o :: n :: (us ++ E.after) := by
    simp [← h.after_eq, Frame.after, htokens]
  refine ⟨o, n, us ++ E.after, hafter, ?_, by simpa [hafter] using hliteral⟩
  rwa [← Token.isOperatorIn_singleton]

/-- **A zero that stays** is raised to a power, or it is the start of a sum and all of its term. -/
theorem of_zeroEdit_eq_none (h : c.StandsIn C) (hdivisor : ¬ c.isPrecededBy ["/"])
    (hnone : c.zeroEdit = none) :
    (RaisedBy c.after ∧ ∀ t ∈ c.before.head?, ¬ t.isOperator "^" ∧ ¬ t.isOperator "/") ∨
      ((∀ t ∈ c.before.head?, t.isOpen) ∧ ∀ t ∈ c.after.head?, t.isClose ∨ t.isOperator "-") := by
  -- no rule for a zero applies, so no operator is where a rule looks for it
  have hnot := mt (zeroEdit_ne_none h) (not_not.2 hnone)
  simp only [not_or, not_and] at hnot
  obtain ⟨hexponent, hliteral, hnext⟩ := hnot
  have hpower {t : Token} (ht : t ∈ c.before.head?) : ¬ t.isOperatorIn ["^"] :=
    fun hop => hexponent (isPrecededBy_of_mem ht hop)
  have hslash {t : Token} (ht : t ∈ c.before.head?) : ¬ t.isOperatorIn ["/"] :=
    fun hop => hdivisor (isPrecededBy_of_mem ht hop)
  by_cases hbase : c.isFollowedBy ["^"]
  · -- a zero that is raised to a power stays only if the exponent is no literal
    refine .inl ⟨h.raisedBy hbase hexponent (hliteral hbase), fun t ht => ?_⟩
    rw [← Token.isOperatorIn_singleton, ← Token.isOperatorIn_singleton]
    exact ⟨hpower ht, hslash ht⟩
  right
  -- otherwise it is a factor or a summand, and nearly every operator beside it calls for a rule
  obtain ⟨hstar, hfactor, hsummand, hplus⟩ := hnext hbase
  constructor
  · -- in front of the zero nothing can be left but a bracket
    intro t ht
    rcases h.isOpen_or_joins ht with hopen | hsum | hproduct | hpow
    · exact hopen
    · exact absurd (isPrecededBy_of_mem ht hsum) hsummand
    · rcases (t.isOperatorIn_pair _ _).1 hproduct with hop | hop
      · exact absurd (isPrecededBy_of_mem ht (t.isOperatorIn_singleton _ ▸ hop)) hstar
      · exact absurd (t.isOperatorIn_singleton _ ▸ hop) (hslash ht)
    · exact absurd hpow (hpower ht)
  · -- behind it a minus can be left, since a zero may be subtracted from
    intro t ht
    rcases h.isClose_or_joins ht with hclose | hsum | hproduct | hpow
    · exact .inl hclose
    · rcases (t.isOperatorIn_pair _ _).1 hsum with hop | hop
      · exact absurd (isFollowedBy_of_mem ht (t.isOperatorIn_singleton _ ▸ hop)) hplus
      · exact .inr hop
    · exact absurd (isFollowedBy_of_mem ht hproduct) hfactor
    · exact absurd (isFollowedBy_of_mem ht hpow) hbase

end StandsIn

end Cursor

/-! ### The result of simplification -/

/-- A one that simplification leaves, and the tokens around it. -/
def OneStays (front back : List Token) : Prop :=
  (∀ t ∈ front.getLast?, t.isOpen ∨ t.isSign) ∧
    ∀ t ∈ back.head?, t.isClose ∨ t.isSign ∨ t.isOperator "/"

/-- A zero that simplification leaves, and the tokens around it. -/
def ZeroStays (front back : List Token) : Prop :=
  (RaisedBy back ∧ ∀ t ∈ front.getLast?, ¬ t.isOperator "^" ∧ ¬ t.isOperator "/") ∨
    ((∀ t ∈ front.getLast?, t.isOpen) ∧ ∀ t ∈ back.head?, t.isClose ∨ t.isOperator "-")

/-- Every one and every zero of the list may stay. -/
def LiteralsStay (ts : List Token) : Prop :=
  ∀ front t back, ts = front ++ t :: back →
    (t.isNumber "1" → OneStays front back) ∧ (t.isNumber "0" → ZeroStays front back)

theorem LiteralsStay.of_atRest {p : Phrase} {ts : List Token} (hp : p.Reads ts)
    (hdivision : findDivisionByZero ts = none) (hrest : AtRest ts) : LiteralsStay ts := by
  rintro front t back rfl
  -- each literal of the list is looked at with a cursor on it
  let c : Cursor := ⟨front.reverse, t, back⟩
  have hlist : c.toList = front ++ t :: back := by simp [c, Cursor.toList]
  have hbefore : c.before.head? = front.getLast? := by simp [c]
  rw [← hlist] at hp hdivision hrest
  have hnone := hrest.edit?_eq_none
  constructor
  · -- a one at rest
    intro (hone : c.focus.isNumber "1")
    obtain ⟨C, hC, -⟩ := Cursor.exists_standsIn hp (Token.isOperand_of_isNumber hone)
    rw [Cursor.edit?_of_isNumber_one hone] at hnone
    have hstays := hC.of_oneEdit_eq_none hnone
    rwa [hbefore] at hstays
  · -- a zero at rest, and no divisor
    intro (hzero : c.focus.isNumber "0")
    obtain ⟨C, hC, -⟩ := Cursor.exists_standsIn hp (Token.isOperand_of_isNumber hzero)
    rw [Cursor.edit?_of_isNumber_zero hzero] at hnone
    have hstays :=
      hC.of_zeroEdit_eq_none (not_divisor_of_findDivisionByZero hdivision hzero) hnone
    rwa [hbefore] at hstays

/-- An operator opens no bracket, and is of one layer only. -/
theorem OneStays.not_joins {front back : List Token} {o : Token}
    (h : OneStays (front ++ [o]) back) : ¬ o.joins 2 := by
  intro ho
  rcases h.1 o (by simp) with hopen | hsign
  · exact Token.not_isOpen_of_operator (Token.kind_of_joins ho) hopen
  · exact absurd (Token.joins_unique (j := 1) hsign ho) (by decide)

/-- **An identity is left** only at a zero that is raised to a power. -/
theorem LiteralsStay.raisedBy {front back : List Token} {t u : Token}
    (h : LiteralsStay (front ++ t :: u :: back)) (hpair : t.isIdentityWith u) :
    u.isNumber "0" ∧ RaisedBy back := by
  obtain ⟨hone, hzero⟩ := h front t (u :: back) rfl
  obtain ⟨hone', hzero'⟩ := h (front ++ [t]) u back (by simp)
  simp only [Token.isIdentityWith, Bool.or_eq_true, Bool.and_eq_true] at hpair
  rcases hpair with ((⟨ht, hu⟩ | ⟨ht, hu⟩) | ⟨ht, hu⟩) | ⟨ht, hu⟩
  · -- a zero behind an operator
    rcases hzero' hu with ⟨hraised, -⟩ | ⟨hfront, -⟩
    · exact ⟨hu, hraised⟩
    · exact absurd (hfront t (by simp))
        (Token.not_isOpen_of_operator (Token.kind_of_isOperatorIn ht))
  · -- a one behind `*` or `/`
    exact absurd ht (hone' hu).not_joins
  · -- a zero in front of `+` or `*`
    rcases hzero ht with ⟨⟨o, n, rest, hback, hpower, -⟩, -⟩ | ⟨-, hbehind⟩
    · obtain ⟨rfl, -⟩ := List.cons.inj hback
      simp [Token.isOperatorIn_of_isOperator hpower] at hu
    · rcases hbehind u rfl with hclose | hminus
      · exact absurd hclose (Token.not_isClose_of_operator (Token.kind_of_isOperatorIn hu))
      · simp [Token.isOperatorIn_of_isOperator hminus] at hu
  · -- a one in front of `*`
    have hstar := Token.isOperatorIn_of_isOperator hu
    rcases (hone ht).2 u rfl with hclose | hsign | hslash
    · have hkind : u.kind = .operator := Token.kind_of_joins (k := 2) (hstar _)
      exact absurd hclose (Token.not_isClose_of_operator hkind)
    · simp [Token.isSign, hstar] at hsign
    · rw [← Token.isOperatorIn_singleton] at hslash
      simp [hstar] at hslash

/-- **What simplification leaves.** A one in the result stands behind nothing but an opening
bracket or a sign, and in front of nothing but a closing bracket, a sign or `/`. A zero is raised to
something other than a positive literal, and is neither an exponent nor a divisor; or it stands
behind nothing but an opening bracket, and in front of nothing but a closing bracket or `-`. So of
the identities `*0`, `0*`, `1*`, `*1`, `/1`, `+0`, `0+` and `-0` none is left, except at a zero with
such a power. -/
theorem simplify_leftover {ts out : List Token} (hvalid : validate ts = [])
    (harith : Arithmetic ts) (hok : simplify ts = .ok out) :
    LiteralsStay out ∧ ∀ front t u back, out = front ++ t :: u :: back → t.isIdentityWith u →
      u.isNumber "0" ∧ RaisedBy back := by
  have hstay : LiteralsStay out := by
    by_cases hne : ts = []
    · -- nothing comes of nothing
      subst hne
      obtain rfl : [] = out := by
        simpa [simplify, run, findDivisionByZero, nextEdit, nextEditFrom] using hok
      intro front t back h
      simp at h
    · obtain ⟨p, hp⟩ := exists_reads hne hvalid harith
      obtain ⟨q, hq, -, hend⟩ := simplify_rewrites hp hok
      exact .of_atRest hq (findDivisionByZero_of_simplify hok) (atRest_of_nextEdit hend)
  refine ⟨hstay, ?_⟩
  rintro front t u back rfl hpair
  exact hstay.raisedBy hpair

/-- In `x*0^y-1/z*1` the last factor goes. The zero stays behind `*`, as it is raised to a
variable, and the one in front of `/` stays. -/
theorem simplify_leftover_power :
    let ts := (tokenize "x*0^y-1/z*1").tokens
    let out := (tokenize "x*0^y-1/z").tokens
    validate ts = [] ∧ Arithmetic ts ∧ simplify ts = .ok out ∧ LiteralsStay out ∧
      RaisedBy (out.drop 3) := by
  intro ts out
  have hvalid : validate ts = [] := by decide +kernel
  have harith : Arithmetic ts := by decide +kernel
  have hok : simplify ts = .ok out := simplify_eq_ok_of_toOption (by decide +kernel)
  have hout : out = [⟨.variable, "x", 0⟩] ++ ⟨.operator, "*", 1⟩ :: ⟨.number, "0", 2⟩ ::
      out.drop 3 := by decide +kernel
  obtain ⟨hstay, hidentity⟩ := simplify_leftover hvalid harith hok
  exact ⟨hvalid, harith, hok, hstay, (hidentity _ _ _ _ hout (by decide)).2⟩

end Formula
