import Formula.Proofs.Divisors
import Formula.Proofs.Value

/-!
# Divisions by zero, reported and real

A division by zero is reported where the literal `0` stands directly behind `/`. No step of a run
brings the two together (`Phrase.Reads.run_safe`), so the report can be made before the first step
or not at all (`simplify_eq_error_iff`).

The literal need not be all of the divisor, which goes on as long as there are powers: in `x/0^0`
the divisor is one. As long as the exponents are positive literals the power stays zero
(`PowerOfZero.value`), and then the formula has no value, whatever its words stand for
(`not_hasValue_of_divisionByZero`).
-/

namespace Formula

open Phrase

/-! ### Reports -/

/-- **A run from safe divisors** comes to a result, and no division by zero is found on the way. -/
theorem Phrase.Reads.run_safe {p : Phrase} {ts : List Token} (hp : p.Reads ts)
    (hsafe : p.SafeDivisors) :
    (∃ out, (run ts).outcome = .ok out) ∧
      ∀ step ∈ (run ts).edits, findDivisionByZero (step.1.apply step.2) = none := by
  fun_induction run ts generalizing p with
  | case1 ts error hdivision =>
    simp [hp.findDivisionByZero_eq_none_iff.2 hsafe] at hdivision
  | case2 ts => exact ⟨⟨ts, rfl⟩, by simp⟩
  | case3 ts hdivision c e hnext later =>
    rename_i ih
    -- the edited list has a reading, and its divisors are safe again
    obtain ⟨q, hq, hstep⟩ := step_of_nextEdit hdivision hnext hp
    have hqsafe := (hstep.replaces hp.binds).safe hsafe
    obtain ⟨hout, hedits⟩ := ih hq hqsafe
    exact ⟨hout, List.forall_mem_cons.2 ⟨hq.findDivisionByZero_eq_none_iff.2 hqsafe, hedits⟩⟩

/-- What a run reports has been there from the start. -/
theorem Phrase.Reads.findDivisionByZero_of_error {p : Phrase} {ts : List Token} (hp : p.Reads ts)
    {error : DivisionByZero} (h : simplify ts = .error error) :
    findDivisionByZero ts = some error := by
  cases hdivision : findDivisionByZero ts with
  | none =>
    obtain ⟨⟨out, hout⟩, -⟩ := hp.run_safe (hp.findDivisionByZero_eq_none_iff.1 hdivision)
    rw [simplify, hout] at h
    simp at h
  | some found =>
    rw [simplify_of_division hdivision] at h
    rw [Except.error.inj h]

/-- **Simplification makes no division by zero.** It fails with the division by zero that is found
in the formula as it is given, and where none is found there, none is found after any edit. -/
theorem simplify_eq_error_iff {ts : List Token} (hvalid : validate ts = [])
    (harith : Arithmetic ts) :
    (∀ error, simplify ts = .error error ↔ findDivisionByZero ts = some error) ∧
      ∀ step ∈ (run ts).edits, findDivisionByZero (step.1.apply step.2) = none := by
  rcases eq_or_ne ts [] with rfl | hne
  · have hrun : run [] = ⟨[], .ok []⟩ := by
      simp [run, findDivisionByZero, nextEdit, nextEditFrom]
    simp [simplify, hrun, findDivisionByZero]
  obtain ⟨p, hp⟩ := exists_reads hne hvalid harith
  refine ⟨fun error => ⟨hp.findDivisionByZero_of_error, simplify_of_division⟩, ?_⟩
  cases hdivision : findDivisionByZero ts with
  | none => exact (hp.run_safe (hp.findDivisionByZero_eq_none_iff.1 hdivision)).2
  | some error =>
    -- the run ends before the first edit
    rw [run, hdivision]
    simp

/-- In `x/1^y*0` the power goes to one, which is dropped before the product goes to zero. -/
theorem simplify_eq_error_iff_power :
    let ts := (tokenize "x/1^y*0").tokens
    validate ts = [] ∧ Arithmetic ts ∧ (run ts).edits.length = 3 ∧ findDivisionByZero ts = none ∧
      (∀ error, simplify ts = .error error ↔ findDivisionByZero ts = some error) ∧
      ∀ step ∈ (run ts).edits, findDivisionByZero (step.1.apply step.2) = none := by
  intro ts
  have hvalid : validate ts = [] := by decide +kernel
  have harith : Arithmetic ts := by decide +kernel
  exact ⟨hvalid, harith, by decide +kernel, by decide +kernel, simplify_eq_error_iff hvalid harith⟩

/-! ### Powers of zero -/

/-- What may stand behind a zero without changing its value: no power, or powers with positive
literals as exponents. -/
def staysZero : List Token → Bool
  | o :: n :: ts => if o.isOperator "^" then n.isPositiveLiteral && staysZero ts else true
  | _ => true

/-- What stands behind the zero in the first division by the literal `0`. -/
def behindZeroDivisor : List Token → Option (List Token)
  | first :: second :: ts =>
    if first.isOperator "/" && second.isNumber "0" then some ts
    else behindZeroDivisor (second :: ts)
  | _ => none

/-- The tokens of the division that is found. -/
theorem exists_of_findDivisionByZero {ts : List Token} {error : DivisionByZero}
    (h : findDivisionByZero ts = some error) :
    ∃ front o z back, ts = front ++ o :: z :: back ∧ o.isOperator "/" ∧ z.isNumber "0" ∧
      behindZeroDivisor ts = some back := by
  fun_induction findDivisionByZero ts with
  | case1 first second ts hzero =>
    obtain ⟨ho, hz⟩ := Bool.and_eq_true_iff.1 hzero
    exact ⟨[], first, second, ts, rfl, ho, hz, by rw [behindZeroDivisor, if_pos hzero]⟩
  | case2 first second ts hnot ih =>
    obtain ⟨front, o, z, back, hts, ho, hz, hback⟩ := ih h
    exact ⟨first :: front, o, z, back, by rw [hts, List.cons_append], ho, hz,
      by rw [behindZeroDivisor, if_neg hnot, hback]⟩
  | case3 => simp at h

/-- A zero, raised to positive literals only. -/
inductive PowerOfZero : Phrase → Prop
  | zero {z : Token} (hz : z.isNumber "0") : PowerOfZero (.operand z)
  | power {p : Phrase} {o n : Token} (hp : PowerOfZero p) (ho : o.joins 3)
      (hn : n.isPositiveLiteral) : PowerOfZero (.binary p o (.operand n))

/-- An atom that starts with an operand is this operand. -/
theorem Phrase.Binds.eq_operand {p : Phrase} (h : p.Binds 4) {t : Token} {ts : List Token}
    (htokens : p.tokens = t :: ts) (ht : t.isOperand) : p = .operand t ∧ ts = [] := by
  cases h with
  | operand =>
    obtain ⟨rfl, rfl⟩ := List.cons.inj htokens
    exact ⟨rfl, rfl⟩
  | @region b p _ hb hp =>
    -- the contents start behind a bracket
    rw [← List.nil_append (t :: ts)] at htokens
    obtain ⟨us, vs, -, hfront, -⟩ := mem_region hb (.inl ht) htokens
    obtain ⟨fs, o, hopen, -⟩ := hb.exists_front
    simp [hopen] at hfront
  | signed hn => omega
  | binary hn _ ho _ =>
    have := Token.joins_bounds ho
    omega

/-- **The divisor around a zero.** What stands in a hole behind `/` is the start of the divisor. If
it is a power of zero, and stays zero with what stands behind the hole, so is all of the divisor. -/
theorem Context.Accepts.exists_divisor {n : Nat} {C : Context} {p : Phrase} {o : Token}
    (h : Accepts n C) (hhead : o ∈ C.before.head?) (ho : o.isOperator "/") (hp : PowerOfZero p)
    (hback : staysZero C.after) :
    ∃ (D : Context) (l d : Phrase), PowerOfZero d ∧ fill C p = fill D (.binary l o d) := by
  have ho2 : o.joins 2 := Token.joins_of_isOperator ho (k := 2) (by decide)
  induction h generalizing p with
  | top => simp at hhead
  | region _ hb =>
    -- behind a bracket or a sign there is no divisor
    obtain ⟨fs, o', hfront, hopen⟩ := hb.exists_front
    obtain rfl : o' = o := by simpa [Frame.before, hfront] using hhead
    exact absurd hopen (Token.not_isOpen_of_operator (Token.kind_of_joins ho2))
  | sign _ hs =>
    obtain rfl : _ = o := by simpa [Frame.before] using hhead
    exact absurd ho (not_isOperator_of_isSign hs)
  | @left _ k o' r E _ ho' hr hE ih =>
    have hhead : o ∈ (before E).head? := by simpa [Frame.before] using hhead
    -- behind the divisor there is no product, so the power goes on
    obtain rfl : k = 3 := by
      by_contra hk
      have := Token.joins_bounds ho'
      exact (hE.closes_before o hhead).2 2 (by omega) ho2
    have hpower : o'.isOperator "^" := by
      rw [← Token.isOperatorIn_singleton]
      exact ho'
    obtain ⟨t, ts, htokens⟩ : ∃ t ts, r.tokens = t :: ts :=
      List.exists_cons_of_ne_nil (List.ne_nil_of_length_pos r.length_tokens_pos)
    obtain ⟨hn, hrest⟩ : t.isPositiveLiteral ∧ staysZero (ts ++ after E) := by
      simpa [Frame.after, htokens, staysZero, hpower] using hback
    have hoperand : t.isOperand := by
      simp [Token.isOperand, Token.kind_of_isPositiveLiteral hn]
    obtain ⟨rfl, rfl⟩ := hr.eq_operand htokens hoperand
    exact ih hhead (.power hp ho' hn) hrest
  | right =>
    -- the hole is the right operand of the `/`
    obtain rfl : _ = o := by simpa [Frame.before] using hhead
    exact ⟨_, _, p, hp, rfl⟩

/-! ### Values -/

section Value

variable {K : Type*} [Field K] [DecidableEq K] {M : Interpretation K}

open Interpretation in
/-- A power of zero is zero. -/
theorem PowerOfZero.value {p : Phrase} (h : PowerOfZero p) : p.value M = some 0 := by
  induction h with
  | zero hz => rw [Phrase.value, operand_zero hz]
  | power _ ho hn ih =>
    rw [value_binary_eq_some]
    exact ⟨0, _, ih, rfl, by rw [operate_of_power ho, power_of_isPositiveLiteral hn]⟩

/-- There is no value of a division by zero. -/
theorem Phrase.value_division_eq_none {l d : Phrase} {o : Token} (ho : o.isOperator "/")
    (hd : d.value M = some 0) : (binary l o d).value M = none := by
  rw [value, hd, Interpretation.text_of_isOperator ho]
  cases l.value M <;> simp [Interpretation.operate]

/-- **A phrase without a value** leaves none to the phrases around it. -/
theorem Context.value_fill_eq_none {p : Phrase} (h : p.value M = none) (C : Context) :
    (fill C p).value M = none := by
  induction C generalizing p with
  | nil => exact h
  | cons f C ih =>
    refine ih ?_
    cases f with
    | inRegion b => cases hb : b.function? <;> simp [Frame.plug, Phrase.value, hb, h]
    | underSign s => simp [Frame.plug, Phrase.value, h]
    | leftOf o r => simp [Frame.plug, Phrase.value, h]
    | rightOf l o => cases hl : l.value M <;> simp [Frame.plug, Phrase.value, h, hl]

variable (M) in
/-- **A reported division by zero is one** if the zero is all of the divisor, or is raised to
positive literals only. Then the formula has no value. -/
theorem not_hasValue_of_divisionByZero {ts : List Token} {error : DivisionByZero}
    (herror : simplify ts = .error error) (hzero : (behindZeroDivisor ts).all staysZero) (v : K) :
    ¬ M.HasValue ts v := by
  rintro ⟨p, hp, hv⟩
  have hdivision := hp.findDivisionByZero_of_error herror
  obtain ⟨front, o, z, back, rfl, ho, hz, hback⟩ := exists_of_findDivisionByZero hdivision
  rw [hback, Option.all_some] at hzero
  -- the zero stands in a hole behind the operator
  have hplace : p.Reads ((o :: front.reverse).reverse ++ z :: back) := by simpa using hp
  obtain ⟨C, hC, rfl, hbefore, rfl⟩ := hplace.exists_context (Token.isOperand_of_isNumber hz)
  obtain ⟨D, l, d, hd, hfill⟩ := hC.exists_divisor (o := o) (by simp [hbefore]) ho (.zero hz) hzero
  rw [hfill, Context.value_fill_eq_none (value_division_eq_none ho hd.value) D] at hv
  simp at hv

/-- There is no value of `x/0^2*y`. -/
theorem not_hasValue_of_divisionByZero_square :
    let M := Interpretation.plain ℚ (fun _ => 5) fun _ x => x
    let ts := (tokenize "x/0^2*y").tokens
    validate ts = [] ∧ Arithmetic ts ∧ simplify ts = .error ⟨1⟩ ∧
      (behindZeroDivisor ts).all staysZero ∧ ∀ v, ¬ M.HasValue ts v := by
  intro M ts
  have herror : simplify ts = .error ⟨1⟩ := simplify_of_division (by decide +kernel)
  have hzero : (behindZeroDivisor ts).all staysZero := by decide +kernel
  exact ⟨by decide +kernel, by decide +kernel, herror, hzero,
    not_hasValue_of_divisionByZero M herror hzero⟩

/-- But `x/0^0` has the value of `x`, and is reported all the same. -/
theorem hasValue_and_divisionByZero :
    let M := Interpretation.plain ℚ (fun _ => 5) fun _ x => x
    let ts := (tokenize "x/0^0").tokens
    validate ts = [] ∧ Arithmetic ts ∧ simplify ts = .error ⟨1⟩ ∧ M.HasValue ts 5 := by
  intro M ts
  refine ⟨by decide +kernel, by decide +kernel, simplify_of_division (by decide +kernel), ?_⟩
  let divisor : Phrase := .binary (.operand ⟨.number, "0", 2⟩) ⟨.operator, "^", 3⟩
    (.operand ⟨.number, "0", 4⟩)
  have hdivisor : divisor.Binds 3 := .binary (k := 3) le_rfl (.operand rfl) rfl (.operand rfl)
  refine ⟨.binary (.operand ⟨.variable, "x", 0⟩) ⟨.operator, "/", 1⟩ divisor,
    ⟨.binary (k := 2) (by decide) (.operand rfl) rfl hdivisor, by decide +kernel⟩, ?_⟩
  -- a power with exponent zero is one
  simp [Phrase.value, divisor, Interpretation.operand, Interpretation.operate, M,
    Interpretation.plain]

end Value

end Formula
