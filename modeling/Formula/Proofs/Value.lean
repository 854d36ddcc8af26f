import Mathlib.Algebra.Field.Rat
import Mathlib.Data.Rat.Cast.Lemmas
import Mathlib.Tactic.Positivity
import Formula.Lexer
import Formula.Proofs.Reduction

/-!
# Simplification keeps the value

What a formula is worth: its reading is evaluated in a field, where the variables and the functions
may stand for anything, and the power for any operation that does to the literals `0` and `1` what
the rules take for granted (`Interpretation`). A division by zero has no value, and neither has
anything that contains one.

A contraction keeps the value of a phrase that has one (`Contracts.value`), and a phrase can be
replaced within another one by anything that keeps its value (`Context.value_fill`). So a run of
simplification keeps it (`simplify_hasValue`). The result may have a value where the formula has
none, because a factor zero makes everything beside it disappear.
-/

namespace Formula

/-! ### The value of a literal -/

/-- The digits of a text as a number, in front of which the digits of `n` stand. -/
def spellFrom (n : Nat) : List Char → Nat
  | [] => n
  | c :: cs => if c.isDigit then spellFrom (10 * n + (c.toNat - '0'.toNat)) cs else spellFrom n cs

/-- The number of digits behind the decimal point. -/
def decimals (cs : List Char) : Nat :=
  (cs.dropWhile (· != '.')).countP Char.isDigit

/-- **The value of a decimal literal.** -/
def literalValue (s : String) : ℚ :=
  spellFrom 0 s.toList / 10 ^ decimals s.toList

@[simp] theorem literalValue_zero : literalValue "0" = 0 := by
  have hspell : spellFrom 0 "0".toList = 0 := by decide
  rw [literalValue, hspell]
  simp

@[simp] theorem literalValue_one : literalValue "1" = 1 := by
  have hspell : spellFrom 0 "1".toList = 1 := by decide
  have hdecimals : decimals "1".toList = 0 := by decide
  rw [literalValue, hspell, hdecimals]
  simp

theorem digit_pos {c : Char} (hdigit : c.isDigit) (hzero : c ≠ '0') :
    0 < c.toNat - '0'.toNat := by
  have hle : '0'.toNat ≤ c.toNat := (Char.isDigit_iff_toNat.1 hdigit).1
  have hne : c.toNat ≠ '0'.toNat := fun h => hzero (Char.toNat_inj.1 h)
  omega

/-- Once there is a digit other than zero, the number is positive. -/
theorem spellFrom_pos {n : Nat} {cs : List Char}
    (h : 0 < n ∨ ∃ c ∈ cs, c.isDigit ∧ c ≠ '0') : 0 < spellFrom n cs := by
  induction cs generalizing n with
  | nil => simpa [spellFrom] using h
  | cons c cs ih =>
    rw [spellFrom]
    split
    case isTrue hdigit =>
      refine ih ?_
      -- the number so far stays positive, or this digit or a later one makes it so
      rcases h with hn | ⟨d, hd, hd'⟩
      · exact .inl (by omega)
      rcases List.mem_cons.1 hd with rfl | hd
      · have hpos := digit_pos hd'.1 hd'.2
        exact .inl (by omega)
      · exact .inr ⟨d, hd, hd'⟩
    case isFalse hdigit =>
      refine ih (h.imp_right fun ⟨d, hd, hd'⟩ => ?_)
      rcases List.mem_cons.1 hd with rfl | hd
      · exact absurd hd'.1 hdigit
      · exact ⟨d, hd, hd'⟩

/-- A literal with a digit other than zero is positive. -/
theorem literalValue_pos {t : Token} (h : t.isPositiveLiteral) : 0 < literalValue t.text := by
  simp only [Token.isPositiveLiteral, Bool.and_eq_true, List.any_eq_true, bne_iff_ne] at h
  have hspell : 0 < spellFrom 0 t.text.toList := spellFrom_pos (.inr h.2)
  rw [literalValue]
  positivity

/-! ### Interpretations -/

/-- **What the words of a formula stand for** in a field. Of the power it is asked what the rules
take for granted: `x^0` is `1` and `x^1` is `x` for every `x`, a power of one is one, and zero to
the power of a positive literal is zero. Everything else may be anything. -/
structure Interpretation (K : Type*) [Field K] where
  assign : String → K
  apply : String → K → K
  power : K → K → K
  power_zero : ∀ x, power x 0 = 1
  one_power : ∀ x, power 1 x = 1
  power_one : ∀ x, power x 1 = x
  zero_power : ∀ s, 0 < literalValue s → power 0 (literalValue s : K) = 0

variable {K : Type*} [Field K] (M : Interpretation K)

namespace Interpretation

/-- What an operand stands for. -/
def operand (t : Token) : K :=
  if t.kind = .number then (literalValue t.text : K) else M.assign t.text

section Literals

variable {M}

theorem operand_of_isNumber {t : Token} {s : String} (h : t.isNumber s) :
    M.operand t = (literalValue s : K) := by
  simp only [Token.isNumber, Bool.and_eq_true, beq_iff_eq] at h
  rw [operand, if_pos h.1, h.2]

theorem operand_zero {z : Token} (hz : z.isNumber "0") : M.operand z = 0 := by
  rw [operand_of_isNumber hz, literalValue_zero, Rat.cast_zero]

theorem operand_one {u : Token} (hu : u.isNumber "1") : M.operand u = 1 := by
  rw [operand_of_isNumber hu, literalValue_one, Rat.cast_one]

/-- Powers of zero are asked for by the value of their exponent. -/
theorem power_of_isPositiveLiteral {n : Token} (hn : n.isPositiveLiteral) :
    M.power 0 (M.operand n) = 0 := by
  rw [operand, if_pos (Token.kind_of_isPositiveLiteral hn)]
  exact M.zero_power n.text (literalValue_pos hn)

end Literals

variable [DecidableEq K]

/-- What an operator makes of its operands. There is no division by zero. -/
def operate (operator : String) (x y : K) : Option K :=
  match operator with
  | "+" => some (x + y)
  | "-" => some (x - y)
  | "*" => some (x * y)
  | "/" => if y = 0 then none else some (x / y)
  | _ => some (M.power x y)

end Interpretation

variable [DecidableEq K]

/-- **The value of a phrase**, if it has one. A sign stands between a zero and its operand. -/
def Phrase.value : Phrase → Option K
  | operand t => some (M.operand t)
  | region bounds inner =>
    match bounds.function? with
    | some function => inner.value.map (M.apply function.text)
    | none => inner.value
  | signed sign inner => inner.value.bind (M.operate sign.text 0)
  | binary left operator right =>
    left.value.bind fun x => right.value.bind fun y => M.operate operator.text x y

/-- The value of a formula is that of its reading. -/
def Interpretation.HasValue (ts : List Token) (v : K) : Prop :=
  ∃ p : Phrase, p.Reads ts ∧ p.value M = some v

variable {M}

/-- A formula has at most one value. -/
theorem Interpretation.HasValue.unique {ts : List Token} {v w : K} (hv : M.HasValue ts v)
    (hw : M.HasValue ts w) : v = w := by
  obtain ⟨p, hp, hv⟩ := hv
  obtain ⟨q, hq, hw⟩ := hw
  obtain rfl := hp.unique hq
  exact Option.some.inj (hv.symm.trans hw)

/-! ### Phrases in place of others -/

theorem Phrase.value_binary_eq_some {l r : Phrase} {o : Token} {v : K} :
    (binary l o r).value M = some v ↔
      ∃ x y, l.value M = some x ∧ r.value M = some y ∧ M.operate o.text x y = some v := by
  simp [value, Option.bind_eq_some_iff]

theorem Phrase.value_signed_eq_some {s : Token} {p : Phrase} {v : K} :
    (signed s p).value M = some v ↔ ∃ x, p.value M = some x ∧ M.operate s.text 0 x = some v := by
  simp [value, Option.bind_eq_some_iff]

/-- An operation on an operand, which always has a value. -/
theorem Phrase.value_operand_left {t o : Token} {r : Phrase} {x v : K} (ht : M.operand t = x)
    (hv : (binary (operand t) o r).value M = some v) :
    ∃ y, r.value M = some y ∧ M.operate o.text x y = some v := by
  -- the operand has a value, so that of the whole depends on the other one
  obtain ⟨z, y, hz, hy, hv⟩ := value_binary_eq_some.1 hv
  rw [value, ht, Option.some.injEq] at hz
  exact ⟨y, hy, hz ▸ hv⟩

theorem Phrase.value_operand_right {t o : Token} {l : Phrase} {y v : K} (ht : M.operand t = y)
    (hv : (binary l o (operand t)).value M = some v) :
    ∃ x, l.value M = some x ∧ M.operate o.text x y = some v := by
  obtain ⟨x, z, hx, hz, hv⟩ := value_binary_eq_some.1 hv
  rw [value, ht, Option.some.injEq] at hz
  exact ⟨x, hx, hz ▸ hv⟩

/-- A part that keeps its value keeps that of a phrase around it. -/
theorem Frame.value_plug {p q : Phrase} (h : ∀ v, p.value M = some v → q.value M = some v)
    (f : Frame) : ∀ v, (f.plug p).value M = some v → (f.plug q).value M = some v := by
  intro v hv
  cases f with
  | inRegion b =>
    -- the region of a call has the value of the function, other brackets the value inside
    simp only [plug, Phrase.value] at hv ⊢
    split at hv
    case h_1 function hfunction =>
      obtain ⟨x, hx, rfl⟩ := Option.map_eq_some_iff.1 hv
      rw [h x hx]
      rfl
    case h_2 => exact h v hv
  | underSign s =>
    obtain ⟨x, hx, hv⟩ := Phrase.value_signed_eq_some.1 hv
    exact Phrase.value_signed_eq_some.2 ⟨x, h x hx, hv⟩
  | leftOf o r =>
    obtain ⟨x, y, hx, hy, hv⟩ := Phrase.value_binary_eq_some.1 hv
    exact Phrase.value_binary_eq_some.2 ⟨x, y, h x hx, hy, hv⟩
  | rightOf l o =>
    obtain ⟨x, y, hx, hy, hv⟩ := Phrase.value_binary_eq_some.1 hv
    exact Phrase.value_binary_eq_some.2 ⟨x, y, hx, h y hy, hv⟩

/-- **Replacing a part** by one that keeps its value keeps the value of the whole. -/
theorem Context.value_fill {p q : Phrase} (h : ∀ v, p.value M = some v → q.value M = some v)
    (C : Context) : ∀ v, (fill C p).value M = some v → (fill C q).value M = some v := by
  induction C generalizing p q with
  | nil => exact h
  | cons f C ih => exact ih (f.value_plug h)

/-! ### Contractions keep the value -/

namespace Interpretation

theorem operate_of_power {o : Token} (ho : o.joins 3) (x y : K) :
    M.operate o.text x y = some (M.power x y) := by
  have htext : o.text = "^" := by simpa using (Token.joins_cases ho).2
  rw [htext]
  rfl

theorem text_of_isOperator {o : Token} {op : String} (ho : o.isOperator op) : o.text = op := by
  simp only [Token.isOperator, Bool.and_eq_true, beq_iff_eq] at ho
  exact ho.2

/-- A dividend or a first factor zero makes zero. -/
theorem zero_operate {o : Token} (ho : o.joins 2) {y v : K} (hv : M.operate o.text 0 y = some v) :
    v = 0 := by
  have htext : o.text = "*" ∨ o.text = "/" := by simpa using (Token.joins_cases ho).2
  rcases htext with htext | htext
  · rw [htext] at hv
    simpa [operate] using hv.symm
  · rw [htext] at hv
    -- a division of zero by zero has no value
    simp only [operate] at hv
    split at hv
    · simp at hv
    · simpa using hv.symm

/-- A factor or a divisor one changes nothing. -/
theorem operate_one {o : Token} (ho : o.joins 2) (x : K) : M.operate o.text x 1 = some x := by
  have htext : o.text = "*" ∨ o.text = "/" := by simpa using (Token.joins_cases ho).2
  rcases htext with htext | htext <;> rw [htext] <;> simp [operate]

/-- A summand zero changes nothing. -/
theorem operate_zero {o : Token} (ho : o.joins 1) (x : K) : M.operate o.text x 0 = some x := by
  have htext : o.text = "+" ∨ o.text = "-" := by simpa using (Token.joins_cases ho).2
  rcases htext with htext | htext <;> rw [htext] <;> simp [operate]

end Interpretation

open Interpretation in
/-- A term with a factor zero is zero, if it has a value. -/
theorem ZeroTerm.value {z : Token} {p : Phrase} (h : ZeroTerm z p) (hz : z.isNumber "0") {v : K}
    (hv : p.value M = some v) : v = 0 := by
  induction h generalizing v with
  | zero =>
    rw [Phrase.value, operand_zero hz, Option.some.injEq] at hv
    exact hv.symm
  | @product l o ho =>
    -- the factor itself; what it is multiplied by disappears
    obtain ⟨x, -, hv⟩ := Phrase.value_operand_right (operand_zero hz) hv
    rw [text_of_isOperator ho] at hv
    simpa [operate] using hv.symm
  | left _ ho ih =>
    -- the left operand is zero already
    obtain ⟨x, y, hx, -, hv⟩ := Phrase.value_binary_eq_some.1 hv
    obtain rfl := ih hx
    exact zero_operate ho hv

open Interpretation in
/-- **Contractions keep the value.** -/
theorem Contracts.value {rule : Rule} {p q : Phrase} (h : Contracts rule p q) (v : K)
    (hv : p.value M = some v) : q.value M = some v := by
  cases h with
  | unarySign hs =>
    -- the sign has been standing behind a zero all along
    obtain ⟨x, hx, hv⟩ := Phrase.value_signed_eq_some.1 hv
    refine Phrase.value_binary_eq_some.2 ⟨0, x, ?_, hx, hv⟩
    rw [Phrase.value, operand_zero rfl]
  | zeroExponent ho hz =>
    -- whatever the base is, it only has to have a value
    obtain ⟨x, -, hv⟩ := Phrase.value_operand_right (operand_zero hz) hv
    rw [Phrase.value, operand_one rfl, ← hv, operate_of_power ho, M.power_zero]
  | zeroPower hz ho hn =>
    obtain ⟨y, hy, hv⟩ := Phrase.value_operand_left (operand_zero hz) hv
    rw [Phrase.value, Option.some.injEq] at hy
    rw [Phrase.value, operand_zero hz, ← hv, ← hy, operate_of_power ho,
      power_of_isPositiveLiteral hn]
  | multiplyByZero hz hp | zeroDividend hz hp =>
    -- the term may have no value, but if it has one then this is zero
    obtain rfl := hp.value hz hv
    rw [Phrase.value, operand_zero hz]
  | exponentOne ho hu =>
    obtain ⟨x, hx, hv⟩ := Phrase.value_operand_right (operand_one hu) hv
    rw [hx, ← hv, operate_of_power ho, M.power_one]
  | powerOfOne hu ho =>
    obtain ⟨y, -, hv⟩ := Phrase.value_operand_left (operand_one hu) hv
    rw [Phrase.value, operand_one hu, ← hv, operate_of_power ho, M.one_power]
  | factorRight ho hu =>
    obtain ⟨x, hx, hv⟩ := Phrase.value_operand_right (operand_one hu) hv
    rw [hx, ← hv, operate_one ho]
  | factorLeft hu ho =>
    obtain ⟨y, hy, hv⟩ := Phrase.value_operand_left (operand_one hu) hv
    rw [hy, ← hv, text_of_isOperator ho]
    simp [operate]
  | summandRight ho hz =>
    obtain ⟨x, hx, hv⟩ := Phrase.value_operand_right (operand_zero hz) hv
    rw [hx, ← hv, operate_zero ho]
  | summandLeft hz ho =>
    obtain ⟨y, hy, hv⟩ := Phrase.value_operand_left (operand_zero hz) hv
    rw [hy, ← hv, text_of_isOperator ho]
    simp [operate]

/-! ### Runs keep the value -/

/-- A step of simplification keeps the value. -/
theorem Phrase.Step.value {p q : Phrase} (h : p.Step q) {v : K} (hv : p.value M = some v) :
    q.value M = some v := by
  obtain ⟨rule, hrule⟩ := h
  cases hrule with
  | inside hC hq h => exact Context.value_fill h.value _ v hv

theorem value_of_reflTransGen {p q : Phrase} (h : Relation.ReflTransGen Phrase.Step p q) {v : K}
    (hv : p.value M = some v) : q.value M = some v := by
  induction h with
  | refl => exact hv
  | tail _ hstep ih => exact hstep.value ih

variable (M) in
/-- **Simplification keeps the value.** An accepted formula and what it is simplified to have one
reading each, and if the formula has a value, then so has the result, and it is the same. -/
theorem simplify_hasValue {ts out : List Token} (hvalid : validate ts = [])
    (harith : Arithmetic ts) (hok : simplify ts = .ok out) :
    (ts ≠ [] → (∃! p : Phrase, p.Reads ts) ∧ ∃! q : Phrase, q.Reads out) ∧
      ∀ v, M.HasValue ts v → M.HasValue out v := by
  constructor
  · intro hne
    obtain ⟨p, hp⟩ := exists_reads hne hvalid harith
    obtain ⟨q, hq, -, -⟩ := simplify_rewrites hp hok
    exact ⟨⟨p, hp, fun p' hp' => hp'.unique hp⟩, ⟨q, hq, fun q' hq' => hq'.unique hq⟩⟩
  · rintro v ⟨p, hp, hv⟩
    obtain ⟨q, hq, hrun, -⟩ := simplify_rewrites hp hok
    exact ⟨q, hq, value_of_reflTransGen hrun hv⟩

/-- In a field of characteristic zero there is a power that agrees with the usual one wherever the
rules look at it. -/
def Interpretation.plain (K : Type*) [Field K] [CharZero K] [DecidableEq K] (assign : String → K)
    (apply : String → K → K) : Interpretation K where
  assign := assign
  apply := apply
  power x y := if y = 0 ∨ x = 1 then 1 else if y = 1 then x else 0
  power_zero x := by simp
  one_power x := by simp
  power_one x := by
    by_cases hx : x = 1 <;> simp [hx]
  zero_power s hs := by
    have hne : (literalValue s : K) ≠ 0 := by exact_mod_cast hs.ne'
    simp [hne]

/-- With every variable at `5`, both `2-0*x` and what it is simplified to are worth `2`. -/
theorem simplify_hasValue_product :
    let M := Interpretation.plain ℚ (fun _ => 5) fun _ x => x
    let ts := (tokenize "2-0*x").tokens
    let out := (tokenize "2").tokens
    validate ts = [] ∧ Arithmetic ts ∧ simplify ts = .ok out ∧ M.HasValue ts (2 - 0 * 5) ∧
      M.HasValue out (2 - 0 * 5) := by
  intro M ts out
  have hvalid : validate ts = [] := by decide +kernel
  have harith : Arithmetic ts := by decide +kernel
  have hok : simplify ts = .ok out := by
    have hsome : (simplify ts).toOption = some out := by decide +kernel
    cases hrun : simplify ts with
    | error => simp [hrun, Except.toOption] at hsome
    | ok found => simpa [hrun, Except.toOption] using hsome
  -- the reading, with the product on the right of the difference
  have hvalue : M.HasValue ts (2 - 0 * 5) := by
    let factors : Phrase := .binary (.operand ⟨.number, "0", 2⟩) ⟨.operator, "*", 3⟩
      (.operand ⟨.variable, "x", 4⟩)
    have hfactors : factors.Binds 2 := .binary (k := 2) le_rfl (.operand rfl) rfl (.operand rfl)
    refine ⟨.binary (.operand ⟨.number, "2", 0⟩) ⟨.operator, "-", 1⟩ factors,
      ⟨.binary (k := 1) le_rfl (.operand rfl) rfl hfactors, by decide +kernel⟩, ?_⟩
    have htwo : literalValue "2" = 2 := by decide +kernel
    -- the product is evaluated before the difference
    simp [Phrase.value, factors, Interpretation.operand, Interpretation.operate, M,
      Interpretation.plain, htwo]
  exact ⟨hvalid, harith, hok, hvalue, (simplify_hasValue M hvalid harith hok).2 _ hvalue⟩

end Formula
