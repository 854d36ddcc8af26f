import Formula.Proofs.Reduction

/-!
# Normal forms

What simplification comes to, computed in one go. `Phrase.contract?` is what the rules make of an
operation if they apply to it, and `Phrase.normalForm` uses it from the inside out. The places of
tokens are left out of account, since rules that are applied in another order can leave the same
literal at another place.

Every contraction keeps the normal form, and so does every step of rewriting
(`Phrase.Step.normalForm_eq`). A phrase that no rule applies to is its own normal form
(`Phrase.Normal.normalForm_eq`). Together these say that whatever the steps are, they end in the
same phrase.
-/

namespace Formula

/-! ### Leaving out places -/

/-- The token without its place. -/
def Token.bare (t : Token) : Token :=
  ⟨t.kind, t.text, 0⟩

namespace Token

variable (t : Token)

@[simp] theorem kind_bare : t.bare.kind = t.kind := rfl

@[simp] theorem text_bare : t.bare.text = t.text := rfl

@[simp] theorem joins_bare (k : Nat) : t.bare.joins k = t.joins k := rfl

@[simp] theorem isOperator_bare (op : String) : t.bare.isOperator op = t.isOperator op := rfl

@[simp] theorem isNumber_bare (literal : String) : t.bare.isNumber literal = t.isNumber literal :=
  rfl

@[simp] theorem isPositiveLiteral_bare : t.bare.isPositiveLiteral = t.isPositiveLiteral := rfl

/-- An operator is of no other layer. -/
theorem joins_eq_false {t : Token} {j k : Nat} (h : t.joins j) (hne : j ≠ k) :
    t.joins k = false := by
  rw [← Bool.not_eq_true]
  exact fun hk => hne (joins_unique h hk)

theorem joins_of_isOperator {t : Token} {op : String} {k : Nat} (h : t.isOperator op)
    (hop : op ∈ layerOps k) : t.joins k := by
  simp only [isOperator, Bool.and_eq_true, beq_iff_eq] at h
  simp [joins, isOperatorIn, h.1, h.2, hop]

end Token

/-- The bounds without their places. -/
def Bounds.bare : Bounds → Bounds
  | implicit => implicit
  | brackets opening closing => brackets opening.bare closing.bare
  | call function opening closing => call function.bare opening.bare closing.bare

@[simp] theorem Bounds.bare_bare (b : Bounds) : b.bare.bare = b.bare := by
  cases b <;> rfl

namespace Phrase

/-- The phrase without the places of its tokens. -/
def bare : Phrase → Phrase
  | operand t => operand t.bare
  | region b p => region b.bare p.bare
  | signed s p => signed s.bare p.bare
  | binary l o r => binary l.bare o.bare r.bare

@[simp] theorem tokens_bare (p : Phrase) : p.bare.tokens = p.tokens.map Token.bare := by
  induction p with
  | operand t => rfl
  | region b p ih => cases b <;> simp [bare, tokens, Bounds.bare, Bounds.front, Bounds.back, ih]
  | signed s p ih => simp [bare, tokens, ih]
  | binary l o r ihl ihr => simp [bare, tokens, ihl, ihr]

/-! ### Contracting an operation -/

/-- The phrase is the number written `s`. -/
def isLiteral (s : String) : Phrase → Bool
  | operand t => t.isNumber s
  | _ => false

/-- The phrase is a literal with a digit other than zero. -/
def isPositive : Phrase → Bool
  | operand t => t.isPositiveLiteral
  | _ => false

/-- A number without a place. -/
def literal (s : String) : Phrase :=
  operand ⟨.number, s, 0⟩

/-- **What the rules make of an operation**, if they apply to it. -/
def contract? (l : Phrase) (o : Token) (r : Phrase) : Option Phrase :=
  if o.joins 3 then
    if r.isLiteral "0" then some (literal "1")
    else if r.isLiteral "1" || l.isLiteral "1" || l.isLiteral "0" && r.isPositive then some l
    else none
  else if o.joins 2 then
    if l.isLiteral "0" || r.isLiteral "0" then some (literal "0")
    else if r.isLiteral "1" then some l
    else if l.isLiteral "1" && o.isOperator "*" then some r
    else none
  else if r.isLiteral "0" then some l
  else if l.isLiteral "0" && o.isOperator "+" then some r
  else none

/-- An operation after the rules. -/
def contracted (l : Phrase) (o : Token) (r : Phrase) : Phrase :=
  (contract? l o r).getD (binary l o r)

/-- **The normal form** of a phrase. A sign gets a zero as its left operand. -/
def normalForm : Phrase → Phrase
  | operand t => operand t.bare
  | region b p => region b.bare p.normalForm
  | signed s p => contracted (literal "0") s.bare p.normalForm
  | binary l o r => contracted l.normalForm o.bare r.normalForm

/-- **No rule applies** to any operation in the phrase. -/
def Normal : Phrase → Prop
  | operand _ => True
  | region _ p => p.Normal
  | signed _ _ => False
  | binary l o r => l.Normal ∧ r.Normal ∧ contract? l o r = none

@[simp] theorem isLiteral_bare (s : String) (p : Phrase) : p.bare.isLiteral s = p.isLiteral s := by
  cases p <;> rfl

@[simp] theorem isPositive_bare (p : Phrase) : p.bare.isPositive = p.isPositive := by
  cases p <;> rfl

@[simp] theorem isLiteral_literal (s u : String) : (literal s).isLiteral u = (s == u) := rfl

/-- A literal is known but for its place. -/
theorem bare_of_isLiteral {s : String} {p : Phrase} (h : p.isLiteral s) : p.bare = literal s := by
  cases p with
  | operand t =>
    simp only [isLiteral, Token.isNumber, Bool.and_eq_true, beq_iff_eq] at h
    simp [bare, Token.bare, literal, h.1, h.2]
  | region | signed | binary => simp [isLiteral] at h

/-- Contracting takes no notice of places. -/
theorem contract?_bare (l : Phrase) (o : Token) (r : Phrase) :
    contract? l.bare o.bare r.bare = (contract? l o r).map bare := by
  simp only [contract?, Token.joins_bare, Token.isOperator_bare, isLiteral_bare, isPositive_bare]
  split_ifs <;> rfl

theorem contracted_bare (l : Phrase) (o : Token) (r : Phrase) :
    contracted l.bare o.bare r.bare = (contracted l o r).bare := by
  rw [contracted, contract?_bare, contracted]
  cases contract? l o r <;> rfl

/-- A normal form has no places. -/
@[simp] theorem bare_normalForm (p : Phrase) : p.normalForm.bare = p.normalForm := by
  induction p with
  | operand t => rfl
  | region b p ih => rw [normalForm, bare, Bounds.bare_bare, ih]
  | signed s p ih =>
    have h := contracted_bare (literal "0") s.bare p.normalForm
    rw [ih] at h
    exact h.symm
  | binary l o r ihl ihr =>
    have h := contracted_bare l.normalForm o.bare r.normalForm
    rw [ihl, ihr] at h
    exact h.symm

theorem normalForm_of_isLiteral {s : String} {p : Phrase} (h : p.normalForm.isLiteral s) :
    p.normalForm = literal s := by
  rw [← bare_normalForm, bare_of_isLiteral h]

/-- **A phrase that no rule applies to** is its normal form, but for the places. -/
theorem Normal.normalForm_eq {p : Phrase} (h : p.Normal) : p.normalForm = p.bare := by
  induction p with
  | operand t => rfl
  | region b p ih => rw [normalForm, ih h, bare]
  | signed s p => exact h.elim
  | binary l o r ihl ihr =>
    obtain ⟨hl, hr, hnone⟩ := h
    rw [normalForm, ihl hl, ihr hr, contracted_bare, contracted, hnone]
    rfl

/-! ### The rules of each layer -/

section Layers

variable {o : Token}

theorem contract?_power (ho : o.joins 3) (l r : Phrase) :
    contract? l o r =
      if r.isLiteral "0" then some (literal "1")
      else if r.isLiteral "1" || l.isLiteral "1" || l.isLiteral "0" && r.isPositive then some l
      else none := by
  rw [contract?, if_pos ho]

theorem contract?_product (ho : o.joins 2) (l r : Phrase) :
    contract? l o r =
      if l.isLiteral "0" || r.isLiteral "0" then some (literal "0")
      else if r.isLiteral "1" then some l
      else if l.isLiteral "1" && o.isOperator "*" then some r
      else none := by
  have hnot := Token.joins_eq_false ho (k := 3) (by decide)
  rw [contract?, hnot, if_neg Bool.false_ne_true, if_pos ho]

theorem contract?_sum (ho : o.joins 1) (l r : Phrase) :
    contract? l o r =
      if r.isLiteral "0" then some l
      else if l.isLiteral "0" && o.isOperator "+" then some r
      else none := by
  have hnot := Token.joins_eq_false ho (k := 3) (by decide)
  have hnot' := Token.joins_eq_false ho (k := 2) (by decide)
  rw [contract?, hnot, if_neg Bool.false_ne_true, hnot', if_neg Bool.false_ne_true]

end Layers

/-! ### Contractions keep the normal form -/

section Literals

variable {l r : Phrase} {o : Token}

theorem contracted_zeroExponent (ho : o.joins 3) (l : Phrase) :
    contracted l o (literal "0") = literal "1" := by
  simp [contracted, contract?_power ho]

theorem contracted_exponentOne (ho : o.joins 3) (l : Phrase) :
    contracted l o (literal "1") = l := by
  simp [contracted, contract?_power ho]

theorem contracted_powerOfOne (ho : o.joins 3) (r : Phrase) :
    contracted (literal "1") o r = literal "1" := by
  by_cases hzero : r.isLiteral "0" <;> simp [contracted, contract?_power ho, hzero]

theorem contracted_zeroPower (ho : o.joins 3) (hr : r.isPositive) :
    contracted (literal "0") o r = literal "0" := by
  have hzero : r.isLiteral "0" = false := by
    rw [← Bool.not_eq_true]
    intro hzero
    -- the literal `0` is not positive
    rw [← isPositive_bare, bare_of_isLiteral hzero] at hr
    exact absurd hr (by decide)
  simp [contracted, contract?_power ho, hzero, hr]

theorem contracted_zeroLeft (ho : o.joins 2) (r : Phrase) :
    contracted (literal "0") o r = literal "0" := by
  simp [contracted, contract?_product ho]

theorem contracted_zeroRight (ho : o.joins 2) (l : Phrase) :
    contracted l o (literal "0") = literal "0" := by
  simp [contracted, contract?_product ho]

theorem contracted_factorRight (ho : o.joins 2) (hl : l.isLiteral "0" → l = literal "0") :
    contracted l o (literal "1") = l := by
  by_cases hzero : l.isLiteral "0"
  · -- a factor zero remains
    rw [hl hzero, contracted_zeroLeft ho]
  · simp [contracted, contract?_product ho, hzero]

theorem contracted_factorLeft (ho : o.isOperator "*") (hr : ∀ s, r.isLiteral s → r = literal s) :
    contracted (literal "1") o r = r := by
  have hjoins : o.joins 2 := Token.joins_of_isOperator ho (by decide)
  by_cases hzero : r.isLiteral "0"
  · rw [hr "0" hzero, contracted_zeroRight hjoins]
  · by_cases hone : r.isLiteral "1"
    · rw [hr "1" hone, contracted_factorRight hjoins (by simp)]
    · simp [contracted, contract?_product hjoins, hzero, hone, ho]

theorem contracted_summandRight (ho : o.joins 1) (l : Phrase) :
    contracted l o (literal "0") = l := by
  simp [contracted, contract?_sum ho]

theorem contracted_summandLeft (ho : o.isOperator "+") (hr : r.isLiteral "0" → r = literal "0") :
    contracted (literal "0") o r = r := by
  have hjoins : o.joins 1 := Token.joins_of_isOperator ho (by decide)
  by_cases hzero : r.isLiteral "0"
  · rw [hr hzero, contracted_summandRight hjoins]
  · simp [contracted, contract?_sum hjoins, hzero, ho]

end Literals

theorem normalForm_operand {t : Token} {s : String} (h : t.isNumber s) :
    (operand t).normalForm = literal s :=
  normalForm_of_isLiteral (p := operand t) h

theorem normalForm_binary (l : Phrase) (o : Token) (r : Phrase) :
    (binary l o r).normalForm = contracted l.normalForm o.bare r.normalForm := rfl

end Phrase

open Phrase

/-- A term with a factor zero comes to zero. -/
theorem ZeroTerm.normalForm_eq {z : Token} {p : Phrase} (h : ZeroTerm z p)
    (hz : z.isNumber "0") : p.normalForm = literal "0" := by
  induction h with
  | zero => exact normalForm_operand hz
  | @product l o ho =>
    have hjoins : o.bare.joins 2 := Token.joins_of_isOperator ho (by decide)
    rw [normalForm_binary, normalForm_operand hz, contracted_zeroRight hjoins]
  | @left p r o _ ho ih => rw [normalForm_binary, ih, contracted_zeroLeft (o := o.bare) ho]

/-- **A contraction keeps the normal form.** -/
theorem Contracts.normalForm_eq {rule : Rule} {p q : Phrase} (h : Contracts rule p q) :
    p.normalForm = q.normalForm := by
  cases h with
  | unarySign hs => rfl
  | @zeroExponent l o z ho hz =>
    -- a rule that takes a literal away leaves what its operator comes to with that literal
    rw [normalForm_binary, normalForm_operand hz, contracted_zeroExponent (o := o.bare) ho]
    rfl
  | @zeroPower z o n hz ho hn =>
    have hpositive : (operand n).normalForm.isPositive := hn
    rw [normalForm_binary, normalForm_operand hz, contracted_zeroPower (o := o.bare) ho hpositive]
  | multiplyByZero hz hp | zeroDividend hz hp =>
    -- a term with a zero factor comes to that zero, however long it is
    rw [hp.normalForm_eq hz, normalForm_operand hz]
  | @exponentOne _ o u ho hu =>
    rw [normalForm_binary, normalForm_operand hu, contracted_exponentOne (o := o.bare) ho]
  | @powerOfOne u o r hu ho =>
    rw [normalForm_binary, normalForm_operand hu, contracted_powerOfOne (o := o.bare) ho]
  | @factorRight _ o u ho hu =>
    rw [normalForm_binary, normalForm_operand hu,
      contracted_factorRight (o := o.bare) ho normalForm_of_isLiteral]
  | @factorLeft u o _ hu ho =>
    rw [normalForm_binary, normalForm_operand hu,
      contracted_factorLeft (o := o.bare) ho fun _ => normalForm_of_isLiteral]
  | @summandRight _ o z ho hz =>
    rw [normalForm_binary, normalForm_operand hz, contracted_summandRight (o := o.bare) ho]
  | @summandLeft z o _ hz ho =>
    rw [normalForm_binary, normalForm_operand hz,
      contracted_summandLeft (o := o.bare) ho normalForm_of_isLiteral]

/-- The normal form of a phrase depends only on those of its parts. -/
theorem Context.normalForm_fill {p q : Phrase} (h : p.normalForm = q.normalForm) (C : Context) :
    (fill C p).normalForm = (fill C q).normalForm := by
  induction C generalizing p q with
  | nil => exact h
  | cons f C ih =>
    refine ih ?_
    cases f <;> simp only [Frame.plug, normalForm, h]

/-- **A step of rewriting keeps the normal form.** -/
theorem Phrase.Step.normalForm_eq {p q : Phrase} (h : p.Step q) : p.normalForm = q.normalForm := by
  obtain ⟨rule, hrule⟩ := h
  cases hrule with
  | inside _ _ h => exact Context.normalForm_fill h.normalForm_eq _

/-! ### Length -/

namespace Phrase

theorem length_tokens_pos (p : Phrase) : 0 < p.tokens.length := by
  induction p with
  | operand | signed => simp [tokens]
  | region | binary =>
    simp only [tokens, List.length_append, List.length_cons]
    omega

theorem length_contracted_le (l : Phrase) (o : Token) (r : Phrase) :
    (contracted l o r).tokens.length ≤ (binary l o r).tokens.length := by
  have hl := l.length_tokens_pos
  have hbinary : (binary l o r).tokens.length = l.tokens.length + (r.tokens.length + 1) := by
    simp [tokens]
  have hliteral (s : String) : (literal s).tokens.length = 1 := rfl
  rw [contracted, contract?]
  split_ifs <;> simp only [Option.getD_some, Option.getD_none, hliteral] <;> omega

/-- Without signs a normal form is no longer than the phrase. -/
theorem length_normalForm_le {p : Phrase} (h : p.signs = 0) :
    p.normalForm.tokens.length ≤ p.tokens.length := by
  induction p with
  | operand t => exact le_rfl
  | region b p ih =>
    have hinner := ih h
    -- brackets are kept, and what stands between them does not grow
    cases b <;> simp [normalForm, tokens, Bounds.bare, Bounds.front, Bounds.back] <;> omega
  | signed => simp [signs] at h
  | binary l o r ihl ihr =>
    obtain ⟨hl, hr⟩ := Nat.add_eq_zero_iff.1 h
    have hleft := ihl hl
    have hright := ihr hr
    -- two operands come to no more than themselves with their operator
    have hle := length_contracted_le l.normalForm o.bare r.normalForm
    rw [normalForm]
    simp [tokens] at hle ⊢
    omega

end Phrase

end Formula
