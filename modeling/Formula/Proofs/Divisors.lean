import Formula.Proofs.NormalForm

/-!
# Divisors that start with zero

A run is ended by a division whose divisor starts with the literal `0`. Whether a formula has one
can be told from its reading (`Phrase.Reads.findDivisionByZero_eq_none_iff`). Where there is none,
no step makes one (`Phrase.Step.replaces`): a contraction that puts another token in front
takes away a sum or a product, and neither stands behind `/` without brackets.
-/

namespace Formula

theorem notByZero_of_kind_ne {o : Token} (h : o.kind ≠ .operator) (z : Token) : NotByZero o z := by
  intro hop
  simp [Token.isOperator, h] at hop

/-- A sign does not divide. -/
theorem not_isOperator_of_isSign {s : Token} (hs : s.isSign) : ¬ s.isOperator "/" := by
  intro hop
  have htext : s.text = "/" := by simpa [Token.isOperator, Token.kind_of_isSign hs] using hop
  simp [Token.isSign, Token.isOperatorIn, htext] at hs

/-- No operator stands in the list, so nothing is divided. -/
theorem isChain_of_kind_ne {ts : List Token} (h : ∀ t ∈ ts, t.kind ≠ .operator) :
    ts.IsChain NotByZero := by
  induction ts with
  | nil => exact .nil
  | cons t ts ih =>
    obtain ⟨ht, hts⟩ := List.forall_mem_cons.1 h
    exact List.isChain_cons.2 ⟨fun z _ => notByZero_of_kind_ne ht z, ih hts⟩

namespace Phrase

/-- The first token of the phrase is the literal `0`. -/
def startsWithZero : Phrase → Bool
  | operand t => t.isNumber "0"
  | region _ _ | signed _ _ => false
  | binary l _ _ => l.startsWithZero

/-- No divisor in the phrase starts with the literal `0`. -/
def SafeDivisors : Phrase → Prop
  | operand _ => True
  | region _ p => p.SafeDivisors
  | signed _ p => p.SafeDivisors
  | binary l o r =>
    l.SafeDivisors ∧ r.SafeDivisors ∧ (o.isOperator "/" → r.startsWithZero = false)

theorem Binds.startsWithZero_eq {p : Phrase} {n : Nat} (h : p.Binds n) :
    p.startsWithZero = p.tokens.head?.any fun t => t.isNumber "0" := by
  induction h with
  | operand => rfl
  | @region b p n hb hp =>
    -- a region starts with a bracket or a name
    obtain ⟨t, ts, hfront⟩ : ∃ t ts, b.front = t :: ts := by
      obtain ⟨fs, o', hfront, -⟩ := hb.exists_front
      cases fs with
      | nil => exact ⟨o', [], hfront⟩
      | cons f fs => exact ⟨f, fs ++ [o'], hfront⟩
    have hkind := hb.kind_of_mem (.inl (by simp [hfront] : t ∈ b.front))
    rcases hkind with hkind | hkind | hkind <;>
      simp [startsWithZero, tokens, hfront, Token.isNumber, hkind]
  | signed _ hs => simp [startsWithZero, tokens, Token.isNumber, Token.kind_of_isSign hs]
  | @binary l r o n k _ hl _ _ ihl =>
    -- what is in front of the operator is in front of the whole
    have hne : l.tokens ≠ [] := by
      obtain ⟨us, t, htokens, -⟩ := hl.exists_concat
      simp [htokens]
    rw [startsWithZero, ihl, tokens, List.head?_append_of_ne_nil _ hne]

/-- What ends a phrase divides nothing. -/
theorem Binds.notByZero_of_getLast {p : Phrase} {n : Nat} (h : p.Binds n) :
    ∀ t ∈ p.tokens.getLast?, ∀ z, NotByZero t z := by
  obtain ⟨us, t, htokens, hends⟩ := h.exists_concat
  intro u hu
  obtain rfl : t = u := by simpa [htokens] using hu
  exact notByZero_of_kind_ne fun hkind => Token.not_endsAtom_of_operator hkind hends

/-- **Safe divisors in terms of tokens.** -/
theorem Binds.safeDivisors_iff {p : Phrase} {n : Nat} (h : p.Binds n) :
    p.SafeDivisors ↔ p.tokens.IsChain NotByZero := by
  induction h with
  | operand => simp [SafeDivisors, tokens]
  | @region b p n hb hp ih =>
    have hkind {t : Token} (ht : t ∈ b.front ∨ t ∈ b.back) : t.kind ≠ .operator := by
      rcases hb.kind_of_mem ht with hkind | hkind | hkind <;> simp [hkind]
    have hfront := isChain_of_kind_ne fun t (ht : t ∈ b.front) => hkind (.inl ht)
    have hback := isChain_of_kind_ne fun t (ht : t ∈ b.back) => hkind (.inr ht)
    -- what stands around the contents takes part in no division
    rw [SafeDivisors, ih, tokens, List.append_assoc, List.isChain_append, List.isChain_append]
    constructor
    · intro hinner
      exact ⟨hfront, ⟨hinner, hback, fun t ht z _ => hp.notByZero_of_getLast t ht z⟩,
        fun t ht z _ => notByZero_of_kind_ne (hkind (.inl (List.mem_of_getLast? ht))) z⟩
    · exact fun hall => hall.2.1.1
  | @signed s p n _ hs hp ih =>
    -- a sign is no `/`
    have hsign : ∀ z, NotByZero s z := fun z hop => absurd hop (not_isOperator_of_isSign hs)
    rw [SafeDivisors, ih, tokens, List.isChain_cons]
    exact (and_iff_right fun z _ => hsign z).symm
  | @binary l r o n k _ hl _ hr ihl ihr =>
    -- the token behind `/` is the first one of the right operand
    rw [SafeDivisors, ihl, ihr, tokens, List.isChain_append, List.isChain_cons,
      hr.startsWithZero_eq]
    constructor
    · rintro ⟨hleft, hright, hdivisor⟩
      refine ⟨hleft, ⟨fun z hz hop => ?_, hright⟩, fun t ht z _ => hl.notByZero_of_getLast t ht z⟩
      have hnot := hdivisor hop
      rw [Option.mem_def.1 hz] at hnot
      simpa using hnot
    · rintro ⟨hleft, ⟨hdivisor, hright⟩, -⟩
      refine ⟨hleft, hright, fun hop => ?_⟩
      rw [Option.any_eq_false]
      exact fun z hz => by simpa using hdivisor z hz hop

theorem Reads.findDivisionByZero_eq_none_iff {p : Phrase} {ts : List Token} (h : p.Reads ts) :
    findDivisionByZero ts = none ↔ p.SafeDivisors := by
  rw [h.binds.safeDivisors_iff, h.tokens_eq, Formula.findDivisionByZero_eq_none_iff]

/-! ### Contractions -/

/-- The phrase may take the place of another one: it has no more signs, its divisors are safe if the
others are, and it starts with a zero only if the other one does or is no divisor. -/
structure Replaces (p q : Phrase) : Prop where
  signs : q.signs ≤ p.signs
  safe : p.SafeDivisors → q.SafeDivisors
  start : q.startsWithZero → p.startsWithZero ∨ ¬ p.Binds 3

/-- An operation that binds loosely is no divisor. -/
theorem not_binds_three {l r : Phrase} {o : Token} {k : Nat} (ho : o.joins k) (hk : k < 3) :
    ¬ (binary l o r).Binds 3 := by
  intro hbinds
  cases hbinds with
  | binary hle _ ho' _ =>
    obtain rfl := Token.joins_unique ho ho'
    omega

end Phrase

open Phrase

theorem ZeroTerm.replaces {z : Token} {p : Phrase} (h : ZeroTerm z p) :
    Replaces p (.operand z) := by
  refine ⟨Nat.zero_le _, fun _ => trivial, fun hstart => ?_⟩
  cases h with
  | zero => exact .inl hstart
  | product ho =>
    exact .inr (not_binds_three (Token.joins_of_isOperator ho (k := 2) (by decide)) (by decide))
  | left _ ho => exact .inr (not_binds_three ho (by decide))

/-- **A contraction** leaves a part of the phrase or a literal, or it gives a sign its zero. -/
theorem Contracts.replaces {rule : Rule} {p q : Phrase} (h : Contracts rule p q) :
    Replaces p q := by
  cases h with
  | @unarySign s p hs =>
    refine ⟨?_, fun hsafe => ⟨trivial, hsafe, fun hop => ?_⟩, fun _ => .inr fun hbinds => ?_⟩
    · simp [Phrase.signs]
    · exact absurd hop (not_isOperator_of_isSign hs)
    · -- a sign with its product is a sum
      cases hbinds with
      | signed hn => simp at hn
  | zeroExponent =>
    -- the literal that is left is a one
    exact ⟨Nat.zero_le _, fun _ => trivial, by simp [startsWithZero, Token.isNumber]⟩
  | zeroPower | powerOfOne => exact ⟨Nat.zero_le _, fun _ => trivial, .inl⟩
  | multiplyByZero _ hp | zeroDividend _ hp => exact hp.replaces
  | exponentOne | factorRight | summandRight =>
    exact ⟨Nat.le_add_right _ _, fun hsafe => hsafe.1, .inl⟩
  | factorLeft _ ho =>
    exact ⟨Nat.le_add_left _ _, fun hsafe => hsafe.2.1, fun _ =>
      .inr (not_binds_three (Token.joins_of_isOperator ho (k := 2) (by decide)) (by decide))⟩
  | summandLeft _ ho =>
    exact ⟨Nat.le_add_left _ _, fun hsafe => hsafe.2.1, fun _ =>
      .inr (not_binds_three (Token.joins_of_isOperator ho (k := 1) (by decide)) (by decide))⟩

/-- **Inside a phrase** a part may be replaced. -/
theorem Phrase.Replaces.plug {p q : Phrase} (h : Replaces p q) {f : Frame} {n : Nat}
    (hp : (f.plug p).Binds n) : Replaces (f.plug p) (f.plug q) := by
  obtain ⟨hsigns, hsafe, hstart⟩ := h
  cases f with
  | inRegion b => exact ⟨hsigns, hsafe, .inl⟩
  | underSign s => exact ⟨Nat.succ_le_succ hsigns, hsafe, .inl⟩
  | leftOf o r =>
    refine ⟨Nat.add_le_add_right hsigns _, fun h => ⟨hsafe h.1, h.2⟩, fun hq => ?_⟩
    -- the left operand of a power is bound as a power itself
    refine (hstart hq).imp_right fun hnot hbinds => hnot ?_
    cases hbinds with
    | binary hk hl _ _ => exact hl.mono hk
  | rightOf l o =>
    refine ⟨Nat.add_le_add_left hsigns _, fun ⟨hl, hr, hdivisor⟩ => ⟨hl, hsafe hr, fun hop => ?_⟩,
      .inl⟩
    -- a divisor is bound as a power
    have hbinds : p.Binds 3 := by
      cases hp with
      | binary _ _ ho hr =>
        obtain rfl := Token.joins_unique ho (Token.joins_of_isOperator hop (k := 2) (by decide))
        exact hr
    rw [← Bool.not_eq_true]
    intro hq
    rcases hstart hq with hp | hnot
    · simp [hdivisor hop] at hp
    · exact hnot hbinds

theorem Phrase.Replaces.fill {p q : Phrase} (h : Replaces p q) {C : Context} {n : Nat}
    (hp : (Context.fill C p).Binds n) : Replaces (Context.fill C p) (Context.fill C q) := by
  induction C generalizing p q with
  | nil => exact h
  | cons f C ih =>
    obtain ⟨m, -, hm⟩ := Context.exists_accepts_of_fill (C := C) hp
    exact ih (h.plug hm) hp

namespace Phrase

/-- **What the rules can be applied to** in any order: no sign is left, and no divisor starts with a
zero. -/
structure Proper (p : Phrase) : Prop where
  unsigned : p.signs = 0
  safe : p.SafeDivisors

/-- **A step** is a replacement. -/
theorem Step.replaces {p q : Phrase} {n : Nat} (h : p.Step q) (hbinds : p.Binds n) :
    Replaces p q := by
  obtain ⟨rule, hrule⟩ := h
  cases hrule with
  | inside _ _ hcontracts => exact hcontracts.replaces.fill hbinds

/-- A step leaves nothing improper. -/
theorem Step.proper {p q : Phrase} {n : Nat} (h : p.Step q) (hp : p.Proper) (hbinds : p.Binds n) :
    q.Proper := by
  obtain ⟨hsigns, hsafe, -⟩ := h.replaces hbinds
  exact ⟨Nat.le_zero.1 (hp.unsigned ▸ hsigns), hsafe hp.safe⟩

end Phrase

end Formula
