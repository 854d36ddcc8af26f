import Formula.Proofs.Bracketing
import Formula.Proofs.Firing
import Formula.Proofs.Relexing

/-!
# What the stages keep

Bracketing chains opens nothing again that has been settled before. The operands of a chain are
right operands of `/` or `-`. In a phrase that is finished (`Phrase.Finished`) none of them is a
literal that a rule takes away behind these operators, and the rules for the joiners take away no
others (`Phrase.untouched_join`). So bracketing a finished phrase leaves a finished one
(`Phrase.Finished.bracketed`).

Legal tokens stay legal too, when chains are bracketed (`Phrase.Legal.bracketed`) and when rules are
applied (`Phrase.Step.legal`): the stages add only brackets, operators and the literals `0` and `1`.
-/

namespace Formula

namespace Phrase

variable {κ : Chaining}

/-! ### Places -/

/-- The row without places. -/
def bareTail (tail : Tail Phrase) : Tail Phrase :=
  tail.map fun link => (link.1.bare, link.2.bare)

theorem bare_chained (p : Phrase) (tail : Tail Phrase) :
    (chained p tail).bare = chained p.bare (bareTail tail) := by
  induction tail generalizing p with
  | nil => rfl
  | cons link tail ih => exact ih (.binary p link.1 link.2)

theorem bare_joined (p : Phrase) (tail : Tail Phrase) :
    (joined κ p tail).bare = joined κ p.bare (bareTail tail) := by
  have hrejoin : bareTail (κ.rejoin tail) = κ.rejoin (bareTail tail) := by
    simp only [bareTail, Chaining.rejoin, List.map_map]
    rfl
  rw [joined, bare_chained, hrejoin, joined]

theorem bare_gathered (o : Token) (p : Phrase) (tail : Tail Phrase) :
    (gathered κ o p tail).bare = gathered κ o.bare p.bare (bareTail tail) := by
  cases tail with
  | nil => rfl
  | cons link tail =>
    rw [gathered, bare, bare_joined]
    rfl

theorem bare_closeChain (p : Phrase) (tail : Tail Phrase) :
    (closeChain κ p tail).bare = closeChain κ p.bare (bareTail tail) := by
  cases tail with
  | nil => rfl
  | cons link tail =>
    rw [closeChain, bare, bare_gathered]
    rfl

theorem bare_joinChains (p : Phrase) (tail : Tail Phrase) :
    (p.joinChains κ tail).bare = p.bare.joinChains κ (bareTail tail) := by
  induction p generalizing tail with
  | operand t => exact bare_closeChain _ tail
  | region b p ih => rw [joinChains, bare_closeChain, bare, ih, bare, joinChains]; rfl
  | signed s p ih =>
    rw [joinChains, bare, joinChains, Token.isOperator_bare]
    -- the sign may be one that the run starts with
    split
    · rw [bare, bare_gathered, ih]
      rfl
    · rw [bare_closeChain, bare, ih]
      rfl
  | binary l o r ihl ihr =>
    rw [joinChains, bare, joinChains, Token.isOperator_bare]
    -- the operator may belong to the run
    split
    · rw [ihl]
      simp only [bareTail, List.map_cons, ihr, List.map_nil]
    · rw [bare_closeChain, bare, ihl, ihr]
      rfl

/-- **Bracketing takes no notice of places.** -/
theorem bare_bracketed (p : Phrase) : p.bracketed.bare = p.bare.bracketed := by
  rw [bracketed, bare_joinChains, bare_joinChains]
  rfl

/-! ### Finished phrases -/

/-- Neither the rules nor the search for divisions by zero find anything in the operation. -/
structure Untouched (l : Phrase) (o : Token) (r : Phrase) : Prop where
  contract : contract? l o r = none
  divisor : o.isOperator "/" → r.startsWithZero = false

/-- **Simplification is over**: no rule applies, and no divisor starts with a zero. -/
structure Finished (p : Phrase) : Prop where
  normal : p.Normal
  safe : p.SafeDivisors

theorem Finished.proper {p : Phrase} (h : p.Finished) : p.Proper :=
  ⟨h.normal.signs_eq, h.safe⟩

theorem finished_operand (t : Token) : (operand t).Finished :=
  ⟨trivial, trivial⟩

theorem finished_region {b : Bounds} {p : Phrase} : (region b p).Finished ↔ p.Finished :=
  ⟨fun h => ⟨h.normal, h.safe⟩, fun h => ⟨h.normal, h.safe⟩⟩

theorem not_finished_signed (s : Token) (p : Phrase) : ¬ (signed s p).Finished :=
  fun h => h.normal

theorem finished_binary {l r : Phrase} {o : Token} :
    (binary l o r).Finished ↔ l.Finished ∧ r.Finished ∧ Untouched l o r := by
  constructor
  · rintro ⟨⟨hl, hr, hnone⟩, hl', hr', hdivisor⟩
    exact ⟨⟨hl, hl'⟩, ⟨hr, hr'⟩, hnone, hdivisor⟩
  · rintro ⟨hl, hr, huntouched⟩
    exact ⟨⟨hl.normal, hr.normal, huntouched.contract⟩, hl.safe, hr.safe, huntouched.divisor⟩

/-! ### Operations between other operands -/

/-- The token that is all of the phrase. -/
def operand? : Phrase → Option Token
  | operand t => some t
  | _ => none

theorem isLiteral_eq (s : String) (p : Phrase) :
    p.isLiteral s = p.operand?.any fun t => t.isNumber s := by
  cases p <;> rfl

theorem isPositive_eq (p : Phrase) : p.isPositive = p.operand?.any Token.isPositiveLiteral := by
  cases p <;> rfl

/-- The phrases are alike in what the rules look at. -/
structure Resembles (p q : Phrase) : Prop where
  operand : p.operand? = q.operand?
  start : p.startsWithZero = q.startsWithZero

theorem Resembles.refl (p : Phrase) : p.Resembles p :=
  ⟨rfl, rfl⟩

theorem Untouched.of_resembles {l l' r r' : Phrase} {o : Token} (h : Untouched l o r)
    (hl : l'.Resembles l) (hr : r'.Resembles r) : Untouched l' o r' := by
  refine ⟨?_, fun hop => hr.start.trans (h.divisor hop)⟩
  have hnone := h.contract
  simp only [contract?, isLiteral_eq, isPositive_eq, hl.operand, hr.operand] at hnone ⊢
  split_ifs at hnone ⊢ <;> rfl

/-- Behind an operator that stays, a region stays as well. -/
theorem Untouched.region {l r : Phrase} {o : Token} (h : Untouched l o r) (b : Bounds)
    (p : Phrase) : Untouched l o (.region b p) := by
  refine ⟨?_, fun _ => rfl⟩
  have hnone := h.contract
  have hliteral (s : String) : isLiteral s (.region b p) = false := rfl
  have hpositive : isPositive (.region b p) = false := rfl
  simp only [contract?, hliteral, hpositive] at hnone ⊢
  split_ifs at hnone ⊢ <;> simp_all

end Phrase

/-- The literals that a rule takes away behind the operator of the chain. -/
def Chaining.vanishing : Chaining → List String
  | division => ["0", "1"]
  | subtraction => ["0"]

namespace Phrase

variable {κ : Chaining} {p l r : Phrase} {o : Token} {tail : Tail Phrase}

/-- The phrase is none of the literals that a rule takes away. -/
def Remains (κ : Chaining) (p : Phrase) : Prop :=
  ∀ s ∈ κ.vanishing, p.isLiteral s = false

/-- The right operand of an operation that stays. -/
theorem Untouched.remains (h : Untouched l o r) (ho : o.isOperator κ.op) : r.Remains κ := by
  have hnone := h.contract
  have hjoins := Chaining.joins_of_isOperator ho
  cases κ with
  | division =>
    rw [contract?_product hjoins] at hnone
    split_ifs at hnone with hzero hone
    simp_all [Remains, Chaining.vanishing]
  | subtraction =>
    rw [contract?_sum hjoins] at hnone
    split_ifs at hnone with hzero
    simpa [Remains, Chaining.vanishing] using hzero

/-- **The joiners** take away no other literals than the operator of the chain does. -/
theorem untouched_join (hl : l.Remains κ) (hr : r.Remains κ) : Untouched l (κ.join o) r := by
  have hdivisor : (κ.join o).isOperator "/" = false := κ.isOperator_join .division o
  refine ⟨?_, by simp [hdivisor]⟩
  have hjoins := κ.joins_join o
  cases κ with
  | division =>
    rw [contract?_product hjoins]
    simp_all [Remains, Chaining.vanishing]
  | subtraction =>
    rw [contract?_sum hjoins]
    simp_all [Remains, Chaining.vanishing]

/-! ### Bracketing finished phrases -/

/-- The operands of a run are finished, and no rule takes them away. -/
def TailFinished (κ : Chaining) (tail : Tail Phrase) : Prop :=
  ∀ link ∈ tail, link.2.Finished ∧ link.2.Remains κ

theorem tailFinished_nil : TailFinished κ [] := by
  simp [TailFinished]

theorem Finished.joined (hp : p.Finished) (hremains : p.Remains κ) (htail : TailFinished κ tail) :
    (joined κ p tail).Finished := by
  induction tail generalizing p with
  | nil => exact hp
  | cons link tail ih =>
    obtain ⟨⟨hlink, hlink'⟩, htail⟩ := List.forall_mem_cons.1 htail
    -- a sum or a product is no literal
    have hbinary : (binary p (κ.join link.1) link.2).Remains κ := fun _ _ => rfl
    exact ih (finished_binary.2 ⟨hp, hlink, untouched_join hremains hlink'⟩) hbinary htail

theorem Finished.gathered (hp : p.Finished) (hremains : p.Remains κ)
    (htail : TailFinished κ tail) : (gathered κ o p tail).Finished := by
  cases tail with
  | nil => exact hp
  | cons link tail => exact finished_region.2 (hp.joined hremains htail)

/-- A run may be closed behind a phrase that its first operation leaves as it is. -/
theorem Finished.closeChain (hp : p.Finished) (htail : TailFinished κ tail)
    (hfirst : ∀ link ∈ tail.head?, Untouched p link.1 link.2) :
    (closeChain κ p tail).Finished := by
  cases tail with
  | nil => exact hp
  | cons link tail =>
    obtain ⟨⟨hlink, hremains⟩, htail⟩ := List.forall_mem_cons.1 htail
    have huntouched := hfirst link rfl
    refine finished_binary.2 ⟨hp, hlink.gathered hremains htail, ?_⟩
    cases tail with
    | nil => exact huntouched
    | cons => exact huntouched.region _ _

theorem startsWithZero_joinChains (p : Phrase) (tail : Tail Phrase) :
    (p.joinChains κ tail).startsWithZero = p.startsWithZero := by
  -- a closed chain starts with what it is closed behind
  have hclose (p : Phrase) (tail : Tail Phrase) :
      (Phrase.closeChain κ p tail).startsWithZero = p.startsWithZero := by
    cases tail <;> rfl
  induction p generalizing tail with
  | operand t => exact hclose _ tail
  | region b p => exact hclose _ tail
  | signed s p =>
    rw [joinChains]
    split
    · rfl
    · exact hclose _ tail
  | binary l o r ihl =>
    rw [joinChains]
    split
    · exact ihl _
    · rw [hclose, startsWithZero, ihl, startsWithZero]

/-- In front of a run there is no single token. -/
theorem operand?_joinChains_cons (p : Phrase) (link : Token × Phrase) (tail : Tail Phrase) :
    (p.joinChains κ (link :: tail)).operand? = none := by
  induction p generalizing link tail with
  | operand | region => rfl
  | signed s p =>
    rw [joinChains]
    split <;> rfl
  | binary l o r ihl =>
    rw [joinChains]
    split
    · exact ihl _ _
    · rfl

theorem resembles_joinChains (p : Phrase) : (p.joinChains κ []).Resembles p := by
  refine ⟨?_, startsWithZero_joinChains p []⟩
  cases p with
  | operand | region => rfl
  | signed s p => rw [joinChains_signed]; rfl
  | binary l o r =>
    rw [joinChains]
    split
    · exact operand?_joinChains_cons _ _ _
    · rfl

/-- **Bracketing keeps a phrase finished**, also in front of a run whose first operation leaves the
phrase as it is. -/
theorem Finished.joinChains (hp : p.Finished) (htail : TailFinished κ tail)
    (hfirst : ∀ link ∈ tail.head?, Untouched p link.1 link.2) :
    (p.joinChains κ tail).Finished := by
  induction p generalizing tail with
  | operand t => exact hp.closeChain htail hfirst
  | region b p ih =>
    -- inside brackets no run goes on
    have hinner := ih (finished_region.1 hp) tailFinished_nil (by simp)
    exact Finished.closeChain (finished_region.2 hinner) htail fun link hlink =>
      (hfirst link hlink).of_resembles ⟨rfl, rfl⟩ (.refl _)
  | signed s p => exact absurd hp (not_finished_signed s p)
  | binary l o r ihl ihr =>
    obtain ⟨hl, hr, huntouched⟩ := finished_binary.1 hp
    have hright := ihr hr tailFinished_nil (by simp)
    rw [Phrase.joinChains]
    split
    case isTrue hop =>
      -- one more operand in the run
      have hlink := huntouched.of_resembles (.refl l) (resembles_joinChains (κ := κ) r)
      have htail' : TailFinished κ ((o, r.joinChains κ []) :: tail) :=
        List.forall_mem_cons.2 ⟨⟨hright, hlink.remains hop⟩, htail⟩
      exact ihl hl htail' (by simpa using hlink)
    case isFalse =>
      -- any other operator closes the run behind both of its operands
      have hbinary := finished_binary.2 ⟨ihl hl tailFinished_nil (by simp), hright,
        huntouched.of_resembles (resembles_joinChains l) (resembles_joinChains r)⟩
      exact hbinary.closeChain htail fun link hlink =>
        (hfirst link hlink).of_resembles ⟨rfl, startsWithZero_joinChains l []⟩ (.refl _)

theorem Finished.bracketed (h : p.Finished) : p.bracketed.Finished := by
  have hdivision := h.joinChains (κ := .division) tailFinished_nil (by simp)
  exact hdivision.joinChains tailFinished_nil (by simp)

/-! ### Legal tokens -/

/-- All tokens of the phrase are legal. -/
def Legal (p : Phrase) : Prop :=
  ∀ t ∈ p.tokens, t.Legal

theorem legal_operand {t : Token} : (operand t).Legal ↔ t.Legal := by
  simp [Legal, tokens]

theorem legal_region {b : Bounds} : (region b p).Legal ↔
    (∀ t ∈ b.front, t.Legal) ∧ p.Legal ∧ ∀ t ∈ b.back, t.Legal := by
  simp [Legal, tokens, or_imp, forall_and]

theorem legal_signed {s : Token} : (signed s p).Legal ↔ s.Legal ∧ p.Legal := by
  simp [Legal, tokens]

theorem legal_binary : (binary l o r).Legal ↔ l.Legal ∧ o.Legal ∧ r.Legal := by
  simp [Legal, tokens, or_imp, forall_and]

theorem legal_join (o : Token) : (κ.join o).Legal := by
  have hword : (κ.joiner, Kind.operator) ∈ builtinLexemes := by cases κ <;> decide
  exact .word hword

/-- The operators and the operands of a run are legal. -/
def TailLegal (tail : Tail Phrase) : Prop :=
  ∀ link ∈ tail, link.1.Legal ∧ link.2.Legal

theorem tailLegal_nil : TailLegal [] := by
  simp [TailLegal]

theorem Legal.joined (hp : p.Legal) (htail : TailLegal tail) : (joined κ p tail).Legal := by
  induction tail generalizing p with
  | nil => exact hp
  | cons link tail ih =>
    obtain ⟨⟨-, hlink⟩, htail⟩ := List.forall_mem_cons.1 htail
    exact ih (legal_binary.2 ⟨hp, legal_join link.1, hlink⟩) htail

theorem Legal.gathered (hp : p.Legal) (htail : TailLegal tail) : (gathered κ o p tail).Legal := by
  cases tail with
  | nil => exact hp
  | cons link tail =>
    have hopen : Token.Legal ⟨.openBracket, "(", o.position⟩ :=
      .word (show ("(", Kind.openBracket) ∈ builtinLexemes by decide)
    have hclose : Token.Legal ⟨.closeBracket, ")", o.position⟩ :=
      .word (show (")", Kind.closeBracket) ∈ builtinLexemes by decide)
    exact legal_region.2
      ⟨List.forall_mem_singleton.2 hopen, hp.joined htail, List.forall_mem_singleton.2 hclose⟩

theorem Legal.closeChain (hp : p.Legal) (htail : TailLegal tail) : (closeChain κ p tail).Legal := by
  cases tail with
  | nil => exact hp
  | cons link tail =>
    obtain ⟨⟨ho, hlink⟩, htail⟩ := List.forall_mem_cons.1 htail
    exact legal_binary.2 ⟨hp, ho, hlink.gathered htail⟩

theorem Legal.joinChains (hp : p.Legal) (htail : TailLegal tail) :
    (p.joinChains κ tail).Legal := by
  induction p generalizing tail with
  | operand t => exact hp.closeChain htail
  | region b p ih =>
    -- the brackets themselves stay as they are
    obtain ⟨hfront, hp, hback⟩ := legal_region.1 hp
    have hregion : (region b (p.joinChains κ [])).Legal :=
      legal_region.2 ⟨hfront, ih hp tailLegal_nil, hback⟩
    exact hregion.closeChain htail
  | signed s p ih =>
    obtain ⟨hs, hp⟩ := legal_signed.1 hp
    have hinner := ih hp tailLegal_nil
    rw [Phrase.joinChains]
    split
    case isTrue =>
      -- the sign gathers the run
      exact legal_signed.2 ⟨hs, hinner.gathered htail⟩
    case isFalse => exact (legal_signed.2 ⟨hs, hinner⟩).closeChain htail
  | binary l o r ihl ihr =>
    obtain ⟨hl, ho, hr⟩ := legal_binary.1 hp
    have hright := ihr hr tailLegal_nil
    rw [Phrase.joinChains]
    split
    case isTrue =>
      -- the run gets one more operand
      exact ihl hl (List.forall_mem_cons.2 ⟨⟨ho, hright⟩, htail⟩)
    case isFalse =>
      exact (legal_binary.2 ⟨ihl hl tailLegal_nil, ho, hright⟩).closeChain htail

/-- **Bracketing adds words of the table.** -/
theorem Legal.bracketed (h : p.Legal) : p.bracketed.Legal :=
  (h.joinChains tailLegal_nil).joinChains tailLegal_nil

end Phrase

open Phrase

/-- The literals that the rules know are legal. -/
theorem legal_literal {s : String} (hs : s = "0" ∨ s = "1") (n : Nat) :
    Token.Legal ⟨.number, s, n⟩ := by
  have hdigits : s.toList.all Char.isDigit := by rcases hs with rfl | rfl <;> decide
  have hne : s.toList ≠ [] := by rcases hs with rfl | rfl <;> decide
  have hnone : builtinTable.longest? s.toList = none := by rcases hs with rfl | rfl <;> rfl
  exact .numeral rfl hnone (.whole hne (List.all_eq_true.1 hdigits))

theorem ZeroTerm.mem_tokens {z : Token} {p : Phrase} (h : ZeroTerm z p) : z ∈ p.tokens := by
  induction h with
  | zero => simp [tokens]
  | product => simp [tokens]
  | left _ _ ih => simp [tokens, ih]

/-- What a rule leaves are tokens that were there before, or a literal. -/
theorem Contracts.legal {rule : Rule} {p q : Phrase} (h : Contracts rule p q) (hp : p.Legal) :
    q.Legal := by
  have hzero (n : Nat) := legal_literal (.inl rfl) n
  have hone (n : Nat) := legal_literal (.inr rfl) n
  cases h with
  | @unarySign s p _ =>
    obtain ⟨hs, hp⟩ := legal_signed.1 hp
    exact legal_binary.2 ⟨legal_operand.2 (hzero s.position), hs, hp⟩
  | @zeroExponent l o z => exact legal_operand.2 (hone z.position)
  | zeroPower | powerOfOne | exponentOne | factorRight | summandRight => exact (legal_binary.1 hp).1
  | multiplyByZero _ hterm | zeroDividend _ hterm =>
    exact legal_operand.2 (hp _ hterm.mem_tokens)
  | factorLeft | summandLeft => exact (legal_binary.1 hp).2.2

/-- **A step** leaves legal tokens. -/
theorem Phrase.Step.legal {p q : Phrase} (h : p.Step q) (hp : p.Legal) : q.Legal := by
  obtain ⟨rule, hrule⟩ := h
  cases hrule with
  | @inside _ C p q _ _ hcontracts =>
    have hparts (p : Phrase) : (Context.fill C p).Legal ↔
        (∀ t ∈ (Context.before C).reverse, t.Legal) ∧ p.Legal ∧
          ∀ t ∈ Context.after C, t.Legal := by
      simp [Legal, Context.tokens_fill, or_imp, forall_and]
    obtain ⟨hbefore, hinner, hafter⟩ := (hparts p).1 hp
    exact (hparts q).2 ⟨hbefore, hcontracts.legal hinner, hafter⟩

/-- **Any number of steps** leave legal tokens. -/
theorem legal_of_steps {p q : Phrase} (h : Relation.ReflTransGen Phrase.Step p q)
    (hp : p.Legal) : q.Legal := by
  induction h with
  | refl => exact hp
  | tail _ hstep ih => exact hstep.legal ih

end Formula
