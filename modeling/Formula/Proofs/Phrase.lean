import Formula.Item
import Formula.Proofs.Acceptance
import Formula.Rpn
import Formula.Simplify

/-!
# Phrases

An expression as it is meant to be read: which operands belong to which operator. A `Phrase` is an
operand, an expression in its brackets, an operator between two phrases, or a sign in front of one.
It keeps every token, so the list it stands for is part of it (`Phrase.tokens`).

How tightly an operator binds is its layer: `1` for `+` and `-`, `2` for `*` and `/`, `3` for `^`.
`p.Binds n` says that nothing at the outside of `p` binds more loosely than layer `n`. The left
operand of an operator may be of its own layer and the right one may not, so every operator
associates to the left; atoms, which are of layer `4`, bind at any layer. A sign stands in front of
a product and makes a sum of it.

* `Phrase.Binds.derives` — what a phrase stands for is an expression of the flat grammar;
* `exists_reads` — an expression over the operators of arithmetic can be read.
-/

namespace Formula

/-! ### Layers -/

/-- The operators that bind at each layer. -/
def layerOps : Nat → List String
  | 1 => ["+", "-"]
  | 2 => ["*", "/"]
  | 3 => ["^"]
  | _ => []

/-- Whether the token is an operator of the layer. -/
def Token.joins (t : Token) (layer : Nat) : Bool :=
  t.isOperatorIn (layerOps layer)

namespace Token

/-- A token of layer `k` is one of the operators listed there. -/
theorem joins_cases {t : Token} {k : Nat} (h : t.joins k) :
    t.kind = .operator ∧ (k = 1 ∧ (t.text = "+" ∨ t.text = "-") ∨
      k = 2 ∧ (t.text = "*" ∨ t.text = "/") ∨ k = 3 ∧ t.text = "^") := by
  match k with
  | 0 => simp [joins, isOperatorIn, layerOps] at h
  | 1 | 2 | 3 => simpa [joins, isOperatorIn, layerOps] using h
  | k + 4 => simp [joins, isOperatorIn, layerOps] at h

theorem kind_of_joins {t : Token} {k : Nat} (h : t.joins k) : t.kind = .operator :=
  (joins_cases h).1

theorem joins_bounds {t : Token} {k : Nat} (h : t.joins k) : 1 ≤ k ∧ k ≤ 3 := by
  obtain ⟨-, ⟨rfl, -⟩ | ⟨rfl, -⟩ | ⟨rfl, -⟩⟩ := joins_cases h <;> decide

/-- The layers are the precedences by which tokens are ordered. -/
theorem precedence_of_joins {t : Token} {k : Nat} (h : t.joins k) : t.precedence = k := by
  obtain ⟨hkind, ⟨rfl, ht | ht⟩ | ⟨rfl, ht | ht⟩ | ⟨rfl, ht⟩⟩ := joins_cases h <;>
    simp [precedence, hkind, ht]

/-- An operator is of one layer only. -/
theorem joins_unique {t : Token} {j k : Nat} (hj : t.joins j) (hk : t.joins k) : j = k :=
  (precedence_of_joins hj).symm.trans (precedence_of_joins hk)

theorem isArithmetic_of_joins {t : Token} {k : Nat} (h : t.joins k) : t.isArithmetic := by
  obtain ⟨hkind, ⟨-, ht | ht⟩ | ⟨-, ht | ht⟩ | ⟨-, ht⟩⟩ := joins_cases h <;>
    simp [isArithmetic, isOperatorIn, hkind, ht]

theorem exists_joins_of_isArithmetic {t : Token} (h : t.isArithmetic) : ∃ k, t.joins k := by
  simp only [isArithmetic, isOperatorIn, Bool.and_eq_true, beq_iff_eq, List.contains_iff_mem,
    List.mem_cons, List.not_mem_nil, or_false] at h
  obtain ⟨hkind, h | h | h | h | h⟩ := h
  · exact ⟨1, by simp [joins, layerOps, isOperatorIn, hkind, h]⟩
  · exact ⟨1, by simp [joins, layerOps, isOperatorIn, hkind, h]⟩
  · exact ⟨2, by simp [joins, layerOps, isOperatorIn, hkind, h]⟩
  · exact ⟨2, by simp [joins, layerOps, isOperatorIn, hkind, h]⟩
  · exact ⟨3, by simp [joins, layerOps, isOperatorIn, hkind, h]⟩

end Token

/-! ### Phrases and their tokens -/

/-- What stands around the contents of a region: a pair of brackets, or a function name and its
brackets. -/
def Bounds.Written : Bounds → Prop
  | .implicit => False
  | .brackets opening closing => opening.isOpen ∧ closing.isClose
  | .call function opening closing =>
    function.kind = .function ∧ opening.isOpen ∧ closing.isClose

theorem Bounds.Written.exists_front {b : Bounds} (h : b.Written) :
    ∃ fs o, b.front = fs ++ [o] ∧ o.isOpen := by
  cases b with
  | implicit => exact h.elim
  | brackets o c => exact ⟨[], o, rfl, h.1⟩
  | call f o c => exact ⟨[f], o, rfl, h.2.1⟩

theorem Bounds.Written.exists_back {b : Bounds} (h : b.Written) :
    ∃ c, b.back = [c] ∧ c.isClose := by
  cases b with
  | implicit => exact h.elim
  | brackets o c => exact ⟨c, rfl, h.2⟩
  | call f o c => exact ⟨c, rfl, h.2.2⟩

/-- The function that is applied to the contents of a region, if there is one. -/
def Bounds.function? : Bounds → Option Token
  | .call function _ _ => some function
  | _ => none

/-- An expression with its operands told apart. -/
inductive Phrase where
  | operand (t : Token)
  /-- A bracketed region or a call. -/
  | region (bounds : Bounds) (inner : Phrase)
  /-- A sign and the product behind it. -/
  | signed (sign : Token) (inner : Phrase)
  | binary (left : Phrase) (operator : Token) (right : Phrase)

/-- What opens a region has no sign in it, and what comes behind it is in leading position. -/
theorem Bounds.Written.leadingSigns_front {b : Bounds} (hb : b.Written) (lead : Bool) :
    leadingSigns lead b.front = 0 ∧ leadsAfter lead b.front = true := by
  cases b with
  | implicit => exact hb.elim
  | brackets o c =>
    have ho := Token.kind_of_isOpen hb.1
    simp [Bounds.front, leadingSigns, leadsAfter, Token.isSign, Token.isOperatorIn, ho, hb.1]
  | call f o c =>
    have ho := Token.kind_of_isOpen hb.2.1
    simp [Bounds.front, leadingSigns, leadsAfter, Token.isSign, Token.isOperatorIn, ho, hb.1,
      hb.2.1]

theorem Bounds.Written.leadingSigns_back {b : Bounds} (hb : b.Written) (lead : Bool) :
    leadingSigns lead b.back = 0 := by
  obtain ⟨c, hback, hc⟩ := hb.exists_back
  simp [hback, leadingSigns, Token.isSign, Token.isOperatorIn, Token.kind_of_isClose hc]

namespace Phrase

/-- The tokens of a phrase, in order. -/
def tokens : Phrase → List Token
  | operand t => [t]
  | region bounds inner => bounds.front ++ inner.tokens ++ bounds.back
  | signed sign inner => sign :: inner.tokens
  | binary left operator right => left.tokens ++ operator :: right.tokens

/-- The number of signs that stand in front of a product. -/
def signs : Phrase → Nat
  | operand _ => 0
  | region _ inner => inner.signs
  | signed _ inner => inner.signs + 1
  | binary left _ right => left.signs + right.signs

/-- **Precedence.** Nothing at the outside of the phrase binds more loosely than layer `n`. -/
inductive Binds : Phrase → Nat → Prop
  | operand {t : Token} {n : Nat} (ht : t.isOperand) : (operand t).Binds n
  | region {b : Bounds} {p : Phrase} {n : Nat} (hb : b.Written) (hp : p.Binds 1) :
      (region b p).Binds n
  | signed {s : Token} {p : Phrase} {n : Nat} (hn : n ≤ 1) (hs : s.isSign) (hp : p.Binds 2) :
      (signed s p).Binds n
  | binary {l r : Phrase} {o : Token} {n k : Nat} (hn : n ≤ k) (hl : l.Binds k) (ho : o.joins k)
      (hr : r.Binds (k + 1)) : (binary l o r).Binds n

/-- **A reading** of a token list is a phrase, bound as its operators demand, that stands for it. -/
structure Reads (p : Phrase) (ts : List Token) : Prop where
  binds : p.Binds 1
  tokens_eq : p.tokens = ts

theorem Binds.mono {p : Phrase} {m n : Nat} (h : p.Binds n) (hmn : m ≤ n) : p.Binds m := by
  cases h with
  | operand ht => exact .operand ht
  | region hb hp => exact .region hb hp
  | signed hn hs hp => exact .signed (hmn.trans hn) hs hp
  | binary hn hl ho hr => exact .binary (hmn.trans hn) hl ho hr

/-- No phrase binds more loosely than a sum. -/
theorem Binds.binds_one {p : Phrase} {n : Nat} (h : p.Binds n) : p.Binds 1 := by
  cases h with
  | operand ht => exact .operand ht
  | region hb hp => exact .region hb hp
  | signed _ hs hp => exact .signed le_rfl hs hp
  | binary _ hl ho hr => exact .binary (Token.joins_bounds ho).1 hl ho hr

/-! ### Phrases are expressions -/

variable {G : Grammar}

/-- A region around an expression is an atom. -/
theorem derives_region {b : Bounds} (hb : b.Written) {ts : List Token}
    (hts : G.Derives .expression ts) : G.Derives .atom (b.front ++ ts ++ b.back) := by
  cases b with
  | implicit => exact hb.elim
  | brackets o c => exact .brackets hb.1 hts hb.2
  | call f o c => exact .call hb.1 hb.2.1 hts hb.2.2

/-- A chain behind an expression and an operator goes on with it. -/
theorem derives_append {xs ys : List Token} {t : Token} (hxs : G.Derives .expression xs)
    (ht : G.operator t) (hys : G.Derives .chain ys) : G.Derives .expression (xs ++ t :: ys) := by
  cases hxs with
  | bare hxs => exact .bare (hxs.join ht hys)
  | signed hs hxs => exact .signed hs (hxs.join ht hys)

/-- **A phrase is an expression**, and a chain or an atom if it binds tightly enough. -/
theorem Binds.derives {p : Phrase} {n : Nat} (h : p.Binds n)
    (hoperator : ∀ t : Token, t.isArithmetic → G.operator t)
    (hsign : p.signs = 0 ∨ ∀ t : Token, t.isSign → G.sign t) :
    G.Derives .expression p.tokens ∧ (2 ≤ n → G.Derives .chain p.tokens) ∧
      (4 ≤ n → G.Derives .atom p.tokens) := by
  induction h with
  | operand ht =>
    -- operands and regions are atoms, and so they are chains and expressions
    have hatom : G.Derives .atom [_] := .operand ht
    exact ⟨.bare (.single hatom), fun _ => .single hatom, fun _ => hatom⟩
  | region hb _ ih =>
    have hatom := derives_region hb (ih hsign).1
    exact ⟨.bare (.single hatom), fun _ => .single hatom, fun _ => hatom⟩
  | signed hn hs _ ih =>
    have hsign : ∀ t : Token, t.isSign → G.sign t := by simpa [signs] using hsign
    refine ⟨.signed (hsign _ hs) ((ih (.inr hsign)).2.1 le_rfl), ?_, ?_⟩ <;> omega
  | @binary l r o n k hn _ ho _ ihl ihr =>
    -- by `1 ≤ k` the right operand is a chain, and by `k ≤ 3` the whole is not an atom
    have hk := Token.joins_bounds ho
    have ho := hoperator o (Token.isArithmetic_of_joins ho)
    obtain ⟨hl, hl', -⟩ := ihl (hsign.imp_left fun h => by rw [signs] at h; omega)
    obtain ⟨-, hr, -⟩ := ihr (hsign.imp_left fun h => by rw [signs] at h; omega)
    have hr := hr (by omega)
    exact ⟨derives_append hl ho hr, fun h => (hl' (by omega)).join ho hr, fun h => by omega⟩

theorem Binds.derives_arithmetic {p : Phrase} {n : Nat} (h : p.Binds n) :
    Grammar.arithmetic.Derives .expression p.tokens :=
  (h.derives (fun _ ht => ht) (.inr fun _ ht => ht)).1

/-- The last token of a phrase ends an atom. -/
theorem Binds.exists_concat {p : Phrase} {n : Nat} (h : p.Binds n) :
    ∃ us t, p.tokens = us ++ [t] ∧ t.endsAtom :=
  h.derives_arithmetic.exists_concat

/-- The brackets of a phrase are paired up. -/
theorem Binds.balanced {p : Phrase} {n : Nat} (h : p.Binds n) : Balanced p.tokens :=
  h.derives_arithmetic.balanced

/-! ### Signs in leading position -/

/-- The signs of a phrase are its signs in leading position. Behind an operator or a name none is
leading, but there a phrase that starts with a sign does not stand either. -/
theorem Binds.leadingSigns_eq {p : Phrase} {n : Nat} (h : p.Binds n) {lead : Bool}
    (hlead : lead ∨ 2 ≤ n) : leadingSigns lead p.tokens = p.signs := by
  induction h generalizing lead with
  | @operand t n ht =>
    rcases Token.kind_of_isOperand ht with hkind | hkind <;>
      simp [tokens, signs, leadingSigns, Token.isSign, Token.isOperatorIn, hkind]
  | @region b p n hb _ ih =>
    -- the contents are read behind an opening bracket, whatever the region stands behind
    obtain ⟨hfront, hbehind⟩ := hb.leadingSigns_front lead
    rw [tokens, leadingSigns_append, leadingSigns_append, hfront, hbehind, ih (.inl rfl),
      hb.leadingSigns_back, signs, Nat.zero_add, Nat.add_zero]
  | @signed s p n hn hs hp ih =>
    -- a leading sign, and behind it a product without signs of its own
    obtain hlead | hn2 := hlead
    · have hopen : s.isOpen = false := by simp [Token.isOpen, Token.kind_of_isSign hs]
      rw [tokens, leadingSigns, hopen, ih (.inr le_rfl), signs, hlead, hs]
      simp [Nat.add_comm]
    · omega
  | @binary l r o n k hnk hl ho _ ihl ihr =>
    have hk := Token.joins_bounds ho
    have hopen : o.isOpen = false := by simp [Token.isOpen, Token.kind_of_joins ho]
    -- the left operand ends an atom, so the operator is not leading
    obtain ⟨us, t, htokens, ht⟩ := hl.exists_concat
    have hbehind : leadsAfter lead l.tokens = false := by
      simpa [leadsAfter, htokens] using Token.not_isOpen_of_endsAtom ht
    rw [tokens, leadingSigns_append, hbehind, leadingSigns, hopen,
      ihl (hlead.imp_right fun h => h.trans hnk), ihr (.inr (by omega)), signs]
    simp

theorem Reads.leadingSigns_eq {p : Phrase} {ts : List Token} (h : p.Reads ts) :
    leadingSigns true ts = p.signs := by
  rw [← h.tokens_eq]
  exact h.binds.leadingSigns_eq (.inl rfl)

/-! ### Every expression can be read -/

/-- **An operator and an atom can be added on the right.** The operator goes as far down the right
edge of the phrase as what stands there binds more loosely. -/
theorem Binds.exists_attach {p a : Phrase} {o : Token} {n k : Nat} (hp : p.Binds n) (hn : n ≤ k)
    (ho : o.joins k) (ha : a.Binds 4) :
    ∃ q : Phrase, q.Binds n ∧ q.tokens = p.tokens ++ o :: a.tokens ∧
      q.signs = p.signs + a.signs := by
  have ha' : a.Binds (k + 1) := ha.mono (by have := Token.joins_bounds ho; omega)
  induction hp with
  | @operand t n ht => exact ⟨.binary (.operand t) o a, .binary hn (.operand ht) ho ha', rfl, rfl⟩
  | @region b p n hb hp =>
    exact ⟨.binary (.region b p) o a, .binary hn (.region hb hp) ho ha', rfl, rfl⟩
  | @signed s p n hn1 hs hp ih =>
    by_cases hk : k = 1
    · -- the sign and its product are the left operand
      subst hk
      exact ⟨.binary (.signed s p) o a, .binary hn (.signed le_rfl hs hp) ho ha', rfl, rfl⟩
    · -- the operator binds more tightly than the sign
      obtain ⟨q, hq, htokens, hsigns⟩ := ih (by have := Token.joins_bounds ho; omega)
      refine ⟨.signed s q, .signed hn1 hs hq, ?_, ?_⟩
      · rw [tokens, htokens, tokens, List.cons_append]
      · rw [signs, hsigns, signs]
        omega
  | @binary l r o' n k' hn' hl ho' hr ihl ihr =>
    by_cases hk : k ≤ k'
    · -- layers that are equal associate to the left
      exact ⟨.binary (.binary l o' r) o a, .binary hn (.binary hk hl ho' hr) ho ha', rfl, rfl⟩
    · -- the operator takes the right operand from the one that is there
      obtain ⟨q, hq, htokens, hsigns⟩ := ihr (by omega)
      refine ⟨.binary l o' q, .binary hn' hl ho' hq, ?_, ?_⟩
      · rw [tokens, htokens, tokens, List.append_assoc, List.cons_append]
      · rw [signs, hsigns, signs]
        omega

end Phrase

/-- What the reading of a derived list has to be like, for each part of the grammar. A chain is read
with any sign in front of it. -/
def Nonterminal.HasPhrase (G : Grammar) (ts : List Token) : Nonterminal → Prop
  | .atom => ∃ p : Phrase, p.Binds 4 ∧ p.tokens = ts ∧ (p.signs = 0 ∨ ∃ t, G.sign t)
  | .chain => ∀ s : Option Token, (∀ t ∈ s, G.sign t) →
      ∃ p : Phrase, p.Reads (s.toList ++ ts) ∧ (p.signs = 0 ∨ ∃ t, G.sign t)
  | .expression => ∃ p : Phrase, p.Reads ts ∧ (p.signs = 0 ∨ ∃ t, G.sign t)

/-- **Every expression can be read** if its operators are those of arithmetic. -/
theorem Grammar.Derives.hasPhrase {G : Grammar} {n : Nonterminal} {ts : List Token}
    (hoperator : ∀ t : Token, G.operator t → t.isArithmetic) (h : G.Derives n ts) :
    n.HasPhrase G ts := by
  induction h with
  | @operand t ht => exact ⟨.operand t, .operand ht, rfl, .inl rfl⟩
  | @brackets o c ts ho _ hc ih =>
    obtain ⟨p, ⟨hp, rfl⟩, hsigns⟩ := ih
    exact ⟨.region (.brackets o c) p, .region ⟨ho, hc⟩ hp, rfl, hsigns⟩
  | @call f o c ts hf ho _ hc ih =>
    obtain ⟨p, ⟨hp, rfl⟩, hsigns⟩ := ih
    exact ⟨.region (.call f o c) p, .region ⟨hf, ho, hc⟩ hp, rfl, hsigns⟩
  | single _ ih =>
    -- a single atom, with the sign that may be in front of it
    obtain ⟨p, hp, rfl, hsigns⟩ := ih
    intro s hs
    cases s with
    | none => exact ⟨p, ⟨hp.mono (by decide), rfl⟩, hsigns⟩
    | some s =>
      have hs := hs s rfl
      exact ⟨.signed s p, ⟨.signed le_rfl (G.isSign_of_sign hs) (hp.mono (by decide)), rfl⟩,
        .inr ⟨s, hs⟩⟩
  | @link xs ys t _ ht _ ihxs ihys =>
    obtain ⟨a, ha, rfl, hasigns⟩ := ihys
    obtain ⟨k, hk⟩ := Token.exists_joins_of_isArithmetic (hoperator t ht)
    -- the sign stays in front: it is handed to the part of the chain before the last operator
    intro s hs
    obtain ⟨p, ⟨hp, htokens⟩, hpsigns⟩ := ihxs s hs
    obtain ⟨q, hq, hqtokens, hqsigns⟩ := hp.exists_attach (Token.joins_bounds hk).1 hk ha
    refine ⟨q, ⟨hq, by rw [hqtokens, htokens, List.append_assoc]⟩, ?_⟩
    rcases hpsigns with hpsigns | h
    · rcases hasigns with hasigns | h
      · exact .inl (by omega)
      · exact .inr h
    · exact .inr h
  | bare _ ih => exact ih none (by simp)
  | @signed s ts hs _ ih => exact ih (some s) (by simpa using hs)

/-- The operators of the list are those of arithmetic. -/
def Arithmetic (ts : List Token) : Prop :=
  ∀ t ∈ ts, t.kind = .operator → t.isArithmetic

instance (ts : List Token) : Decidable (Arithmetic ts) :=
  inferInstanceAs (Decidable (∀ t ∈ ts, t.kind = .operator → t.isArithmetic))

/-- **What is not reported can be read**, unless it is empty. -/
theorem exists_reads {ts : List Token} (hne : ts ≠ []) (hvalid : validate ts = [])
    (harith : Arithmetic ts) : ∃ p : Phrase, p.Reads ts := by
  have hfull := derives_of_validate_eq_nil hne hvalid
  have hderives : Grammar.arithmetic.Derives .expression ts :=
    hfull.mono (fun _ _ hs => hs) fun t ht hkind => harith t ht hkind
  obtain ⟨p, hp, -⟩ := hderives.hasPhrase fun _ ht => ht
  exact ⟨p, hp⟩

end Formula
