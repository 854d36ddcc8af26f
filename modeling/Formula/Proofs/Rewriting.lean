import Formula.Proofs.Measure
import Formula.Simplify

/-!
# Simplification rewrites phrases

An edit takes tokens away around a cursor by counting. On the tokens of an expression what it takes
away is a phrase and what it leaves is another one at the same place, so simplification rewrites the
reading of a formula: `Contracts` lists what the rules do to a phrase, and `Rewrites` does it at a
place inside a phrase.

* `Context.Accepts.fill_binds` — whatever fits the hole may be put there;
* `Cursor.edit?_rewrites` — every edit rewrites the reading.

Two edits are not like this. A zero to the right of `/` is a division by zero, which is found before
any edit; a zero behind a leading sign would go together with the sign, but the sign stands further
to the left and gets its own zero first.
-/

namespace Formula

open Context

/-! ### Contractions -/

theorem Token.isOperand_of_isNumber {t : Token} {text : String} (h : t.isNumber text) :
    t.isOperand := by
  simp [isOperand, kind_of_isNumber h]

/-- **A term with a factor zero.** The factor is `z`, and it is no divisor. -/
inductive ZeroTerm (z : Token) : Phrase → Prop
  | zero : ZeroTerm z (.operand z)
  | product {l : Phrase} {o : Token} (ho : o.isOperator "*") :
      ZeroTerm z (.binary l o (.operand z))
  | left {p r : Phrase} {o : Token} (hp : ZeroTerm z p) (ho : o.joins 2) :
      ZeroTerm z (.binary p o r)

/-- **What a rule does to a phrase.** The literals put in stand at the place of the token that
called for the rule. -/
inductive Contracts : Rule → Phrase → Phrase → Prop
  | unarySign {s : Token} {p : Phrase} (hs : s.isSign) :
      Contracts .unarySign (.signed s p) (.binary (.operand ⟨.number, "0", s.position⟩) s p)
  | zeroExponent {l : Phrase} {o z : Token} (ho : o.joins 3) (hz : z.isNumber "0") :
      Contracts .zeroExponent (.binary l o (.operand z))
        (.operand ⟨.number, "1", z.position⟩)
  | zeroPower {z o n : Token} (hz : z.isNumber "0") (ho : o.joins 3) (hn : n.isPositiveLiteral) :
      Contracts .zeroPower (.binary (.operand z) o (.operand n)) (.operand z)
  | multiplyByZero {z : Token} {p : Phrase} (hz : z.isNumber "0") (hp : ZeroTerm z p) :
      Contracts .multiplyByZero p (.operand z)
  | zeroDividend {z : Token} {p : Phrase} (hz : z.isNumber "0") (hp : ZeroTerm z p) :
      Contracts .zeroDividend p (.operand z)
  | exponentOne {l : Phrase} {o u : Token} (ho : o.joins 3) (hu : u.isNumber "1") :
      Contracts .exponentOne (.binary l o (.operand u)) l
  | powerOfOne {u o : Token} {r : Phrase} (hu : u.isNumber "1") (ho : o.joins 3) :
      Contracts .powerOfOne (.binary (.operand u) o r) (.operand u)
  | factorRight {l : Phrase} {o u : Token} (ho : o.joins 2) (hu : u.isNumber "1") :
      Contracts .identityFactor (.binary l o (.operand u)) l
  | factorLeft {u o : Token} {r : Phrase} (hu : u.isNumber "1") (ho : o.isOperator "*") :
      Contracts .identityFactor (.binary (.operand u) o r) r
  | summandRight {l : Phrase} {o z : Token} (ho : o.joins 1) (hz : z.isNumber "0") :
      Contracts .identityTerm (.binary l o (.operand z)) l
  | summandLeft {z o : Token} {r : Phrase} (hz : z.isNumber "0") (ho : o.isOperator "+") :
      Contracts .identityTerm (.binary (.operand z) o r) r

/-- **A step of simplification**, at some place inside a phrase. What is put there fits the hole. -/
inductive Rewrites (rule : Rule) : Phrase → Phrase → Prop
  | inside {n : Nat} {C : Context} {p q : Phrase} (hC : Accepts n C) (hq : q.Binds n)
      (h : Contracts rule p q) : Rewrites rule (fill C p) (fill C q)

/-! ### The frames around a cursor -/

namespace Cursor

/-- The cursor's token stands in the hole of the context. -/
structure StandsIn (c : Cursor) (C : Context) : Prop where
  accepts : Accepts 4 C
  before_eq : C.before = c.before
  after_eq : C.after = c.after

theorem exists_standsIn {c : Cursor} {p : Phrase} (h : p.Reads c.toList) (hc : c.focus.isOperand) :
    ∃ C : Context, c.StandsIn C ∧ fill C (.operand c.focus) = p := by
  obtain ⟨C, hC, hfill, hbefore, hafter⟩ := h.exists_context hc
  exact ⟨C, ⟨hC, hbefore, hafter⟩, hfill⟩

theorem isPrecededBy_cons {c : Cursor} {o : Token} {ts : List Token} {ops : List String}
    (h : c.before = o :: ts) : c.isPrecededBy ops = o.isOperatorIn ops := by
  simp [isPrecededBy, h]

theorem isFollowedBy_cons {c : Cursor} {o : Token} {ts : List Token} {ops : List String}
    (h : c.after = o :: ts) : c.isFollowedBy ops = o.isOperatorIn ops := by
  simp [isFollowedBy, h]

namespace StandsIn

variable {c : Cursor} {C : Context} {k : Nat}

/-- **The token is a right operand**, or has a sign in front, if an operator stands in front of it
and none that binds more tightly stands behind. -/
theorem exists_rightOf (h : c.StandsIn C) (hpre : c.isPrecededBy (layerOps k))
    (hfol : ∀ j, k < j → j ≤ 3 → ¬ c.isFollowedBy (layerOps j)) :
    (∃ (l : Phrase) (o : Token) (E : Context),
        C = .rightOf l o :: E ∧ l.Binds k ∧ o.joins k ∧ Accepts k E) ∨
      ∃ (s : Token) (E : Context), C = .underSign s :: E ∧ s.isSign ∧ Accepts 1 E ∧ k = 1 := by
  obtain ⟨hC, hbefore, hafter⟩ := h
  obtain ⟨o, hhead, ho⟩ : ∃ o ∈ C.before.head?, o.joins k := by
    rw [hbefore]
    simpa [isPrecededBy, Option.any_eq_true, Token.joins] using hpre
  cases hC with
  | top _ => simp at hhead
  | @region _ b _ _ hb _ =>
    -- what is in front is a bracket and no operator
    obtain ⟨fs, o', hfront, hopen⟩ := hb.exists_front
    obtain rfl : o' = o := by simpa [Frame.before, hfront] using hhead
    exact absurd hopen (Token.not_isOpen_of_operator (Token.kind_of_joins ho))
  | @sign _ s E _ hs hE =>
    -- only a sign or an operator stands directly in front of the hole
    obtain rfl : s = o := by simpa [Frame.before] using hhead
    exact .inr ⟨s, E, rfl, hs, hE, (Token.joins_unique (j := 1) hs ho).symm⟩
  | @left _ j o' r E _ ho' _ hE =>
    -- the operator in front binds more loosely than the one behind
    have hlt : k < j := by
      by_contra hle
      exact (hE.closes_before o (by simpa [Frame.before] using hhead)).2 k (by omega) ho
    have hj := (Token.joins_bounds ho').2
    refine absurd ?_ (hfol j hlt hj)
    have hnext : c.after = o' :: (r.tokens ++ E.after) := by simp [← hafter, Frame.after]
    rw [isFollowedBy_cons hnext]
    exact ho'
  | @right _ j l o' E _ hl ho' hE =>
    obtain rfl : o' = o := by simpa [Frame.before] using hhead
    obtain rfl := Token.joins_unique ho' ho
    exact .inl ⟨l, o', E, rfl, hl, ho', hE⟩

/-- **The token is a left operand** if an operator stands behind it and none that binds as tightly
stands in front. -/
theorem exists_leftOf (h : c.StandsIn C) (hfol : c.isFollowedBy (layerOps k))
    (hpre : ∀ j, k ≤ j → j ≤ 3 → ¬ c.isPrecededBy (layerOps j)) :
    ∃ (o : Token) (r : Phrase) (E : Context),
      C = .leftOf o r :: E ∧ o.joins k ∧ r.Binds (k + 1) ∧ Accepts k E := by
  obtain ⟨hC, hbefore, hafter⟩ := h
  obtain ⟨o, hhead, ho⟩ : ∃ o ∈ C.after.head?, o.joins k := by
    rw [hafter]
    simpa [isFollowedBy, Option.any_eq_true, Token.joins] using hfol
  have hk := Token.joins_bounds ho
  cases hC with
  | top _ => simp at hhead
  | @region _ b _ _ hb _ =>
    -- what is behind is a bracket and no operator
    obtain ⟨c', hback, hclose⟩ := hb.exists_back
    obtain rfl : c' = o := by simpa [Frame.after, hback] using hhead
    exact absurd hclose (Token.not_isClose_of_operator (Token.kind_of_joins ho))
  | @sign _ s E _ hs hE =>
    -- behind a signed product there is an operator of layer `1` only, like the sign in front
    have hle : k ≤ 1 := by
      by_contra hlt
      exact (hE.closes_after o (by simpa [Frame.after] using hhead)).2 k (by omega) ho
    refine absurd ?_ (hpre 1 hle (by decide))
    have hnext : c.before = s :: E.before := by simp [← hbefore, Frame.before]
    rw [isPrecededBy_cons hnext]
    exact hs
  | @left _ j o' r E _ ho' hr hE =>
    -- the operator behind the hole is its own
    obtain rfl : o' = o := by simpa [Frame.after] using hhead
    obtain rfl := Token.joins_unique ho' ho
    exact ⟨o', r, E, rfl, ho', hr, hE⟩
  | @right _ j l o' E _ _ ho' hE =>
    -- the operator behind binds no more tightly than the one in front
    have hle : k ≤ j := by
      by_contra hlt
      exact (hE.closes_after o (by simpa [Frame.after] using hhead)).2 k (by omega) ho
    refine absurd ?_ (hpre j hle (Token.joins_bounds ho').2)
    have hnext : c.before = o' :: (l.tokens.reverse ++ E.before) := by
      simp [← hbefore, Frame.before]
    rw [isPrecededBy_cons hnext]
    exact ho'

/-- A base has its exponent behind it, unless it is an exponent itself: powers associate to the
left. -/
theorem exists_base (h : c.StandsIn C) (hfol : c.isFollowedBy ["^"])
    (hexponent : ¬ c.isPrecededBy ["^"]) :
    ∃ (o : Token) (r : Phrase) (E : Context),
      C = .leftOf o r :: E ∧ o.joins 3 ∧ r.Binds 4 ∧ Accepts 3 E := by
  refine h.exists_leftOf (k := 3) hfol fun j hj hj' => ?_
  obtain rfl : j = 3 := by omega
  exact hexponent

end StandsIn

/-! ### What an edit does to the reading -/

/-- Carrying out the edit rewrites the phrase. -/
def Realizes (c : Cursor) (e : Edit) (p : Phrase) : Prop :=
  ∃ q : Phrase, q.Reads (c.apply e) ∧ Rewrites e.rule p q

variable {c : Cursor}

/-- An edit inside a context: the tokens around the hole stay. -/
theorem realizes_of_apply_eq {e : Edit} {n : Nat} {E : Context} {p q : Phrase} (hE : Accepts n E)
    (hq : q.Binds n) (h : Contracts e.rule p q)
    (happly : c.apply e = E.before.reverse ++ q.tokens ++ E.after) : c.Realizes e (fill E p) :=
  ⟨fill E q, happly ▸ hE.fill_reads hq, .inside hE hq h⟩

namespace StandsIn

variable {E : Context} {k : Nat} {rule : Rule} {l r : Phrase} {o : Token}

/-- A right operand goes, together with its operator. -/
theorem realizes_dropRight (h : c.StandsIn (.rightOf l o :: E)) (hE : Accepts k E) (hl : l.Binds k)
    (hrule : Contracts rule (.binary l o (.operand c.focus)) l) :
    c.Realizes ⟨rule, 1, 1, none⟩ (fill (.rightOf l o :: E) (.operand c.focus)) := by
  refine realizes_of_apply_eq (E := E) hE hl hrule ?_
  simp [apply, ← h.before_eq, ← h.after_eq, Frame.before, Frame.after]

/-- A left operand goes, together with its operator. -/
theorem realizes_dropLeft (h : c.StandsIn (.leftOf o r :: E)) (hE : Accepts k E) (hr : r.Binds k)
    (hrule : Contracts rule (.binary (.operand c.focus) o r) r) :
    c.Realizes ⟨rule, 0, 2, none⟩ (fill (.leftOf o r :: E) (.operand c.focus)) := by
  refine realizes_of_apply_eq (E := E) hE hr hrule ?_
  simp [apply, ← h.before_eq, ← h.after_eq, Frame.before, Frame.after]

/-- A left operand stays, and what it is combined with goes. -/
theorem realizes_keepLeft (h : c.StandsIn (.leftOf o r :: E)) (hE : Accepts k E)
    (hc : c.focus.isOperand)
    (hrule : Contracts rule (.binary (.operand c.focus) o r) (.operand c.focus)) :
    c.Realizes ⟨rule, 0, 2 + r.tokens.length, some c.focus⟩
      (fill (.leftOf o r :: E) (.operand c.focus)) := by
  refine realizes_of_apply_eq (E := E) hE (.operand hc) hrule ?_
  have hdrop : (c.focus :: c.after).drop (2 + r.tokens.length) = E.after := by
    rw [← h.after_eq, Nat.add_comm]
    simp [Frame.after]
  simp only [apply, hdrop, ← h.before_eq]
  simp [Frame.before, Phrase.tokens]

/-- A zero exponent makes one of the whole power, which is its left operand. -/
theorem realizes_zeroExponent (h : c.StandsIn (.rightOf l o :: E)) (hE : Accepts 3 E)
    (hl : l.Binds 3) (ho : o.joins 3) (hz : c.focus.isNumber "0") {back : Nat}
    (hback : Extent.powerTail .leftward c.before = some back) :
    c.Realizes ⟨.zeroExponent, back, 1, some (c.literal "1")⟩
      (fill (.rightOf l o :: E) (.operand c.focus)) := by
  have hbefore : c.before = o :: (Direction.along .leftward l.tokens ++ E.before) := by
    simp [← h.before_eq, Frame.before, Direction.along]
  have hmeasure := measures_power .leftward hl hE.closes_before
  -- the scan counts the operator and the whole left operand
  have htail : Extent.powerTail .leftward c.before = some (1 + l.tokens.length) := by
    have hlinks :
        Extent.powerTail .leftward (o :: (Direction.along .leftward l.tokens ++ E.before)) =
        (Extent.power .leftward (Direction.along .leftward l.tokens ++ E.before)).map (1 + ·) :=
      links_of_joins ho _
    rw [hbefore, hlinks, hmeasure]
    rfl
  obtain rfl : 1 + l.tokens.length = back := Option.some.inj (htail.symm.trans hback)
  refine realizes_of_apply_eq (E := E) hE (.operand rfl) (.zeroExponent ho hz) ?_
  have hdrop : c.before.drop (1 + l.tokens.length) = E.before := by
    rw [hbefore, Nat.add_comm, List.drop_succ_cons]
    exact List.drop_left' (by simp)
  simp only [apply, hdrop, Option.toList_some, List.drop_succ_cons, List.drop_zero]
  simp [← h.after_eq, Frame.after, Phrase.tokens, literal]

/-- Around a dividend or a first factor, the rest of the term is on its right. -/
theorem zeroTerm_fill {z : Token} {D E : Context} {p : Phrase} (hC : Accepts 2 (D ++ E))
    (hD : ∀ f ∈ D, f.Joins 3 ∨ f.Joins 2) (hp : ZeroTerm z p) : ZeroTerm z (fill D p) := by
  induction D generalizing p with
  | nil => exact hp
  | cons f D ih =>
    obtain ⟨hf, hrest⟩ := List.forall_mem_cons.1 hD
    cases hC with
    | region => simp [Frame.Joins] at hf
    | sign => simp [Frame.Joins] at hf
    | @left _ j o r _ hj ho _ hC =>
      -- an operator of layer `3` is too tight for the hole
      obtain rfl : j = 2 := by
        rcases hf with hf | hf <;> have := Token.joins_unique ho hf <;> omega
      exact ih hC hrest (.left hp ho)
    -- behind an operator of the term the hole would be one for its operands
    | @right _ j l o _ hj _ ho _ =>
      rcases hf with hf | hf <;> have := Token.joins_unique ho hf <;> omega

/-- The term around a zero is a term with a factor zero, if the zero is neither in a power nor a
divisor. -/
theorem zeroTerm {D E : Context} (h : c.StandsIn (D ++ E)) (hD : ∀ f ∈ D, f.Joins 3 ∨ f.Joins 2)
    (hexponent : ¬ c.isPrecededBy ["^"]) (hbase : ¬ c.isFollowedBy ["^"])
    (hdivisor : ¬ c.isPrecededBy ["/"]) : ZeroTerm c.focus (fill D (.operand c.focus)) := by
  cases D with
  | nil => exact .zero
  | cons f D =>
    obtain ⟨hf, hrest⟩ := List.forall_mem_cons.1 hD
    obtain ⟨hC, hbefore, hafter⟩ := h
    cases hC with
    | region => simp [Frame.Joins] at hf
    | sign => simp [Frame.Joins] at hf
    | @left _ j o r _ _ ho _ hC =>
      have hnext : c.after = o :: (r.tokens ++ Context.after (D ++ E)) := by
        simp [← hafter, Frame.after]
      rw [isFollowedBy_cons hnext] at hbase
      -- the zero is no base, so it is a dividend or a first factor
      have hj : o.joins 2 := hf.resolve_left hbase
      obtain rfl := Token.joins_unique ho hj
      rw [fill]
      exact zeroTerm_fill (E := E) hC hrest (.left .zero ho)
    | @right _ j l o _ _ _ ho hC =>
      have hnext : c.before = o :: (l.tokens.reverse ++ Context.before (D ++ E)) := by
        simp [← hbefore, Frame.before]
      rw [isPrecededBy_cons hnext] at hexponent hdivisor
      -- the zero is neither an exponent nor a divisor, so it is a factor
      have hj : o.joins 2 := hf.resolve_left hexponent
      obtain rfl := Token.joins_unique ho hj
      have hstar : o.isOperator "*" := by
        obtain ⟨hkind, htext⟩ := Token.joins_cases hj
        simp [Token.isOperatorIn, hkind] at hdivisor
        simpa [Token.isOperator, hkind, hdivisor] using htext
      rw [fill]
      exact zeroTerm_fill (E := E) hC hrest (.product hstar)

/-- **The term around an operand**, measured by the scans of an edit. If one token takes its place,
the tokens around the term stay. -/
theorem exists_termAround {C : Context} (h : c.StandsIn C) {back ahead : Nat}
    (hterm : c.term = some (back, ahead)) :
    ∃ D E : Context, C = D ++ E ∧ Accepts 2 E ∧ (∀ f ∈ D, f.Joins 3 ∨ f.Joins 2) ∧
      ∀ (rule : Rule) (t : Token), c.apply ⟨rule, back, 1 + ahead, some t⟩ =
        E.before.reverse ++ [t] ++ E.after := by
  obtain ⟨D, E, rfl, hE, hD, hscan, -⟩ := h.accepts.termTail_side
  -- the two scans of the edit are those that come to the ends of the term
  have hleft := hscan .leftward
  have hright := hscan .rightward
  simp only [side, h.before_eq, h.after_eq] at hleft hright
  obtain ⟨rfl, rfl⟩ : D.before.length = back ∧ D.after.length = ahead := by
    simpa [term, hleft, hright] using hterm
  refine ⟨D, E, rfl, hE, hD, fun rule t => ?_⟩
  have hback : c.before.drop D.before.length = E.before := by
    rw [← h.before_eq, before_append]
    exact List.drop_left
  have hahead : c.after.drop D.after.length = E.after := by
    rw [← h.after_eq, after_append]
    exact List.drop_left
  simp only [apply, Nat.add_comm 1, List.drop_succ_cons, hback, hahead, Option.toList_some]

/-- A factor zero makes zero of the whole term around it. -/
theorem realizes_zeroTerm {C : Context} (h : c.StandsIn C) (hc : c.focus.isOperand)
    (hexponent : ¬ c.isPrecededBy ["^"]) (hbase : ¬ c.isFollowedBy ["^"])
    (hdivisor : ¬ c.isPrecededBy ["/"]) {back ahead : Nat} (hterm : c.term = some (back, ahead))
    (hrule : ∀ p, ZeroTerm c.focus p → Contracts rule p (.operand c.focus)) :
    c.Realizes ⟨rule, back, 1 + ahead, some c.focus⟩ (fill C (.operand c.focus)) := by
  obtain ⟨D, E, rfl, hE, hD, happly⟩ := h.exists_termAround hterm
  have hzero := h.zeroTerm hD hexponent hbase hdivisor
  rw [fill_append]
  exact realizes_of_apply_eq (E := E) hE (.operand hc) (hrule _ hzero) (happly rule c.focus)

end StandsIn

/-! ### Every edit rewrites the reading -/

theorem isPrecededBy_pair (c : Cursor) (a b : String) :
    c.isPrecededBy [a, b] ↔ c.isPrecededBy [a] ∨ c.isPrecededBy [b] := by
  cases h : c.before with
  | nil => simp [isPrecededBy, h]
  | cons o ts =>
    simp only [isPrecededBy_cons h, Token.isOperatorIn_singleton]
    exact o.isOperatorIn_pair a b

theorem isFollowedBy_mono {ops ops' : List String} (hops : ops ⊆ ops')
    (h : c.isFollowedBy ops) : c.isFollowedBy ops' := by
  cases hafter : c.after with
  | nil => simp [isFollowedBy, hafter] at h
  | cons o ts =>
    rw [isFollowedBy_cons hafter] at h ⊢
    simp only [Token.isOperatorIn, Bool.and_eq_true, List.contains_iff_mem] at h ⊢
    exact ⟨h.1, hops h.2⟩

/-- The edit at a leading sign. -/
theorem realizes_signEdit {p : Phrase} (hp : p.Reads c.toList) (hs : c.focus.isSign)
    (hlead : c.isLeading) : c.Realizes ⟨.unarySign, 0, 0, some (c.literal "0")⟩ p := by
  obtain ⟨C, q, hC, hq, rfl, hbefore, hafter⟩ := hp.exists_signed hs hlead
  have hbinds : Phrase.Binds (.binary (.operand (c.literal "0")) c.focus q) 1 :=
    .binary le_rfl (.operand rfl) hs hq
  refine realizes_of_apply_eq hC hbinds (.unarySign hs) ?_
  simp [apply, hbefore, ← hafter, Phrase.tokens]

/-- No sign in leading position stands directly in front. -/
def BehindNoSign (c : Cursor) : Prop :=
  ∀ s bs, c.before = s :: bs → s.isSign → ¬ bs.head?.all Token.isOpen

theorem StandsIn.not_underSign {s : Token} {E : Context} (h : c.StandsIn (.underSign s :: E))
    (hsign : c.BehindNoSign) (hE : Accepts 1 E) (hs : s.isSign) : False := by
  have hbefore : c.before = s :: E.before := by simp [← h.before_eq, Frame.before]
  refine hsign s E.before hbefore hs ?_
  rw [Option.all_eq_true]
  intro t ht
  -- in front of a hole for a sum there is an opening bracket or nothing
  rcases hE.bars t (by simpa using ht) with hopen | ⟨k, hk, hjoins⟩
  · exact hopen
  · have := Token.joins_bounds hjoins
    omega

/-- The operator behind a left operand is the token behind the cursor. -/
theorem StandsIn.isOperatorIn_of_isFollowedBy {o : Token} {r : Phrase} {E : Context}
    {ops : List String} (h : c.StandsIn (.leftOf o r :: E)) (hfol : c.isFollowedBy ops) :
    o.isOperatorIn ops := by
  have hafter : c.after = o :: (r.tokens ++ E.after) := by simp [← h.after_eq, Frame.after]
  rwa [isFollowedBy_cons hafter] at hfol

/-- An atom that starts with a literal is that literal. -/
theorem StandsIn.exists_literal {o : Token} {r : Phrase} {E : Context}
    (h : c.StandsIn (.leftOf o r :: E)) (hr : r.Binds 4)
    (hliteral : (c.after.drop 1).head?.any Token.isPositiveLiteral) :
    ∃ n, r = .operand n ∧ n.isPositiveLiteral := by
  have hafter : c.after.drop 1 = r.tokens ++ E.after := by simp [← h.after_eq, Frame.after]
  rw [hafter] at hliteral
  rcases hr.atom_cases with ⟨t, -, rfl⟩ | ⟨b, i, hb, -, rfl⟩
  · exact ⟨t, rfl, by simpa [Phrase.tokens] using hliteral⟩
  · -- a region does not start with a number
    obtain ⟨t, ts, hfront⟩ : ∃ t ts, b.front = t :: ts := by
      obtain ⟨fs, o', hfront, -⟩ := hb.exists_front
      cases fs with
      | nil => exact ⟨o', [], hfront⟩
      | cons f fs => exact ⟨f, fs ++ [o'], hfront⟩
    have hnumber : t.kind = .number :=
      Token.kind_of_isPositiveLiteral (by simpa [Phrase.tokens, hfront] using hliteral)
    rcases hb.kind_of_mem (.inl (by simp [hfront] : t ∈ b.front)) with hkind | hkind | hkind <;>
      simp [hnumber] at hkind

/-- **The edit at a number.** The first frames around it tell what it is to the operators beside
it. -/
theorem StandsIn.realizes {C : Context} {e : Edit} (h : c.StandsIn C)
    (hnumber : c.focus.kind = .number) (hdivisor : c.focus.isNumber "0" → ¬ c.isPrecededBy ["/"])
    (hsign : c.BehindNoSign) (he : c.Calls e) : c.Realizes e (fill C (.operand c.focus)) := by
  have hc : c.focus.isOperand := by simp [Token.isOperand, hnumber]
  cases he with
  | unarySign hs => simp [Token.kind_of_isSign hs] at hnumber
  | zeroExponent hzero hop hback =>
    -- no sign is an operator of this layer, so the zero is a right operand
    rcases h.exists_rightOf (k := 3) hop (by omega) with
      ⟨l, o, E, rfl, hl, ho, hE⟩ | ⟨-, -, -, -, -, hk⟩
    · exact h.realizes_zeroExponent hE hl ho hzero hback
    · omega
  | zeroPower hzero hexponent hop hliteral =>
    -- the exponent is one literal, which goes together with its operator
    obtain ⟨o, r, E, rfl, ho, hr, hE⟩ := h.exists_base hop hexponent
    obtain ⟨n, rfl, hn⟩ := h.exists_literal hr hliteral
    exact h.realizes_keepLeft hE hc (.zeroPower hzero ho hn)
  | zeroFactor hzero hexponent hbase _ hterm =>
    -- the whole term goes, as `Contracts` allows for a product and for a dividend
    refine h.realizes_zeroTerm hc hexponent hbase (hdivisor hzero) hterm fun p hp => ?_
    split
    · exact .multiplyByZero hzero hp
    · exact .zeroDividend hzero hp
  | summandRight hzero hbase hdividend hop =>
    -- neither a product nor a power goes on behind the zero
    rcases h.exists_rightOf (k := 1) hop (by
      intro j hj hj'
      obtain rfl | rfl : j = 2 ∨ j = 3 := by omega
      · exact hdividend
      · exact hbase) with ⟨l, o, E, rfl, hl, ho, hE⟩ | ⟨s, E, rfl, hs, hE, -⟩
    · exact h.realizes_dropRight hE hl (.summandRight ho hzero)
    · -- a sign in front would have had its own edit first
      exact (h.not_underSign hsign hE hs).elim
  | summandLeft hzero hexponent hfactor hsummand hop =>
    -- a zero stays in front of `-`
    obtain ⟨o, r, E, rfl, ho, hr, hE⟩ := h.exists_leftOf (k := 1)
      (isFollowedBy_mono (by simp [layerOps]) hop) (by
        intro j hj hj'
        obtain rfl | rfl | rfl : j = 1 ∨ j = 2 ∨ j = 3 := by omega
        · exact hsummand
        · exact fun hpre => ((c.isPrecededBy_pair _ _).1 hpre).elim hfactor (hdivisor hzero)
        · exact hexponent)
    have hplus : o.isOperator "+" := by
      rw [← Token.isOperatorIn_singleton]
      exact h.isOperatorIn_of_isFollowedBy hop
    exact h.realizes_dropLeft hE (hr.mono (by decide)) (.summandLeft hzero hplus)
  | exponentOne hone hop =>
    rcases h.exists_rightOf (k := 3) hop (by omega) with
      ⟨l, o, E, rfl, hl, ho, hE⟩ | ⟨-, -, -, -, -, hk⟩
    · exact h.realizes_dropRight hE hl (.exponentOne ho hone)
    · omega
  | @powerOfOne n hone hexponent hop hatom =>
    -- the scan of an atom takes the exponent
    obtain ⟨o, r, E, rfl, ho, hr, hE⟩ := h.exists_base hop hexponent
    have hmeasure := measures_atom .rightward hr (closes_four E.after)
    have hafter : c.after.drop 1 = r.tokens ++ E.after := by simp [← h.after_eq, Frame.after]
    obtain rfl : r.tokens.length = n := by
      rw [hafter] at hatom
      exact Option.some.inj (hmeasure.symm.trans hatom)
    exact h.realizes_keepLeft hE hc (.powerOfOne hone ho)
  | factorRight hone hbase hop =>
    -- no power goes on behind the one
    rcases h.exists_rightOf (k := 2) hop (by
      intro j hj hj'
      obtain rfl : j = 3 := by omega
      exact hbase) with ⟨l, o, E, rfl, hl, ho, hE⟩ | ⟨-, -, -, -, -, hk⟩
    · exact h.realizes_dropRight hE hl (.factorRight ho hone)
    · omega
  | factorLeft hone hexponent hfactor hop =>
    obtain ⟨o, r, E, rfl, ho, hr, hE⟩ := h.exists_leftOf (k := 2)
      -- the factor is not the right operand of another product
      (isFollowedBy_mono (by simp [layerOps]) hop) (by
        intro j hj hj'
        obtain rfl | rfl : j = 2 ∨ j = 3 := by omega
        · exact hfactor
        · exact hexponent)
    have hstar : o.isOperator "*" := by
      rw [← Token.isOperatorIn_singleton]
      exact h.isOperatorIn_of_isFollowedBy hop
    exact h.realizes_dropLeft hE (hr.mono (by decide)) (.factorLeft hone hstar)

/-- **Every edit rewrites the reading**, unless it is called for by a divisor zero or by a zero
behind a leading sign. -/
theorem edit?_rewrites {p : Phrase} {e : Edit} (hp : p.Reads c.toList)
    (hdivisor : c.focus.isNumber "0" → ¬ c.isPrecededBy ["/"]) (hsign : c.BehindNoSign)
    (he : c.edit? = some e) : c.Realizes e p := by
  have hcalls := calls_of_edit? he
  rcases hcalls.sign_or_number with ⟨hs, hlead, rfl⟩ | ⟨hnumber, -⟩
  · exact realizes_signEdit hp hs hlead
  · obtain ⟨C, hC, rfl⟩ := exists_standsIn hp (by simp [Token.isOperand, hnumber])
    exact hC.realizes hnumber hdivisor hsign hcalls

end Cursor

end Formula
