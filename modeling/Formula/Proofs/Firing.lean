import Formula.Proofs.Divisors

/-!
# Firing rules in any order

Simplification always carries out the leftmost edit. Here an edit may be carried out at any token
where there is one (`Fires`). On a proper phrase, which has no signs and whose divisors are safe,
every such edit rewrites the reading (`Fires.exists_reads`), and so the normal form stays the same.
A list is at rest if there is no edit (`AtRest`), and it is at rest exactly if no rule applies to
its reading (`Phrase.Reads.atRest_iff`).

Every way to a list at rest therefore ends with the tokens of the normal form, but for their places
(`simplify_confluent`).
-/

namespace Formula

/-- **A firing** carries out the edit at one of the tokens. -/
def Fires (ts us : List Token) : Prop :=
  ∃ i c e, Cursor.ofIndex? ts i = some c ∧ c.edit? = some e ∧ c.apply e = us

/-- There is no edit at any token. -/
def AtRest (ts : List Token) : Prop :=
  ∀ i c, Cursor.ofIndex? ts i = some c → c.edit? = none

/-- Every token of a list is at some index. -/
theorem Cursor.exists_ofIndex? (c : Cursor) : Cursor.ofIndex? c.toList c.index = some c := by
  have hdrop : c.toList.drop c.index = c.focus :: c.after := by
    rw [toList, index, ← List.length_reverse]
    exact List.drop_left
  have htake : c.toList.take c.index = c.before.reverse := by
    rw [toList, index, ← List.length_reverse]
    exact List.take_left
  rw [ofIndex?, hdrop]
  simp [htake]

theorem AtRest.edit?_eq_none {c : Cursor} (h : AtRest c.toList) : c.edit? = none :=
  h c.index c c.exists_ofIndex?

/-! ### Firings rewrite the reading -/

open Phrase Context

/-- Where there are no signs in leading position, no sign is in one. -/
theorem not_leading_of_leadingSigns {s : Token} {bs us : List Token}
    (h : leadingSigns true (bs.reverse ++ s :: us) = 0) (hs : s.isSign) :
    ¬ bs.head?.all Token.isOpen := by
  intro hlead
  rw [leadingSigns_append, leadsAfter_reverse, hlead, leadingSigns, hs] at h
  simp at h

theorem behindNoSign_of_leadingSigns {c : Cursor} (h : leadingSigns true c.toList = 0) :
    c.BehindNoSign := by
  intro s bs hbefore hs
  have hlist : c.toList = bs.reverse ++ s :: (c.focus :: c.after) := by
    simp [Cursor.toList, hbefore]
  rw [hlist] at h
  exact not_leading_of_leadingSigns h hs

/-- An edit at anything but a leading sign makes the list shorter. -/
theorem Cursor.length_apply_lt {c : Cursor} {e : Edit} (he : c.edit? = some e)
    (hsigns : leadingSigns true c.toList = 0) : (c.apply e).length < c.toList.length := by
  rcases edit?_shape he with ⟨hs, hlead, -⟩ | ⟨hback, hahead, hshorter, -⟩
  · exact absurd hlead (not_leading_of_leadingSigns hsigns hs)
  · simp only [apply, toList, List.length_append, List.length_reverse, List.length_drop,
      List.length_cons]
    omega

/-- **A firing on a proper phrase** is a step of rewriting. -/
theorem Fires.exists_reads {ts us : List Token} {p : Phrase} (h : Fires ts us) (hp : p.Reads ts)
    (hproper : p.Proper) : ∃ q : Phrase, q.Reads us ∧ p.Step q ∧ q.Proper := by
  obtain ⟨i, c, e, hc, hedit, rfl⟩ := h
  obtain rfl := Cursor.ofIndex?_toList hc
  have hdivision : findDivisionByZero c.toList = none :=
    hp.findDivisionByZero_eq_none_iff.2 hproper.safe
  have hsigns : leadingSigns true c.toList = 0 := by rw [hp.leadingSigns_eq, hproper.unsigned]
  obtain ⟨q, hq, hrewrites⟩ := Cursor.edit?_rewrites hp
    (not_divisor_of_findDivisionByZero hdivision) (behindNoSign_of_leadingSigns hsigns) hedit
  have hstep : p.Step q := ⟨e.rule, hrewrites⟩
  exact ⟨q, hq, hstep, hstep.proper hproper hp.binds⟩

/-- **Any number of firings** keeps the normal form. -/
theorem exists_reads_of_firings {ts us : List Token} {p : Phrase}
    (h : Relation.ReflTransGen Fires ts us) (hp : p.Reads ts) (hproper : p.Proper) :
    ∃ q : Phrase, q.Reads us ∧ q.Proper ∧ q.normalForm = p.normalForm := by
  induction h with
  | refl => exact ⟨p, hp, hproper, rfl⟩
  | tail _ hfires ih =>
    obtain ⟨q, hq, hq', hnormal⟩ := ih
    obtain ⟨r, hr, hstep, hr'⟩ := hfires.exists_reads hq hq'
    exact ⟨r, hr, hr', hstep.normalForm_eq.symm.trans hnormal⟩

/-! ### Where no rule applies there is no edit -/

theorem Phrase.Normal.signs_eq {p : Phrase} (h : p.Normal) : p.signs = 0 := by
  induction p with
  | operand => rfl
  | region b p ih => exact ih h
  | signed => exact h.elim
  | binary l o r ihl ihr => rw [signs, ihl h.1, ihr h.2.1]

/-- **A phrase that no rule applies to** is at rest: an edit would make it shorter than its normal
form. -/
theorem Phrase.Reads.atRest_of_normal {p : Phrase} {ts : List Token} (hp : p.Reads ts)
    (hnormal : p.Normal) (hsafe : p.SafeDivisors) : AtRest ts := by
  intro i c hc
  by_contra hedit
  obtain ⟨e, he⟩ := Option.ne_none_iff_exists'.1 hedit
  have hproper : p.Proper := ⟨hnormal.signs_eq, hsafe⟩
  obtain ⟨q, hq, hstep, hq'⟩ := Fires.exists_reads ⟨i, c, e, hc, he, rfl⟩ hp hproper
  obtain rfl := Cursor.ofIndex?_toList hc
  have hshorter := Cursor.length_apply_lt he (by rw [hp.leadingSigns_eq, hproper.unsigned])
  have hlength := length_normalForm_le hq'.unsigned
  rw [← hstep.normalForm_eq, hnormal.normalForm_eq, tokens_bare, List.length_map, hp.tokens_eq,
    hq.tokens_eq] at hlength
  omega

/-! ### Where there is no edit no rule applies -/

namespace Cursor

variable {c : Cursor} {C : Context}

/-- The power in front of an exponent can be measured. -/
theorem StandsIn.exists_powerTail (h : c.StandsIn C) :
    ∃ n, Extent.powerTail .leftward c.before = some n := by
  obtain ⟨D, E, rfl, hrun⟩ := h.accepts.exists_powerTail
  rw [← h.before_eq]
  exact ⟨_, hrun.links .leftward⟩

/-- So can the term around an operand. -/
theorem StandsIn.exists_term (h : c.StandsIn C) : ∃ n, c.term = some n := by
  obtain ⟨D, E, rfl, -, -, hscan, -⟩ := h.accepts.termTail_side
  have hleft := hscan .leftward
  have hright := hscan .rightward
  simp only [Context.side, h.before_eq, h.after_eq] at hleft hright
  exact ⟨_, term_eq_some_iff.2 ⟨hleft, hright⟩⟩

/-- **A zero calls for an edit** as an exponent, as a base with a positive exponent, and next to an
operator that it is neutral or absorbing for. -/
theorem zeroEdit_ne_none (h : c.StandsIn C)
    (hnext : c.isPrecededBy ["^"] ∨
      c.isFollowedBy ["^"] ∧ (c.after.drop 1).head?.any Token.isPositiveLiteral ∨
      ¬ c.isFollowedBy ["^"] ∧ (c.isPrecededBy ["*"] ∨ c.isFollowedBy ["*", "/"] ∨
        c.isPrecededBy ["+", "-"] ∨ c.isFollowedBy ["+"])) : c.zeroEdit ≠ none := by
  obtain ⟨back, hback⟩ := h.exists_powerTail
  obtain ⟨n, hterm⟩ := h.exists_term
  rw [zeroEdit, hback, hterm]
  split_ifs <;> simp_all

/-- **A one calls for an edit** as an exponent or a base, and next to an operator that it is neutral
for. -/
theorem oneEdit_ne_none (h : c.StandsIn C)
    (hnext : c.isPrecededBy ["^"] ∨ c.isFollowedBy ["^"] ∨ c.isPrecededBy ["*", "/"] ∨
      c.isFollowedBy ["*"]) : c.oneEdit ≠ none := by
  rw [oneEdit]
  by_cases hexponent : c.isPrecededBy ["^"]
  · rw [if_pos hexponent]
    simp
  rw [if_neg hexponent]
  by_cases hbase : c.isFollowedBy ["^"]
  · -- the exponent is an atom, which can be measured
    obtain ⟨o, r, E, rfl, ho, hr, hE⟩ := h.exists_base hbase hexponent
    have hafter : c.after.drop 1 = r.tokens ++ E.after := by simp [← h.after_eq, Frame.after]
    have hatom : Extent.atom .rightward (r.tokens ++ E.after) = some r.tokens.length :=
      measures_atom .rightward hr (closes_four E.after)
    rw [if_pos hbase, hafter, hatom]
    simp
  · rw [if_neg hbase]
    split_ifs <;> simp_all

end Cursor

/-- No operand of the phrase calls for an edit. -/
def Phrase.Quiet (p : Phrase) : Prop :=
  ∀ (c : Cursor) (C : Context), c.StandsIn C → fill C (.operand c.focus) = p → c.edit? = none

theorem Cursor.edit?_of_isNumber_zero {c : Cursor} (h : c.focus.isNumber "0") :
    c.edit? = c.zeroEdit := by
  simp only [Token.isNumber, Bool.and_eq_true, beq_iff_eq] at h
  simp [edit?, h.1, h.2]

theorem Cursor.edit?_of_isNumber_one {c : Cursor} (h : c.focus.isNumber "1") :
    c.edit? = c.oneEdit := by
  simp only [Token.isNumber, Bool.and_eq_true, beq_iff_eq] at h
  simp [edit?, h.1, h.2]

section Operations

variable {C : Context} {l r : Phrase} {o : Token} {k : Nat}

theorem exists_of_isLiteral {p : Phrase} {s : String} (h : p.isLiteral s) :
    ∃ t, p = .operand t ∧ t.isNumber s := by
  cases p with
  | operand t => exact ⟨t, rfl, h⟩
  | region | signed | binary => simp [isLiteral] at h

/-- A left operand, seen from itself. -/
theorem exists_cursor_left (hC : Accepts k C) (ho : o.joins k) (hr : r.Binds (k + 1)) (t : Token) :
    ∃ c : Cursor, c.focus = t ∧ c.StandsIn (.leftOf o r :: C) ∧
      (∀ ops, c.isFollowedBy ops = o.isOperatorIn ops) ∧
      c.after.drop 1 = r.tokens ++ C.after := by
  have haccepts : Accepts k (.leftOf o r :: C) := .left le_rfl ho hr hC
  refine ⟨⟨before (.leftOf o r :: C), t, after (.leftOf o r :: C)⟩, rfl,
    ⟨haccepts.weaken, rfl, rfl⟩, fun ops => ?_, ?_⟩
  · simp [Cursor.isFollowedBy, Frame.after]
  · simp [Frame.after]

/-- A right operand, seen from itself. No operator that binds more tightly follows. -/
theorem exists_cursor_right (hC : Accepts k C) (hl : l.Binds k) (ho : o.joins k) (t : Token) :
    ∃ c : Cursor, c.focus = t ∧ c.StandsIn (.rightOf l o :: C) ∧
      (∀ ops, c.isPrecededBy ops = o.isOperatorIn ops) ∧
      ∀ j, k < j → ¬ c.isFollowedBy (layerOps j) := by
  have haccepts : Accepts (k + 1) (.rightOf l o :: C) := .right le_rfl hl ho hC
  refine ⟨⟨before (.rightOf l o :: C), t, after (.rightOf l o :: C)⟩, rfl,
    ⟨haccepts.weaken, rfl, rfl⟩, fun ops => ?_, fun j hj hfol => ?_⟩
  · simp [Cursor.isPrecededBy, Frame.before]
  · obtain ⟨t, ht, hjoins⟩ : ∃ t ∈ C.after.head?, t.isOperatorIn (layerOps j) := by
      simpa [Cursor.isFollowedBy, Frame.after, Option.any_eq_true] using hfol
    exact (hC.closes_after t ht).2 j hj hjoins

variable (hquiet : Quiet (fill C (.binary l o r))) (hC : Accepts k C) (hl : l.Binds k)
  (ho : o.joins k) (hr : r.Binds (k + 1))

include hquiet hC ho hr

theorem not_zero_left (hzero : l.isLiteral "0") :
    ¬ (o.joins 3 ∧ r.isPositive ∨ o.joins 2 ∨ o.isOperator "+") := by
  intro hcase
  obtain ⟨t, rfl, ht⟩ := exists_of_isLiteral hzero
  obtain ⟨c, rfl, hc, hfol, hafter⟩ := exists_cursor_left hC ho hr t
  have hbase (hnot : ¬ o.joins 3) : ¬ c.isFollowedBy ["^"] := by
    rw [hfol]
    exact hnot
  refine Cursor.zeroEdit_ne_none hc ?_ (Cursor.edit?_of_isNumber_zero ht ▸ hquiet c _ hc rfl)
  rcases hcase with ⟨hpower, hpositive⟩ | hfactor | hplus
  · -- a base with a positive exponent
    refine .inr (.inl ⟨(hfol _).trans hpower, ?_⟩)
    cases r with
    | operand n => simpa [hafter, tokens, isPositive] using hpositive
    | region | signed | binary => simp [isPositive] at hpositive
  · -- a factor is no base, so the rules for products come next
    have hnot := Token.joins_eq_false hfactor (k := 3) (by decide)
    exact .inr (.inr ⟨hbase (by simp [hnot]), .inr (.inl ((hfol _).trans hfactor))⟩)
  · have hnot := Token.joins_eq_false (Token.joins_of_isOperator hplus (k := 1) (by decide))
      (k := 3) (by decide)
    have hnext : c.isFollowedBy ["+"] := by rw [hfol, Token.isOperatorIn_singleton, hplus]
    exact .inr (.inr ⟨hbase (by simp [hnot]), .inr (.inr (.inr hnext))⟩)

theorem not_one_left (hone : l.isLiteral "1") : ¬ (o.joins 3 ∨ o.isOperator "*") := by
  intro hcase
  obtain ⟨t, rfl, ht⟩ := exists_of_isLiteral hone
  obtain ⟨c, rfl, hc, hfol, -⟩ := exists_cursor_left hC ho hr t
  refine Cursor.oneEdit_ne_none hc ?_ (Cursor.edit?_of_isNumber_one ht ▸ hquiet c _ hc rfl)
  rcases hcase with hpower | htimes
  · exact .inr (.inl ((hfol _).trans hpower))
  · have hnext : c.isFollowedBy ["*"] := by rw [hfol, Token.isOperatorIn_singleton, htimes]
    exact .inr (.inr (.inr hnext))

omit hr
include hl

theorem not_zero_right (hdivisor : o.isOperator "/" → r.startsWithZero = false) :
    ¬ r.isLiteral "0" := by
  intro hzero
  obtain ⟨t, rfl, ht⟩ := exists_of_isLiteral hzero
  obtain ⟨c, rfl, hc, hpre, hfol⟩ := exists_cursor_right hC hl ho t
  refine Cursor.zeroEdit_ne_none hc ?_ (Cursor.edit?_of_isNumber_zero ht ▸ hquiet c _ hc rfl)
  have hbounds := Token.joins_bounds ho
  obtain rfl | rfl | rfl : k = 1 ∨ k = 2 ∨ k = 3 := by omega
  · exact .inr (.inr ⟨hfol 3 (by decide), .inr (.inr (.inl ((hpre _).trans ho)))⟩)
  · -- the zero is no divisor
    have hnot : ¬ o.isOperator "/" := fun hop => by
      have hstart : c.focus.isNumber "0" = false := hdivisor hop
      simp [hstart] at ht
    obtain ⟨hkind, htext⟩ := Token.joins_cases ho
    have hstar : o.isOperatorIn ["*"] := by
      simp only [Token.isOperator, hkind, beq_self_eq_true, Bool.true_and, beq_iff_eq] at hnot
      simpa [Token.isOperatorIn, hkind, hnot] using htext
    exact .inr (.inr ⟨hfol 3 (by decide), .inl ((hpre _).trans hstar)⟩)
  · exact .inl ((hpre _).trans ho)

theorem not_one_right (hone : r.isLiteral "1") : ¬ (o.joins 3 ∨ o.joins 2) := by
  intro hcase
  obtain ⟨t, rfl, ht⟩ := exists_of_isLiteral hone
  obtain ⟨c, rfl, hc, hpre, -⟩ := exists_cursor_right hC hl ho t
  refine Cursor.oneEdit_ne_none hc ?_ (Cursor.edit?_of_isNumber_one ht ▸ hquiet c _ hc rfl)
  rcases hcase with hpower | hfactor
  · exact .inl ((hpre _).trans hpower)
  · exact .inr (.inr (.inl ((hpre _).trans hfactor)))

include hr

/-- **No rule applies** to an operation none of whose operands calls for an edit. -/
theorem contract?_eq_none (hdivisor : o.isOperator "/" → r.startsWithZero = false) :
    contract? l o r = none := by
  have hzeroLeft := not_zero_left hquiet hC ho hr
  have honeLeft := not_one_left hquiet hC ho hr
  have hzeroRight := not_zero_right hquiet hC hl ho hdivisor
  have honeRight := not_one_right hquiet hC hl ho
  rw [contract?]
  split_ifs <;> simp_all

end Operations

/-- **Quiet phrases are normal**, wherever they stand. -/
theorem Phrase.Binds.normal_of_quiet {p : Phrase} {C : Context} {n : Nat} (hp : p.Binds n)
    (hC : Accepts n C) (hproper : p.Proper) (hquiet : Quiet (fill C p)) : p.Normal := by
  induction hp generalizing C with
  | operand => trivial
  | @region b p n hb hp ih =>
    exact ih (C := .inRegion b :: C) (.region le_rfl hb hC.weaken) ⟨hproper.unsigned, hproper.safe⟩
      hquiet
  | signed => exact absurd hproper.unsigned (by simp [signs])
  | @binary l r o n k hn hl ho hr ihl ihr =>
    obtain ⟨hsigns, hleft, hright, hdivisor⟩ := hproper
    obtain ⟨hlsigns, hrsigns⟩ := Nat.add_eq_zero_iff.1 hsigns
    have hC := hC.mono hn
    exact ⟨ihl (C := .leftOf o r :: C) (.left le_rfl ho hr hC) ⟨hlsigns, hleft⟩ hquiet,
      ihr (C := .rightOf l o :: C) (.right le_rfl hl ho hC) ⟨hrsigns, hright⟩ hquiet,
      contract?_eq_none hquiet hC hl ho hr hdivisor⟩

/-- **A proper phrase is at rest** exactly if no rule applies to it. -/
theorem Phrase.Reads.atRest_iff {p : Phrase} {ts : List Token} (hp : p.Reads ts)
    (hproper : p.Proper) : AtRest ts ↔ p.Normal := by
  refine ⟨fun hrest => ?_, fun hnormal => hp.atRest_of_normal hnormal hproper.safe⟩
  refine hp.binds.normal_of_quiet (C := []) (.top le_rfl) hproper fun c C hc hfill => ?_
  -- the list is what the operand is seen to stand in
  have hlist : c.toList = ts := by
    rw [Cursor.toList, ← hp.tokens_eq, ← show fill C (.operand c.focus) = p from hfill, tokens_fill,
      hc.before_eq, hc.after_eq]
    simp [tokens]
  exact AtRest.edit?_eq_none (hlist.symm ▸ hrest)

/-! ### Every way to a list at rest -/

/-- If the search for an edit fails, there is none. -/
theorem edit?_of_nextEditFrom {front ts : List Token} (h : nextEditFrom front ts = none)
    {xs ys : List Token} {t : Token} (hts : ts = xs ++ t :: ys) :
    (Cursor.mk (xs.reverse ++ front) t ys).edit? = none := by
  induction ts generalizing front xs with
  | nil => simp at hts
  | cons u ts ih =>
    rw [nextEditFrom] at h
    split at h
    case h_1 => simp at h
    case h_2 hnone =>
      cases xs with
      | nil =>
        obtain ⟨rfl, rfl⟩ : u = t ∧ ts = ys := by simpa using hts
        exact hnone
      | cons x xs =>
        obtain ⟨rfl, rfl⟩ : u = x ∧ ts = xs ++ t :: ys := by simpa using hts
        simpa using ih h rfl

theorem atRest_of_nextEdit {ts : List Token} (h : nextEdit ts = none) : AtRest ts := by
  intro i c hc
  have hlist : ts = c.before.reverse ++ c.focus :: c.after := (Cursor.ofIndex?_toList hc).symm
  simpa using edit?_of_nextEditFrom h hlist

/-- The run of the leftmost edits comes to a result on a proper phrase. -/
theorem Phrase.Reads.exists_simplify {p : Phrase} {ts : List Token} (hp : p.Reads ts)
    (hproper : p.Proper) :
    ∃ simplified, simplify ts = .ok simplified ∧ Relation.ReflTransGen Fires ts simplified ∧
      AtRest simplified := by
  unfold simplify
  fun_induction run ts generalizing p with
  | case1 ts error hdivision =>
    rw [hp.findDivisionByZero_eq_none_iff.2 hproper.safe] at hdivision
    simp at hdivision
  | case2 ts _ hnone => exact ⟨ts, rfl, .refl, atRest_of_nextEdit hnone⟩
  | case3 ts hdivision c e hnext later =>
    rename_i ih
    obtain ⟨rfl, hedit⟩ := nextEdit_eq_some hnext
    have hfires : Fires c.toList (c.apply e) := ⟨c.index, c, e, c.exists_ofIndex?, hedit, rfl⟩
    obtain ⟨q, hq, -, hq'⟩ := hfires.exists_reads hp hproper
    obtain ⟨simplified, hok, hrun, hrest⟩ := ih hq hq'
    exact ⟨simplified, hok, .head hfires hrun, hrest⟩

/-- **The tokens of a list at rest** are those of the normal form, but for their places. -/
theorem map_bare_of_atRest {ts us : List Token} {p : Phrase}
    (h : Relation.ReflTransGen Fires ts us) (hrest : AtRest us) (hp : p.Reads ts)
    (hproper : p.Proper) : us.map Token.bare = p.normalForm.tokens := by
  obtain ⟨q, hq, hq', hnormal⟩ := exists_reads_of_firings h hp hproper
  rw [← hnormal, ((hq.atRest_iff hq').1 hrest).normalForm_eq, tokens_bare, hq.tokens_eq]

/-- Nothing fires where there are no tokens. -/
theorem eq_nil_of_firings {us : List Token} (h : Relation.ReflTransGen Fires [] us) : us = [] := by
  induction h with
  | refl => rfl
  | tail _ hfires ih =>
    subst ih
    obtain ⟨i, c, -, hc, -⟩ := hfires
    simp [Cursor.ofIndex?] at hc

/-- **The order of firings does not matter.** Take an accepted formula without signs in leading
position in which nothing is divided by the literal `0`. Simplification comes to a result, and any
firings that end where there is no edit end in the same tokens, apart from their places. -/
theorem simplify_confluent {ts : List Token} (hvalid : validate ts = []) (harith : Arithmetic ts)
    (hsigns : leadingSigns true ts = 0) (hdivisors : ts.IsChain NotByZero) :
    ∃ simplified, simplify ts = .ok simplified ∧
      ∀ out, Relation.ReflTransGen Fires ts out → AtRest out →
        (out.map fun t => (t.kind, t.text)) = simplified.map fun t => (t.kind, t.text) := by
  by_cases hne : ts = []
  · subst hne
    refine ⟨[], by simp [simplify, run, findDivisionByZero, nextEdit, nextEditFrom], ?_⟩
    intro out hfirings _
    rw [eq_nil_of_firings hfirings]
  · obtain ⟨p, hp⟩ := exists_reads hne hvalid harith
    have hproper : p.Proper :=
      ⟨by rw [← hp.leadingSigns_eq, hsigns],
        hp.findDivisionByZero_eq_none_iff.1 (findDivisionByZero_eq_none_iff.2 hdivisors)⟩
    obtain ⟨simplified, hok, hrun, hend⟩ := hp.exists_simplify hproper
    refine ⟨simplified, hok, fun out hfirings hrest => ?_⟩
    -- both are the tokens of the normal form
    have hbare : out.map Token.bare = simplified.map Token.bare :=
      (map_bare_of_atRest hfirings hrest hp hproper).trans
        (map_bare_of_atRest hrun hend hp hproper).symm
    have hforget := congrArg (List.map fun t => (t.kind, t.text)) hbare
    rwa [List.map_map, List.map_map] at hforget

/-- In `x*1+0` the zero can go first, and then the one. What is left is the result of
simplification, where the one goes first. -/
theorem simplify_confluent_backwards :
    let x : Token := ⟨.variable, "x", 0⟩
    let product : List Token := [x, ⟨.operator, "*", 1⟩, ⟨.number, "1", 2⟩]
    let ts : List Token := product ++ [⟨.operator, "+", 3⟩, ⟨.number, "0", 4⟩]
    validate ts = [] ∧ Arithmetic ts ∧ leadingSigns true ts = 0 ∧ ts.IsChain NotByZero ∧
      Fires ts product ∧ Fires product [x] ∧ AtRest [x] ∧
      ∃ simplified, simplify ts = .ok simplified ∧
        ([x].map fun t => (t.kind, t.text)) = simplified.map fun t => (t.kind, t.text) := by
  intro x product ts
  have hvalid : validate ts = [] := by decide +kernel
  have harith : Arithmetic ts := by decide +kernel
  have hsigns : leadingSigns true ts = 0 := by decide +kernel
  have hdivisors : ts.IsChain NotByZero := by decide +kernel
  have hfirst : Fires ts product := ⟨4, _, _, rfl, rfl, rfl⟩
  have hsecond : Fires product [x] := ⟨2, _, _, rfl, rfl, rfl⟩
  have hrest : AtRest [x] := atRest_of_nextEdit rfl
  obtain ⟨simplified, hok, hall⟩ := simplify_confluent hvalid harith hsigns hdivisors
  exact ⟨hvalid, harith, hsigns, hdivisors, hfirst, hsecond, hrest, simplified, hok,
    hall [x] ((Relation.ReflTransGen.single hfirst).tail hsecond) hrest⟩

end Formula
