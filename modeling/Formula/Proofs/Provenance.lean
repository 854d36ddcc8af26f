import Mathlib.Data.List.Nodup
import Formula.Proofs.Outcome
import Formula.Proofs.Separation
import Formula.Proofs.WellFormed

/-!
# Where simplified tokens come from

Every token of a simplified formula can be traced to the text (`simplify_traceable`). It was read
there (`Origin.read`), or it is the zero that a leading sign got (`Origin.zero`), or it is the one
that took the place of a power with a zero exponent (`Origin.one`). What is put in has the place of
a token that was read, and the places never decrease; only a sign and its zero share one.

A single edit keeps this up (`Traced.apply`), but not by itself. If a zero that was put in could
become an exponent, the one put in for it would share its place with a sign, and if a sign could
come to lead later on, its zero would have the place of a token that did not lead in the text. So
two more things are kept up. A sign that leads did so in the text, since no edit leaves a sign
behind a bracket that did not stand there before (`Cursor.Leaves.not_leads`). And a zero that was
put in stays in leading position, so that no operator comes to stand in front of it.
-/

namespace Formula

/-! ### Leading places -/

/-- What stands in front of a place makes it a leading one: nothing, or an opening bracket. -/
def Leads (front : List Token) : Prop :=
  front.getLast?.all Token.isOpen

/-- A sign that stands first in the list or directly behind an opening bracket. -/
def LeadingSign (ts : List Token) (s : Token) : Prop :=
  ∃ front back, ts = front ++ s :: back ∧ s.isSign ∧ Leads front

theorem leads_concat {front : List Token} {t : Token} : Leads (front ++ [t]) ↔ t.isOpen := by
  simp [Leads]

/-- Only the last token in front matters. -/
theorem leads_append_cons {front mid : List Token} {t : Token} :
    Leads (front ++ t :: mid) ↔ Leads (t :: mid) := by
  rw [Leads, Leads, List.getLast?_append_cons]

theorem Cursor.leads_iff {c : Cursor} : Leads c.before.reverse ↔ c.isLeading := by
  rw [Leads, List.getLast?_reverse, isLeading]

/-- Behind what an edit removes, no place is a leading one. -/
theorem not_leads_of_behind {front removed : List Token}
    (h : ∀ p : Footing, p.behind removed = .inner) : ¬ Leads (front ++ removed) := by
  rcases List.eq_nil_or_concat' removed with rfl | ⟨ts, t, rfl⟩
  · simpa using h .leading
  · have hlast := h .inner
    rw [← List.append_assoc, leads_concat]
    intro hopen
    simp [Footing.next, hopen] at hlast

/-- An operator that leads in an expression is a sign. -/
theorem Grammar.Derives.isSign_of_leads {G : Grammar} {n : Nonterminal} {front back : List Token}
    {o : Token} (h : G.Derives n (front ++ o :: back)) (ho : o.kind = .operator)
    (hlead : Leads front) : o.isSign := by
  have hstart : ¬ o.startsAtom := by
    simp [Token.startsAtom, Token.isOperandLike, Token.isOperand, Token.isOpen, ho]
  rcases List.eq_nil_or_concat' front with rfl | ⟨ts, b, rfl⟩
  · obtain ⟨t, us, hcons, ht | ⟨-, hsign⟩⟩ := h.exists_cons
    · obtain ⟨rfl, -⟩ := List.cons.inj hcons
      exact absurd ht hstart
    · obtain ⟨rfl, -⟩ := List.cons.inj hcons
      exact G.isSign_of_sign hsign
  · have hplaced := h.wellPlaced
    rw [List.append_assoc] at hplaced
    have hnext : b.allowsNext o := (List.isChain_cons_cons.1 hplaced.of_append.next).1
    rw [Token.allowsNext, Token.kind_of_isOpen (leads_concat.1 hlead)] at hnext
    exact hnext.resolve_left hstart

/-! ### What an edit leaves -/

namespace Cursor

variable {c : Cursor} {e : Edit}

theorem not_isLeading_of_isPrecededBy {ops : List String} (h : c.isPrecededBy ops) :
    ¬ c.isLeading := by
  obtain ⟨o, bs, hbefore, ho⟩ := exists_of_isPrecededBy h
  simpa [isLeading, hbefore] using Token.not_isOpen_of_operator (Token.kind_of_isOperatorIn ho)

/-- A term does not reach in front of a leading place. -/
theorem termTail_of_isLeading (h : c.isLeading) :
    Extent.termTail .leftward c.before = some 0 := by
  cases hbefore : c.before with
  | nil => simp [Extent.termTail, Extent.powerTail, Scan.andThen, Scan.links]
  | cons b bs =>
    have hopen : b.isOpen := by simpa [isLeading, hbefore] using h
    have hnot (ops : List String) : b.isOperatorIn ops = false := by
      simp [Token.isOperatorIn, Token.kind_of_isOpen hopen]
    simp [Extent.termTail, Extent.powerTail, Scan.andThen, Scan.links, hnot]

/-- **What takes the place of the tokens that an edit removes**, unless it is one for a sign: the
token at the cursor, or a one for the power that has it as its exponent, or nothing for that token
and an operator beside it. -/
inductive Leaves (c : Cursor) (e : Edit) : Prop
  | focus (hinsert : e.insert = some c.focus) (hahead : 0 < e.ahead)
      (hback : c.isLeading → e.back = 0)
  | one (hzero : c.focus.isNumber "0") (hpower : c.isPrecededBy ["^"])
      (hinsert : e.insert = some (c.literal "1")) (hahead : 0 < e.ahead)
  | before {ops : List String} (hop : c.isPrecededBy ops) (hback : e.back = 1)
      (hinsert : e.insert = none)
  | behind {ops : List String} (hop : c.isFollowedBy ops) (hback : e.back = 0)
      (hahead : e.ahead = 2) (hinsert : e.insert = none)

theorem Calls.leaves (h : c.Calls e) (hnumber : c.focus.kind = .number) : c.Leaves e := by
  cases h with
  | unarySign hsign => simp [Token.kind_of_isSign hsign] at hnumber
  | zeroExponent hzero hop => exact .one hzero hop rfl Nat.one_pos
  | zeroPower => exact .focus rfl (Nat.succ_pos 2) fun _ => rfl
  | @zeroFactor back ahead _ _ _ _ hterm =>
    obtain ⟨hback, -⟩ := term_eq_some_iff.1 hterm
    refine .focus rfl (Nat.add_pos_left Nat.one_pos ahead) fun hlead => ?_
    rw [termTail_of_isLeading hlead] at hback
    exact (Option.some.inj hback).symm
  | @powerOfOne n => exact .focus rfl (Nat.add_pos_left Nat.two_pos n) fun _ => rfl
  | summandRight _ _ _ hop | exponentOne _ hop | factorRight _ _ hop => exact .before hop rfl rfl
  | summandLeft _ _ _ _ hop | factorLeft _ _ _ hop => exact .behind hop rfl rfl rfl

theorem Leaves.number (h : c.Leaves e) (hnumber : c.focus.kind = .number) :
    ∀ u ∈ e.insert, u.kind = .number := by
  cases h <;> simp [*, literal]

theorem focus_mem_removed (h : 0 < e.ahead) : c.focus ∈ c.removed e := by
  obtain ⟨n, hn⟩ := Nat.exists_eq_succ_of_ne_zero h.ne'
  simp [removed, hn]

/-- **No sign comes to lead** when an edit puts in nothing. An operator that goes together with the
operand behind it does not lead, and no sign stands behind one that goes together with the operand
in front. -/
theorem Leaves.not_leads {G : Grammar} {n : Nonterminal} {s : Token} (h : c.Leaves e)
    (hlist : G.Derives n c.toList) (hsign : c.BehindNoSign) (hinsert : e.insert = none)
    (hs : s ∈ ((c.focus :: c.after).drop e.ahead).head?) (hkind : s.isSign) :
    ¬ Leads (c.before.drop e.back).reverse := by
  cases h with
  | focus hsome => simp [hsome] at hinsert
  | one _ _ hsome => simp [hsome] at hinsert
  | before hop hback =>
    obtain ⟨o, bs, hbefore, ho⟩ := exists_of_isPrecededBy hop
    have hsplit : c.toList = bs.reverse ++ o :: (c.focus :: c.after) := by
      simp [toList, hbefore]
    rw [hback, hbefore, List.drop_one, List.tail_cons]
    intro hlead
    -- the operator would be a leading sign, which has its edit before the one here
    have hosign := (hsplit ▸ hlist).isSign_of_leads (Token.kind_of_isOperatorIn ho) hlead
    rw [Leads, List.getLast?_reverse] at hlead
    exact hsign o bs hbefore hosign hlead
  | behind hop hback hahead =>
    obtain ⟨o, us, hafter, ho⟩ := exists_of_isFollowedBy hop
    obtain ⟨vs, rfl⟩ : ∃ vs, us = s :: vs := by
      rw [hahead, hafter] at hs
      exact List.head?_eq_some_iff.1 hs
    have hplaced := hlist.wellPlaced
    rw [toList, hafter] at hplaced
    -- an accepted formula has no sign behind an operator
    have hnext : o.allowsNext s := (List.isChain_cons_cons.1 hplaced.of_append.tail.next).1
    rw [Token.allowsNext, Token.kind_of_isOperatorIn ho] at hnext
    simp [Token.startsAtom, Token.isOperandLike, Token.isOperand, Token.isOpen,
      Token.kind_of_isSign hkind] at hnext

end Cursor

/-! ### Origins and places -/

/-- The zero that a sign gets. -/
def Token.zeroBefore (s : Token) : Token :=
  ⟨.number, "0", s.position⟩

/-- **Where a token comes from**, after some edits of a list: it is in that list, or it is the zero
that was put in for a leading sign of it, or the one that was put in for a zero of it when that had
`^` in front. -/
inductive Origin (ts : List Token) (edits : List (Cursor × Edit)) : Token → Prop
  | read {u : Token} (h : u ∈ ts) : Origin ts edits u
  | zero {c : Cursor} {e : Edit} (hsign : LeadingSign ts c.focus) (hedit : (c, e) ∈ edits)
      (hinsert : e.insert = some c.focus.zeroBefore) : Origin ts edits c.focus.zeroBefore
  | one {c : Cursor} {e : Edit} (hread : c.focus ∈ ts) (hzero : c.focus.isNumber "0")
      (hpower : c.isPrecededBy ["^"]) (hedit : (c, e) ∈ edits)
      (hinsert : e.insert = some (c.literal "1")) : Origin ts edits (c.literal "1")

/-- The place increases from one token to another, unless these are a leading sign and its zero. -/
def Precedes (ts : List Token) (t u : Token) : Prop :=
  t.position < u.position ∨ t = u.zeroBefore ∧ LeadingSign ts u

/-- The token has the place of a leading sign. -/
def SharesSign (ts : List Token) (t : Token) : Prop :=
  ∃ s, LeadingSign ts s ∧ s.position = t.position

section Places

variable {ts : List Token} {edits : List (Cursor × Edit)} {t u : Token}

theorem LeadingSign.mem (h : LeadingSign ts u) : u ∈ ts := by
  obtain ⟨front, back, rfl, -⟩ := h
  simp

theorem LeadingSign.kind_eq (h : LeadingSign ts u) : u.kind = .operator := by
  obtain ⟨-, -, -, hsign, -⟩ := h
  exact Token.kind_of_isSign hsign

theorem Precedes.position_le (h : Precedes ts t u) : t.position ≤ u.position := by
  rcases h with h | ⟨rfl, -⟩
  · exact h.le
  · exact le_rfl

/-- Only a number shares its place with a token further on. -/
theorem Precedes.lt_of_kind (h : Precedes ts t u) (ht : t.kind ≠ .number) :
    t.position < u.position := by
  rcases h with h | ⟨rfl, -⟩
  · exact h
  · exact absurd rfl ht

/-- It does so only with a sign. -/
theorem Precedes.lt_of_number (h : Precedes ts t u) (hu : u.kind = .number) :
    t.position < u.position := by
  rcases h with h | ⟨-, hsign⟩
  · exact h
  · simp [hsign.kind_eq] at hu

/-- All that stands in front of a leading place is in front of what stands there. -/
theorem position_lt_of_leads {front back : List Token}
    (h : (front ++ u :: back).Pairwise (Precedes ts)) (hlead : Leads front) (ht : t ∈ front) :
    t.position < u.position := by
  rcases List.eq_nil_or_concat' front with rfl | ⟨us, b, rfl⟩
  · simp at ht
  · have hb : b.kind ≠ .number := by simp [Token.kind_of_isOpen (leads_concat.1 hlead)]
    rw [List.append_assoc, List.singleton_append, List.pairwise_append] at h
    obtain ⟨-, hback, hseam⟩ := h
    have hlt : b.position < u.position :=
      (List.rel_of_pairwise_cons hback List.mem_cons_self).lt_of_kind hb
    rcases List.mem_append.1 ht with ht | ht
    · exact (hseam t ht b List.mem_cons_self).position_le.trans_lt hlt
    · obtain rfl := List.mem_singleton.1 ht
      exact hlt

/-- A number that does not have the place of a sign can be exchanged for another token there. -/
theorem pairwise_replace {front back : List Token}
    (h : (front ++ [t] ++ back).Pairwise (Precedes ts)) (ht : t.kind = .number)
    (hnot : ¬ SharesSign ts t) (hu : u.position = t.position) :
    (front ++ [u] ++ back).Pairwise (Precedes ts) := by
  simp only [List.append_assoc, List.singleton_append, List.pairwise_append, List.pairwise_cons,
    List.forall_mem_cons] at h ⊢
  obtain ⟨hfront, ⟨hback, hrest⟩, hseam⟩ := h
  refine ⟨hfront, ⟨fun v hv => .inl ?_, hrest⟩, fun v hv => ⟨.inl ?_, (hseam v hv).2⟩⟩
  · rcases hback v hv with hlt | ⟨rfl, hsign⟩
    · rwa [hu]
    · exact absurd ⟨v, hsign, rfl⟩ hnot
  · rw [hu]
    exact (hseam v hv).1.lt_of_number ht

/-- A zero that does not have the place of a sign was read. -/
theorem Origin.mem_of_not_sharesSign (h : Origin ts edits t) (hzero : t.isNumber "0")
    (hnot : ¬ SharesSign ts t) : t ∈ ts := by
  cases h with
  | read h => exact h
  | zero hsign => exact absurd ⟨_, hsign, rfl⟩ hnot
  | one => simp [Cursor.literal, Token.isNumber] at hzero

end Places

/-! ### What edits keep up -/

/-- **A list that can be traced** to the list `ts`, which it has come from by the edits. -/
structure Traced (ts : List Token) (edits : List (Cursor × Edit)) (us : List Token) : Prop where
  ordered : us.Pairwise (Precedes ts)
  origin : ∀ u ∈ us, Origin ts edits u
  /-- No sign has come to lead. -/
  signs : ∀ front s back, us = front ++ s :: back → s.isSign → Leads front → LeadingSign ts s
  /-- The zeros of signs still lead. -/
  zeros : ∀ front z back, us = front ++ z :: back → z.kind = .number → SharesSign ts z →
    Leads front

/-- A token of the new list has been put in, or else it was there before and leads now exactly if it
did then, unless it is the first one behind what was replaced. -/
theorem exists_of_splice {front rest xs ys : List Token} {inserted : Option Token} {t : Token}
    (removed : List Token) (h : front ++ inserted.toList ++ rest = xs ++ t :: ys) :
    (inserted = some t ∧ xs = front) ∨
      ∃ xs' ys', front ++ removed ++ rest = xs' ++ t :: ys' ∧
        ((Leads xs ↔ Leads xs') ∨
          t ∈ rest.head? ∧ xs = front ++ inserted.toList ∧ xs' = front ++ removed) := by
  rcases append_eq_append_cons h with ⟨vs, hfront, -⟩ | ⟨vs, rfl, rfl⟩
  · -- in front of what was replaced, or put in for it
    rcases append_eq_append_cons hfront with ⟨ws, rfl, -⟩ | ⟨ws, rfl, hinserted⟩
    · exact .inr ⟨xs, ws ++ removed ++ rest, by simp, .inl .rfl⟩
    · left
      cases inserted with
      | none => simp at hinserted
      | some u => cases ws <;> simp_all
  · -- behind it, where the token directly in front is the same unless it is the first one
    right
    refine ⟨front ++ removed ++ vs, ys, by simp, ?_⟩
    cases vs with
    | nil => exact .inr ⟨rfl, by simp, by simp⟩
    | cons v vs => exact .inl (leads_append_cons.trans leads_append_cons.symm)

namespace Traced

variable {ts : List Token} {edits : List (Cursor × Edit)}

/-- **Tokens are replaced** by at most one number. Only at the seam can something change: what is
put in has to lead if it has the place of a sign, no sign may come to lead behind it, and no zero
that leads may stand behind what is removed. -/
theorem splice {front removed rest : List Token} {inserted : Option Token}
    (h : Traced ts edits (front ++ removed ++ rest))
    (hordered : (front ++ inserted.toList ++ rest).Pairwise (Precedes ts))
    (horigin : ∀ u ∈ inserted, Origin ts edits u) (hnumber : ∀ u ∈ inserted, u.kind = .number)
    (hleads : ∀ u ∈ inserted, SharesSign ts u → Leads front)
    (hsign : inserted = none → ∀ s ∈ rest.head?, s.isSign → ¬ Leads front)
    (hzero : ∀ z ∈ rest.head?, z.kind = .number → ¬ Leads (front ++ removed)) :
    Traced ts edits (front ++ inserted.toList ++ rest) := by
  refine ⟨hordered, fun u hu => ?_, fun xs s ys hsplit hs hlead => ?_,
    fun xs z ys hsplit hz hshares => ?_⟩
  · -- every token of the new list is an old one or the inserted one
    simp only [List.mem_append, Option.mem_toList] at hu
    rcases hu with (hu | hu) | hu
    · exact h.origin u (by simp [hu])
    · exact horigin u hu
    · exact h.origin u (by simp [hu])
  · -- a sign that leads in the new list did so in the old one, or now stands at the seam
    rcases exists_of_splice removed hsplit with
      ⟨hs', -⟩ | ⟨xs', ys', hold, hiff | ⟨hhead, rfl, -⟩⟩
    · have := hnumber s hs'
      simp [Token.kind_of_isSign hs] at this
    · exact h.signs xs' s ys' hold hs (hiff.1 hlead)
    · cases inserted with
      | none => exact absurd (by simpa using hlead) (hsign rfl s hhead hs)
      | some u => exact absurd (leads_concat.1 hlead) (Token.not_isOpen_of_number (hnumber u rfl))
  · -- the zero of a sign stands where it stood, or it was the inserted one or came to the seam
    rcases exists_of_splice removed hsplit with
      ⟨hz', rfl⟩ | ⟨xs', ys', hold, hiff | ⟨hhead, -, rfl⟩⟩
    · exact hleads z hz' hshares
    · exact hiff.2 (h.zeros xs' z ys' hold hz hshares)
    · exact absurd (h.zeros _ z ys' hold hz hshares) (hzero z hhead hz)

variable {c : Cursor} {e : Edit}

/-- A number with the place of a sign leads. -/
theorem isLeading_of_sharesSign (h : Traced ts edits c.toList) (hkind : c.focus.kind = .number)
    (hshares : SharesSign ts c.focus) : c.isLeading :=
  Cursor.leads_iff.1 (h.zeros c.before.reverse c.focus c.after rfl hkind hshares)

/-- **A zero for a sign.** It gets the place of the sign, which no token in front has. -/
theorem apply_signEdit (h : Traced ts edits c.toList) (hsign : c.focus.isSign)
    (hlead : c.isLeading) (hedit : (c, ⟨.unarySign, 0, 0, some (c.literal "0")⟩) ∈ edits) :
    Traced ts edits (c.apply ⟨.unarySign, 0, 0, some (c.literal "0")⟩) := by
  have hkind := Token.kind_of_isSign hsign
  have hleads := Cursor.leads_iff.2 hlead
  have hleading : LeadingSign ts c.focus := h.signs _ _ _ rfl hsign hleads
  obtain ⟨hbefore, hafter, hseam⟩ := List.pairwise_append.1 h.ordered
  -- the sign is the only token that its zero shares a place with
  have hzero : ∀ u ∈ c.focus :: c.after, Precedes ts c.focus.zeroBefore u := by
    intro u hu
    rcases List.mem_cons.1 hu with rfl | hu
    · exact .inr ⟨rfl, hleading⟩
    · have hlt := (List.rel_of_pairwise_cons hafter hu).lt_of_kind (by simp [hkind])
      exact .inl hlt
  have hordered : (c.before.reverse ++ (some (c.literal "0")).toList ++
      (c.focus :: c.after)).Pairwise (Precedes ts) := by
    rw [Option.toList_some, List.append_assoc, List.pairwise_append]
    refine ⟨hbefore, List.pairwise_cons.2 ⟨hzero, hafter⟩, fun t ht u hu => ?_⟩
    rcases List.mem_cons.1 hu with rfl | hu
    · exact .inl (position_lt_of_leads (u := c.focus) h.ordered hleads ht)
    · exact hseam t ht u hu
  -- nothing is removed: the zero goes in front of the sign
  have hlist : c.toList = c.before.reverse ++ [] ++ (c.focus :: c.after) := by
    rw [List.append_nil, Cursor.toList]
  refine splice (hlist ▸ h) hordered ?_ ?_ (fun _ _ _ => hleads) (by simp) (by simp [hkind])
  · rintro u ⟨⟩
    exact .zero hleading hedit rfl
  · simp [Cursor.literal]

/-- Behind an operator no number has the place of a sign. -/
theorem not_sharesSign {ops : List String} (h : Traced ts edits c.toList)
    (hkind : c.focus.kind = .number) (hop : c.isPrecededBy ops) : ¬ SharesSign ts c.focus :=
  mt (h.isLeading_of_sharesSign hkind) (Cursor.not_isLeading_of_isPrecededBy hop)

/-- What a shortening edit puts in has the place of a token that it removes. -/
theorem ordered_apply (h : Traced ts edits c.toList) (hkind : c.focus.kind = .number)
    (hleaves : c.Leaves e) : (c.apply e).Pairwise (Precedes ts) := by
  have hordered := h.ordered
  rw [c.toList_eq e] at hordered
  -- the token at the cursor alone, in place of all that is removed
  have hfocus (hahead : 0 < e.ahead) : ((c.before.drop e.back).reverse ++ [c.focus] ++
      (c.focus :: c.after).drop e.ahead).Pairwise (Precedes ts) :=
    have hremoved := List.singleton_sublist.2 (Cursor.focus_mem_removed hahead)
    hordered.sublist ((hremoved.append_left _).append_right _)
  rw [Cursor.apply]
  cases hleaves with
  | focus hinsert hahead =>
    rw [hinsert]
    exact hfocus hahead
  | one _ hpower hinsert hahead =>
    rw [hinsert]
    exact pairwise_replace (hfocus hahead) hkind (h.not_sharesSign hkind hpower) rfl
  | before _ _ hinsert | behind _ _ _ hinsert =>
    rw [hinsert]
    exact hordered.sublist (((List.nil_sublist _).append_left _).append_right _)

/-- It is a token of the list, or the one for a zero that was read. -/
theorem origin_of_insert (h : Traced ts edits c.toList) (hkind : c.focus.kind = .number)
    (hleaves : c.Leaves e) (hedit : (c, e) ∈ edits) : ∀ u ∈ e.insert, Origin ts edits u := by
  have hfocus : Origin ts edits c.focus := h.origin c.focus (by simp [Cursor.toList])
  cases hleaves with
  | focus hinsert => simpa [hinsert] using hfocus
  | one hzero hpower hinsert =>
    have hread := hfocus.mem_of_not_sharesSign hzero (h.not_sharesSign hkind hpower)
    simpa [hinsert] using Origin.one hread hzero hpower hedit hinsert
  | before _ _ hinsert | behind _ _ _ hinsert => simp [hinsert]

/-- If it has the place of a sign, it leads as the token at the cursor did. -/
theorem leads_of_insert (h : Traced ts edits c.toList) (hkind : c.focus.kind = .number)
    (hleaves : c.Leaves e) :
    ∀ u ∈ e.insert, SharesSign ts u → Leads (c.before.drop e.back).reverse := by
  cases hleaves with
  | focus hinsert _ hback =>
    rw [hinsert]
    rintro u ⟨⟩ hshares
    have hlead := h.isLeading_of_sharesSign hkind hshares
    rw [hback hlead, List.drop_zero]
    exact Cursor.leads_iff.2 hlead
  | one _ hpower hinsert =>
    rw [hinsert]
    rintro u ⟨⟩ hshares
    exact absurd hshares (h.not_sharesSign hkind hpower)
  | before _ _ hinsert | behind _ _ _ hinsert => simp [hinsert]

/-- **One edit.** It is one of those by which the list comes from `ts`. -/
theorem apply {p : Phrase} (h : Traced ts edits c.toList) (hp : p.Reads c.toList)
    (hsign : c.BehindNoSign) (hedit : c.edit? = some e) (hmem : (c, e) ∈ edits) :
    Traced ts edits (c.apply e) := by
  have hcalls := Cursor.calls_of_edit? hedit
  rcases hcalls.sign_or_number with ⟨hfocus, hlead, rfl⟩ | ⟨hkind, -⟩
  · exact h.apply_signEdit hfocus hlead hmem
  · obtain ⟨hbinds, htokens⟩ := hp
    have hlist := htokens ▸ hbinds.derives_arithmetic
    have hleaves := hcalls.leaves hkind
    exact splice (c.toList_eq e ▸ h) (h.ordered_apply hkind hleaves)
      (h.origin_of_insert hkind hleaves hmem) (hleaves.number hkind)
      (h.leads_of_insert hkind hleaves)
      (fun hnone _ hs => hleaves.not_leads hlist hsign hnone hs)
      (fun _ _ _ => not_leads_of_behind (hcalls.behind_removed hkind))

end Traced

/-- **A whole trace.** What can be traced can still be after any number of leftmost edits. -/
theorem Trace.traced {ts us vs : List Token} {edits steps : List (Cursor × Edit)} {p : Phrase}
    (h : Trace us steps vs) (hp : p.Reads us) (hsteps : ∀ step ∈ steps, step ∈ edits)
    (htraced : Traced ts edits us) : Traced ts edits vs := by
  -- that the edits are the leftmost ones keeps signs without their zeros from the cursors
  induction h generalizing p with
  | nil => exact htraced
  | cons hnext _ ih =>
    obtain ⟨hstep, hsteps⟩ := List.forall_mem_cons.1 hsteps
    obtain ⟨q, hq⟩ := exists_reads_of_nextEdit hp hnext
    have hsign := behindNoSign_of_nextEdit hnext
    obtain ⟨rfl, hedit⟩ := nextEdit_eq_some hnext
    exact ih hq hsteps (htraced.apply hp hsign hedit hstep)

/-! ### From the text on -/

section Text

variable {ts : List Token}

/-- **The places of the tokens** that are read from a text increase. -/
theorem increasing_of_tokenize {s : String} (h : (tokenize s).errors = []) :
    (tokenize s).tokens.Pairwise fun t u => t.position < u.position := by
  have htable : Represents (Lexer.mk builtinTable (Text.trim s.toList) 0).table builtinLexemes :=
    represents_trie builtinLexemes
  have hplaces := (Lexer.cut_items htable).increasing
  rwa [items_of_tokenize h, List.pairwise_map] at hplaces

/-- No two tokens share a place. -/
theorem eq_of_position_eq (h : ts.Pairwise fun t u => t.position < u.position) {t u : Token}
    (ht : t ∈ ts) (hu : u ∈ ts) (hplace : t.position = u.position) : t = u := by
  have hnodup : (ts.map Token.position).Nodup := List.pairwise_map.2 (h.imp Nat.ne_of_lt)
  exact List.inj_on_of_nodup_map hnodup ht hu hplace

/-- Such a list can be traced to itself. -/
theorem Traced.start (h : ts.Pairwise fun t u => t.position < u.position)
    (edits : List (Cursor × Edit)) : Traced ts edits ts := by
  refine ⟨h.imp .inl, fun u hu => .read hu, fun front s back hsplit hs hlead =>
    ⟨front, back, hsplit, hs, hlead⟩, fun front z back hsplit hz => ?_⟩
  -- in the text nothing has the place of a sign but the sign itself
  rintro ⟨s, hs, hplace⟩
  obtain rfl := eq_of_position_eq h hs.mem (by simp [hsplit]) hplace
  simp [hs.kind_eq] at hz

end Text

/-- **Simplified tokens can be traced to the text.** Their places do not decrease, and neighbours
share one only if they are a zero that was put in and its sign, which led in the text. A token was
read, or is such a zero, or is a one that took the place of a power when a zero that was read was
its exponent. -/
theorem simplify_traceable {s : String} {out : List Token} (hclean : (diagnose s).2.isEmpty)
    (hok : simplify (tokenize s).tokens = .ok out) :
    let ts := (tokenize s).tokens
    out.Pairwise (fun t u => t.position ≤ u.position) ∧
      (∀ front t u back, out = front ++ t :: u :: back → t.position = u.position →
        t ∉ ts ∧ t = u.zeroBefore ∧ LeadingSign ts u) ∧
      ∀ u ∈ out, Origin ts (run ts).edits u := by
  intro ts
  obtain ⟨hne, hvalid, harith⟩ := accepted_of_isEmpty hclean
  have herrors : (tokenize s).errors = [] := by
    simp only [diagnose, Diagnostics.isEmpty, Bool.and_eq_true, List.isEmpty_iff] at hclean
    exact hclean.1
  have hplaces : ts.Pairwise fun t u => t.position < u.position := increasing_of_tokenize herrors
  obtain ⟨p, hp⟩ := exists_reads hne hvalid harith
  -- the run only makes edits that keep what `Traced` says
  obtain ⟨us, htrace, ⟨error, -, herror⟩ | ⟨-, -, hus⟩⟩ := exists_trace_run ts
  · simp [ts, hok] at herror
  obtain rfl : out = us := Except.ok.inj (hok.symm.trans hus)
  have htraced := htrace.traced hp (fun _ hstep => hstep) (.start hplaces (run ts).edits)
  refine ⟨htraced.ordered.imp Precedes.position_le, fun front t u back hsplit hplace => ?_,
    htraced.origin⟩
  -- two neighbours at one place can only be a sign and its zero
  have hordered := htraced.ordered
  rw [hsplit, List.pairwise_append] at hordered
  have htu : Precedes ts t u := List.rel_of_pairwise_cons hordered.2.1 List.mem_cons_self
  rcases htu with hlt | ⟨rfl, hsign⟩
  · exact absurd hplace hlt.ne
  · refine ⟨fun hread => ?_, rfl, hsign⟩
    -- the sign itself is all that was read there
    have heq := eq_of_position_eq hplaces hread hsign.mem hplace
    have hkind := hsign.kind_eq
    rw [← heq] at hkind
    simp [Token.zeroBefore] at hkind

/-- In `-x^0+(-y)` both signs get their zeros, and a one takes the place of the power. -/
theorem simplify_traceable_signed :
    let ts := (tokenize "-x^0+(-y)").tokens
    let out : List Token := [⟨.number, "0", 0⟩, ⟨.operator, "-", 0⟩, ⟨.number, "1", 3⟩,
      ⟨.operator, "+", 4⟩, ⟨.openBracket, "(", 5⟩, ⟨.number, "0", 6⟩, ⟨.operator, "-", 6⟩,
      ⟨.variable, "y", 7⟩, ⟨.closeBracket, ")", 8⟩]
    (diagnose "-x^0+(-y)").2.isEmpty ∧ simplify ts = .ok out ∧
      out.Pairwise (fun t u => t.position ≤ u.position) ∧
      LeadingSign ts ⟨.operator, "-", 6⟩ ∧ ⟨.number, "0", 6⟩ ∉ ts ∧
      Origin ts (run ts).edits ⟨.number, "1", 3⟩ := by
  intro ts out
  have hclean : (diagnose "-x^0+(-y)").2.isEmpty := by decide +kernel
  have hok : simplify ts = .ok out := simplify_eq_ok_of_toOption (by decide +kernel)
  obtain ⟨hplaces, hshared, horigin⟩ := simplify_traceable hclean hok
  obtain ⟨hnew, -, hsign⟩ := hshared (out.take 5) ⟨.number, "0", 6⟩ ⟨.operator, "-", 6⟩
    (out.drop 7) rfl rfl
  exact ⟨hclean, hok, hplaces, hsign, hnew, horigin _ (by decide +kernel)⟩

end Formula
