import Formula.Proofs.Firing
import Formula.Proofs.Termination

/-!
# Simplification keeps to expressions

What can be read stays so, one leftmost edit after the other, whether divisions by zero are looked
for in between or not (`trace_wellFormed`). That a list can be read is the same as that it is not
reported and has no other operators than those of arithmetic (`exists_reads_iff`).

An edit rewrites the reading unless it is called for by a divisor zero (`Cursor.edit?_rewrites`). At
a divisor zero the tokens that are left need not be worth what they were, but they can be read
again: a power of zero is still one atom, a term is still one term, and what is left without a
summand `0 +` has one operator in place of two (`validate_cut`).
-/

namespace Formula

open Context

/-! ### What can be read -/

/-- The operators of a phrase are those of arithmetic. -/
theorem Phrase.Binds.arithmetic {p : Phrase} {n : Nat} (h : p.Binds n) : Arithmetic p.tokens := by
  induction h with
  | @operand t n ht =>
    intro u hu hkind
    obtain rfl : u = t := by simpa [tokens] using hu
    rcases Token.kind_of_isOperand ht with h | h <;> simp [h] at hkind
  | @region b p n hb _ ih =>
    -- an operator inside the region is one of its contents
    intro u hu hkind
    simp only [tokens, List.mem_append] at hu
    rcases hu with (hu | hu) | hu
    · rcases hb.kind_of_mem (.inl hu) with h | h | h <;> simp [h] at hkind
    · exact ih u hu hkind
    · rcases hb.kind_of_mem (.inr hu) with h | h | h <;> simp [h] at hkind
  | @signed s p n _ hs _ ih =>
    exact List.forall_mem_cons.2 ⟨fun _ => Token.isArithmetic_of_joins (k := 1) hs, ih⟩
  | @binary l r o n k _ _ ho _ ihl ihr =>
    exact List.forall_mem_append.2
      ⟨ihl, List.forall_mem_cons.2 ⟨fun _ => Token.isArithmetic_of_joins ho, ihr⟩⟩

/-- **What can be read** is what the structure check accepts, with the operators of arithmetic. -/
theorem exists_reads_iff (ts : List Token) :
    (∃ p : Phrase, p.Reads ts) ↔ ts ≠ [] ∧ validate ts = [] ∧ Arithmetic ts := by
  constructor
  · rintro ⟨p, hbinds, rfl⟩
    obtain ⟨us, t, htokens, -⟩ := hbinds.exists_concat
    exact ⟨by simp [htokens], hbinds.derives_arithmetic.validate_eq_nil, hbinds.arithmetic⟩
  · rintro ⟨hne, hvalid, harith⟩
    exact exists_reads hne hvalid harith

/-! ### Leaving out an operand and an operator -/

theorem unmatched_append_congr {us vs : List Token}
    (h : ∀ pending, unmatched Token.kind pending us = unmatched Token.kind pending vs)
    (xs pending : List Token) :
    unmatched Token.kind pending (xs ++ us) = unmatched Token.kind pending (xs ++ vs) := by
  induction xs generalizing pending with
  | nil => exact h pending
  | cons t xs ih =>
    rw [List.cons_append, List.cons_append, unmatched.eq_def, unmatched.eq_def]
    cases t.kind <;> cases pending <;> simp only [ih]

section Cut

variable {xs ys : List Token} {o z o' : Token}

/-- **Between two operators** an operand can go together with the operator behind it. -/
theorem validate_cut (ho : o.kind = .operator) (hz : z.isOperand) (ho' : o'.kind = .operator)
    (h : validate (xs ++ o :: z :: o' :: ys) = []) : validate (xs ++ o :: ys) = [] := by
  obtain ⟨t, us, vs, hlong, hshort⟩ : ∃ t us vs,
      xs ++ o :: z :: o' :: ys = t :: us ∧ xs ++ o :: ys = t :: vs := by
    cases xs with
    | nil => exact ⟨o, _, _, rfl, rfl⟩
    | cons x xs => exact ⟨x, _, _, rfl, rfl⟩
  rw [hlong, validate_cons_eq_nil_iff, ← hlong] at h
  rw [hshort, validate_cons_eq_nil_iff, ← hshort]
  obtain ⟨hstart, hplaced, hmatch⟩ := h
  refine ⟨hstart, ?_, ?_⟩
  · -- the two operators ask for the same behind them
    have hcut : WellPlaced ((xs ++ [o, z]) ++ o' :: ys) := by simpa using hplaced
    have htail : WellPlaced (o' :: ys) := hcut.of_append
    obtain ⟨u, ys, rfl, hu⟩ := htail.exists_next (Token.not_endsAtom_of_operator ho')
    have hnext : o.allowsNext u := by simpa [Token.allowsNext, ho, ho'] using hu
    obtain ⟨hfront, -, hseam⟩ := List.isChain_append.1 hplaced.next
    refine ⟨List.isChain_append.2 ⟨hfront, ?_, hseam⟩, fun v hv => hplaced.last v ?_⟩
    · exact List.isChain_cons_cons.2 ⟨hnext, htail.tail.next⟩
    · simpa using hv
  · -- neither of the two that go is a bracket
    have hbalanced : Balanced [z, o'] :=
      (Balanced.token (Token.not_isOpen_of_isOperand hz) (Token.not_isClose_of_isOperand hz)).append
        (Grammar.Derives.balanced_of_operator ho')
    have hcut := unmatched_append_congr (fun pending => hbalanced.unmatched pending ys)
      (xs ++ [o]) []
    simpa [hmatch] using hcut.symm

theorem exists_reads_cut {p : Phrase} (hp : p.Reads (xs ++ o :: z :: o' :: ys))
    (ho : o.kind = .operator) (hz : z.isOperand) (ho' : o'.kind = .operator) :
    ∃ q : Phrase, q.Reads (xs ++ o :: ys) := by
  obtain ⟨-, hvalid, harith⟩ := (exists_reads_iff _).1 ⟨p, hp⟩
  refine (exists_reads_iff _).2 ⟨by simp, validate_cut ho hz ho' hvalid, fun t ht => harith t ?_⟩
  simp only [List.mem_append, List.mem_cons] at ht ⊢
  tauto

end Cut

/-! ### An edit at a divisor -/

namespace Cursor

variable {c : Cursor} {e : Edit}

/-- There is only one operator in front. -/
theorem not_isPrecededBy_of_disjoint {ops ops' : List String} (h : c.isPrecededBy ops)
    (hdisjoint : ∀ op ∈ ops, op ∉ ops') : ¬ c.isPrecededBy ops' := by
  intro h'
  obtain ⟨o, bs, hbefore, ho⟩ := exists_of_isPrecededBy h
  rw [isPrecededBy_cons hbefore] at h'
  simp only [Token.isOperatorIn, Bool.and_eq_true, List.contains_iff_mem] at ho h'
  exact hdisjoint _ ho.2 h'.2

/-- What is left of an edit at a divisor zero can be read again. -/
theorem exists_reads_of_divisor {p : Phrase} (hp : p.Reads c.toList) (hz : c.focus.isNumber "0")
    (hdivisor : c.isPrecededBy ["/"]) (he : c.Calls e) : ∃ q : Phrase, q.Reads (c.apply e) := by
  have hc := Token.isOperand_of_isNumber hz
  obtain ⟨C, hC, -⟩ := exists_standsIn hp hc
  have hexponent : ¬ c.isPrecededBy ["^"] := not_isPrecededBy_of_disjoint hdivisor (by simp)
  have hsummand : ¬ c.isPrecededBy ["+", "-"] := not_isPrecededBy_of_disjoint hdivisor (by simp)
  have hone : ¬ c.focus.isNumber "1" := by simp_all [Token.isNumber]
  cases he with
  | unarySign hs => simp [Token.kind_of_isSign hs, Token.isNumber] at hz
  | zeroExponent _ hop => exact absurd hop hexponent
  | zeroPower _ _ hop hliteral =>
    -- a power of zero makes way for its base
    obtain ⟨o, r, E, rfl, ho, hr, hE⟩ := hC.exists_base hop hexponent
    obtain ⟨n, rfl, hn⟩ := hC.exists_literal hr hliteral
    obtain ⟨q, hq, -⟩ := hC.realizes_keepLeft hE hc (.zeroPower hz ho hn)
    exact ⟨q, hq⟩
  | zeroFactor _ _ _ _ hterm =>
    -- the whole term makes way for the zero
    obtain ⟨D, E, -, hE, -, happly⟩ := hC.exists_termAround hterm
    rw [happly]
    exact ⟨_, hE.fill_reads (.operand hc)⟩
  | summandRight _ _ _ hop => exact absurd hop hsummand
  | summandLeft _ _ _ _ hop =>
    -- the zero goes, and with it the operator behind it
    obtain ⟨o, bs, hbefore, ho⟩ := exists_of_isPrecededBy hdivisor
    obtain ⟨o', us, hafter, ho'⟩ := exists_of_isFollowedBy hop
    have hlist : c.toList = bs.reverse ++ o :: c.focus :: o' :: us := by
      simp [toList, hbefore, hafter]
    have happly : c.apply ⟨.identityTerm, 0, 2, none⟩ = bs.reverse ++ o :: us := by
      simp [apply, hbefore, hafter]
    rw [happly]
    exact exists_reads_cut (hlist ▸ hp) (Token.kind_of_isOperatorIn ho) hc
      (Token.kind_of_isOperatorIn ho')
  | exponentOne h | powerOfOne h | factorRight h | factorLeft h => exact absurd h hone

end Cursor

/-! ### Traces keep to expressions -/

/-- **One edit.** What the leftmost edit leaves can be read. -/
theorem exists_reads_of_nextEdit {ts : List Token} {c : Cursor} {e : Edit} {p : Phrase}
    (hp : p.Reads ts) (h : nextEdit ts = some (c, e)) : ∃ q : Phrase, q.Reads (c.apply e) := by
  obtain ⟨rfl, hedit⟩ := nextEdit_eq_some h
  by_cases hdivisor : c.focus.isNumber "0" ∧ c.isPrecededBy ["/"]
  · obtain ⟨hz, hpre⟩ := hdivisor
    exact Cursor.exists_reads_of_divisor hp hz hpre (Cursor.calls_of_edit? hedit)
  · obtain ⟨q, hq, -⟩ := Cursor.edit?_rewrites hp (fun hz hpre => hdivisor ⟨hz, hpre⟩)
      (behindNoSign_of_nextEdit h) hedit
    exact ⟨q, hq⟩

theorem Trace.exists_reads {ts us : List Token} {steps : List (Cursor × Edit)} {p : Phrase}
    (h : Trace ts steps us) (hp : p.Reads ts) : ∃ q : Phrase, q.Reads us := by
  induction h generalizing p with
  | nil => exact ⟨p, hp⟩
  | cons hnext _ ih =>
    obtain ⟨q, hq⟩ := exists_reads_of_nextEdit hp hnext
    exact ih hq

/-- **Simplification keeps to expressions.** Whatever comes of an accepted formula by any number of
leftmost edits is an accepted formula again and is not empty. The result of simplification is one of
these lists, and no sign stands first in it or directly behind an opening bracket. -/
theorem trace_wellFormed {ts : List Token} (hne : ts ≠ []) (hvalid : validate ts = [])
    (harith : Arithmetic ts) :
    (∀ steps us, Trace ts steps us → us ≠ [] ∧ validate us = []) ∧
      ∀ out, simplify ts = .ok out → Trace ts (run ts).edits out ∧
        ∀ front s back, out = front ++ s :: back → s.isSign →
          ∃ t ∈ front.getLast?, ¬ t.isOpen := by
  constructor
  · intro steps us htrace
    obtain ⟨p, hp⟩ := exists_reads hne hvalid harith
    obtain ⟨hne', hvalid', -⟩ := (exists_reads_iff us).1 (htrace.exists_reads hp)
    exact ⟨hne', hvalid'⟩
  · intro out hok
    obtain ⟨us, htrace, ⟨error, -, herror⟩ | ⟨-, hend, hus⟩⟩ := exists_trace_run ts
    · simp [hok] at herror
    obtain rfl : out = us := Except.ok.inj (hok.symm.trans hus)
    refine ⟨htrace, ?_⟩
    rintro front s back rfl hs
    have hsigns : leadingSigns true (front.reverse.reverse ++ s :: back) = 0 := by
      simpa using leadingSigns_eq_zero_of_nextEdit hend
    have hlead := not_leading_of_leadingSigns hsigns hs
    simpa [Option.all_eq_true] using hlead

/-- In `(-0)` the sign gets its zero before the other one is looked at. So the edit at that one
leaves a zero between the brackets, and not nothing. -/
theorem trace_wellFormed_zero :
    let ts := (tokenize "(-0)").tokens
    let out : List Token := [⟨.openBracket, "(", 0⟩, ⟨.number, "0", 1⟩, ⟨.closeBracket, ")", 3⟩]
    ts ≠ [] ∧ validate ts = [] ∧ Arithmetic ts ∧ simplify ts = .ok out ∧
      Trace ts (run ts).edits out ∧ out ≠ [] ∧ validate out = [] := by
  intro ts out
  have hne : ts ≠ [] := by decide +kernel
  have hvalid : validate ts = [] := by decide +kernel
  have harith : Arithmetic ts := by decide +kernel
  have hok : simplify ts = .ok out := simplify_eq_ok_of_toOption (by decide +kernel)
  obtain ⟨hall, hresult⟩ := trace_wellFormed hne hvalid harith
  obtain ⟨htrace, -⟩ := hresult out hok
  exact ⟨hne, hvalid, harith, hok, htrace, hall _ out htrace⟩

end Formula
