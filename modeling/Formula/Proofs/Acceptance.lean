import Formula.Proofs.Grammar
import Formula.Structure
import Mathlib.Data.List.Chain

/-!
# What the structure check accepts

The check of a token list looks at its ends, at neighbours, and at the balance of its brackets.
These looks together are the grammar: `validate` reports nothing exactly if the list is empty or an
expression (`validate_eq_nil_iff_derives`).

The looks at tokens say one thing about each place of the list: what may stand behind the token
there (`Token.allowsNext`), which at the end of the list is nothing (`WellPlaced`). A derivation
keeps to that everywhere, and its brackets nest, so an expression is not reported.

The converse has to find a derivation. `startsWithChain` reads one off from the left, against a
stack of opening brackets that wait for their partner: it takes atoms and operators as long as they
come, and where they stop, either the list is over and nothing waits, or the bracket that waits is
closed (`Stops`). Inside a pair the reading stops at the partner, which is how a bracketed atom is
found without looking for it.
-/

namespace Formula

/-! ### Neighbours -/

/-- Whether `u` may stand directly behind `t`. -/
def Token.allowsNext (t u : Token) : Prop :=
  match t.kind with
  | .number | .variable | .closeBracket => u.kind = .operator ∨ u.isClose
  | .operator => u.startsAtom
  | .openBracket => u.startsAtom ∨ u.isSign
  | .function => u.isOpen

/-- **The nine looks at a pair** amount to one table of what may follow what. -/
theorem pairErrors_eq_nil_iff (t u : Token) : pairErrors t u = [] ↔ t.allowsNext u := by
  simp only [pairErrors, List.append_eq_nil_iff, report_eq_nil_iff, Token.allowsNext]
  cases ht : t.kind <;> cases hu : u.kind <;>
    simp [Token.isOperandLike, Token.isOperand, Token.isOpen, Token.isClose, Token.startsAtom,
      Token.isBinaryOnlyOperator, Token.isSign, Token.isOperatorIn, ht, hu]
  -- what is left is a pair of an opening bracket and an operator
  exact or_iff_not_imp_left.symm

theorem neighbourErrors_eq_nil_iff (ts : List Token) :
    neighbourErrors ts = [] ↔ ts.IsChain Token.allowsNext := by
  induction ts with
  | nil => simp [neighbourErrors]
  | cons t ts ih =>
    cases ts with
    | nil => simp [neighbourErrors]
    | cons u ts =>
      rw [neighbourErrors, List.append_eq_nil_iff, pairErrors_eq_nil_iff, ih,
        List.isChain_cons_cons]

theorem allowsNext_of_endsAtom {t u : Token} (ht : t.endsAtom)
    (hu : u.kind = .operator ∨ u.isClose) : t.allowsNext u := by
  cases hkind : t.kind <;>
    simp_all [Token.endsAtom, Token.isOperand, Token.isClose, Token.allowsNext]

theorem operator_or_close_of_allowsNext {t u : Token} (ht : t.endsAtom) (h : t.allowsNext u) :
    u.kind = .operator ∨ u.isClose := by
  cases hkind : t.kind <;>
    simp_all [Token.endsAtom, Token.isOperand, Token.isClose, Token.allowsNext]

/-- A list in which every token stands where it may, and nothing is missing at the end. -/
structure WellPlaced (ts : List Token) : Prop where
  next : ts.IsChain Token.allowsNext
  last : ∀ t ∈ ts.getLast?, t.endsAtom

namespace WellPlaced

theorem of_append {xs ys : List Token} (h : WellPlaced (xs ++ ys)) : WellPlaced ys := by
  refine ⟨h.next.right_of_append, fun t ht => h.last t ?_⟩
  rw [List.getLast?_append]
  simp_all

theorem tail {t : Token} {ts : List Token} (h : WellPlaced (t :: ts)) : WellPlaced ts := by
  rw [← List.singleton_append] at h
  exact h.of_append

/-- A token that ends no atom has one behind it. -/
theorem exists_next {t : Token} {ts : List Token} (h : WellPlaced (t :: ts))
    (ht : ¬ t.endsAtom) : ∃ u us, ts = u :: us ∧ t.allowsNext u := by
  cases ts with
  | nil => exact absurd (h.last t rfl) ht
  | cons u us => exact ⟨u, us, rfl, (List.isChain_cons_cons.1 h.next).1⟩

end WellPlaced

/-- **The four looks together.** -/
theorem validate_cons_eq_nil_iff (t : Token) (ts : List Token) :
    validate (t :: ts) = [] ↔
      (t.startsAtom ∨ t.isSign) ∧ WellPlaced (t :: ts) ∧
        unmatched Token.kind [] (t :: ts) = ⟨[], []⟩ := by
  -- each look is silent under a condition of its own
  have hstart : startErrors t = [] ↔ t.startsAtom ∨ t.isSign := by
    rw [startErrors, report_eq_nil_iff]
    cases ht : t.kind <;>
      simp [Token.isBinaryOnlyOperator, Token.isSign, Token.isOperatorIn, Token.startsAtom,
        Token.isOperandLike, Token.isOperand, Token.isOpen, Token.isClose, ht]
    exact or_iff_not_imp_left.symm
  have hend (u : Token) : endErrors u = [] ↔ u.endsAtom := by
    rw [endErrors]
    cases hu : u.kind <;> simp [Token.endsAtom, Token.isOperand, Token.isClose, hu]
  have hplaced : endErrors ((t :: ts).getLast (List.cons_ne_nil t ts)) = [] ∧
      neighbourErrors (t :: ts) = [] ↔ WellPlaced (t :: ts) := by
    rw [hend, neighbourErrors_eq_nil_iff]
    constructor
    · rintro ⟨hlast, hnext⟩
      -- `WellPlaced` names the last token by `getLast?`, which suits an empty list
      refine ⟨hnext, fun u hu => ?_⟩
      rw [List.getLast?_eq_some_getLast (List.cons_ne_nil t ts), Option.mem_some_iff] at hu
      exact hu ▸ hlast
    · rintro ⟨hnext, hlast⟩
      exact ⟨hlast _ (List.getLast?_eq_some_getLast (List.cons_ne_nil t ts)), hnext⟩
  have hbalance : balanceErrors (t :: ts) = [] ↔
      unmatched Token.kind [] (t :: ts) = ⟨[], []⟩ := by
    rw [balanceErrors, List.append_eq_nil_iff, List.map_eq_nil_iff, List.map_eq_nil_iff]
    cases unmatched Token.kind [] (t :: ts)
    simp
  rw [validate, List.append_eq_nil_iff, List.append_eq_nil_iff, List.append_eq_nil_iff, hstart,
    hbalance, ← hplaced]
  tauto

/-! ### An expression is not reported -/

theorem Grammar.Derives.endsAtom_of_mem_getLast? {G : Grammar} {n : Nonterminal} {ts : List Token}
    (h : G.Derives n ts) : ∀ t ∈ ts.getLast?, t.endsAtom := by
  obtain ⟨us, t, rfl, ht⟩ := h.exists_concat
  simpa using ht

/-- What stands in a pair of brackets fits to both of them. -/
theorem isChain_pair {G : Grammar} {o c : Token} {ts : List Token} (ho : o.isOpen)
    (hts : G.Derives .expression ts) (hc : c.isClose) (h : ts.IsChain Token.allowsNext) :
    (o :: ts ++ [c]).IsChain Token.allowsNext := by
  obtain ⟨t, us, rfl, ht⟩ := hts.exists_cons
  have ho' := Token.kind_of_isOpen ho
  have hfirst : o.allowsNext t := by
    rw [Token.allowsNext, ho']
    exact ht.imp_right fun hs => G.isSign_of_sign hs.2
  have hlast := hts.endsAtom_of_mem_getLast?
  refine (List.isChain_cons_cons.2 ⟨hfirst, h⟩).append (List.isChain_singleton c) ?_
  intro x hx y hy
  rw [List.getLast?_cons_cons] at hx
  obtain rfl : c = y := by simpa using hy
  exact allowsNext_of_endsAtom (hlast x hx) (.inr hc)

/-- **A derived list is well placed.** -/
theorem Grammar.Derives.wellPlaced {G : Grammar} {n : Nonterminal} {ts : List Token}
    (h : G.Derives n ts) : WellPlaced ts := by
  refine ⟨?_, h.endsAtom_of_mem_getLast?⟩
  induction h with
  | operand => exact List.isChain_singleton _
  | brackets ho hts hc ih => exact isChain_pair ho hts hc ih
  | @call f o c ts hf ho hts hc ih =>
    -- a name asks for nothing but the bracket behind it
    refine List.isChain_cons_cons.2 ⟨?_, isChain_pair ho hts hc ih⟩
    rw [Token.allowsNext, hf]
    exact ho
  | single _ ih => exact ih
  | @link xs ys t hxs ht hys ihxs ihys =>
    have hkind := G.kind_of_operator ht
    obtain ⟨u, us, rfl, hu | ⟨hn, -⟩⟩ := hys.exists_cons
    · -- the atom behind the operator has no sign in front
      have hnext : t.allowsNext u := by
        rw [Token.allowsNext, hkind]
        exact hu
      refine ihxs.append (List.isChain_cons_cons.2 ⟨hnext, ihys⟩) ?_
      intro x hx y hy
      obtain rfl : t = y := by simpa using hy
      exact allowsNext_of_endsAtom (hxs.endsAtom_of_mem_getLast? x hx) (.inl hkind)
    · cases hn
  | bare _ ih => exact ih
  | @signed s ts hs hts ih =>
    -- a chain has no sign in front either, so an atom is what stands behind this one
    obtain ⟨u, us, rfl, hu | ⟨hn, -⟩⟩ := hts.exists_cons
    · refine List.isChain_cons_cons.2 ⟨?_, ih⟩
      rw [Token.allowsNext, Token.kind_of_isSign (G.isSign_of_sign hs)]
      exact hu
    · cases hn

/-- **An expression is not reported.** -/
theorem Grammar.Derives.validate_eq_nil {G : Grammar} {ts : List Token}
    (h : G.Derives .expression ts) : validate ts = [] := by
  have hplaced := h.wellPlaced
  have hbalance : unmatched Token.kind [] ts = ⟨[], []⟩ := by
    simpa [unmatched] using h.balanced.unmatched [] []
  obtain ⟨t, us, rfl, ht⟩ := h.exists_cons
  refine (validate_cons_eq_nil_iff t us).2 ⟨?_, hplaced, hbalance⟩
  exact ht.imp_right fun hs => G.isSign_of_sign hs.2

/-! ### What is not reported is an expression -/

/-- Where the reading of a chain stops: at the end of the list if no bracket waits, or else at the
one that closes the bracket waiting last. -/
inductive Stops : (pending rest : List Token) → Prop
  | finish : Stops [] []
  | close {o c : Token} {pending rest : List Token} (hc : c.isClose)
      (hrest : unmatched Token.kind pending rest = ⟨[], []⟩) : Stops (o :: pending) (c :: rest)

theorem unmatched_of_isOpen {o : Token} (ho : o.isOpen) (pending ts : List Token) :
    unmatched Token.kind pending (o :: ts) = unmatched Token.kind (o :: pending) ts := by
  simp [unmatched, Token.kind_of_isOpen ho]

theorem unmatched_of_not_bracket {t : Token} (ho : ¬ t.isOpen) (hc : ¬ t.isClose)
    (pending ts : List Token) :
    unmatched Token.kind pending (t :: ts) = unmatched Token.kind pending ts := by
  have h := (Balanced.token ho hc).unmatched pending ts
  rwa [List.singleton_append] at h

theorem stops_of_isClose {c : Token} {pending ts : List Token} (hc : c.isClose)
    (h : unmatched Token.kind pending (c :: ts) = ⟨[], []⟩) : Stops pending (c :: ts) := by
  have hc' := Token.kind_of_isClose hc
  cases pending with
  | nil => simp [unmatched, hc'] at h
  | cons o pending =>
    simp only [unmatched, hc'] at h
    exact .close hc h

/-- A list that starts with a chain, behind which the reading stops. -/
def StartsWithChain (pending ts : List Token) : Prop :=
  ∃ xs rest, ts = xs ++ rest ∧ Grammar.full.Derives .chain xs ∧ Stops pending rest

/-- What the looks leave of a list that a chain is to be read from. -/
structure Ready (pending ts : List Token) : Prop where
  placed : WellPlaced ts
  start : ∃ t us, ts = t :: us ∧ t.startsAtom
  matched : unmatched Token.kind pending ts = ⟨[], []⟩

/-- Behind an operator a chain can be read again. -/
theorem ready_of_operator {pending us : List Token} {t : Token} (ht : t.kind = .operator)
    (hplaced : WellPlaced (t :: us))
    (hmatch : unmatched Token.kind pending (t :: us) = ⟨[], []⟩) : Ready pending us := by
  obtain ⟨u, us, rfl, hu⟩ := hplaced.exists_next (Token.not_endsAtom_of_operator ht)
  rw [Token.allowsNext, ht] at hu
  -- the operator is no bracket, so the same ones wait behind it
  rw [unmatched_of_not_bracket (Token.not_isOpen_of_operator ht)
    (Token.not_isClose_of_operator ht)] at hmatch
  exact ⟨hplaced.tail, ⟨u, us, rfl, hu⟩, hmatch⟩

section Reading

variable {n : Nat} (ih : ∀ {pending ts : List Token}, ts.length < n → Ready pending ts →
  StartsWithChain pending ts)

include ih

/-- Behind an atom the list is over, or a bracket is closed, or an operator and a chain follow. -/
theorem startsWithChain_of_atom {atom us pending : List Token} {e : Token}
    (hatom : Grammar.full.Derives .atom atom) (he : e.endsAtom) (hlt : us.length ≤ n)
    (hplaced : WellPlaced (e :: us)) (hmatch : unmatched Token.kind pending us = ⟨[], []⟩) :
    StartsWithChain pending (atom ++ us) := by
  cases us with
  | nil =>
    -- the list is over: a bracket that waited would be reported
    obtain rfl : pending = [] := by simpa [unmatched] using hmatch
    exact ⟨atom, [], rfl, .single hatom, .finish⟩
  | cons u us =>
    have hnext := (List.isChain_cons_cons.1 hplaced.next).1
    rcases operator_or_close_of_allowsNext he hnext with hu | hu
    · -- an operator: the chain behind it takes the rest
      obtain ⟨xs, rest, rfl, hchain, hstops⟩ :=
        ih hlt (ready_of_operator hu hplaced.tail hmatch)
      exact ⟨atom ++ u :: xs, rest, by simp, (Grammar.Derives.single hatom).join hu hchain, hstops⟩
    · -- a closing bracket: the chain stops in front of it
      exact ⟨atom, u :: us, rfl, .single hatom, stops_of_isClose hu hmatch⟩

/-- An opening bracket stands in front of an expression and its partner. -/
theorem exists_expression_of_isOpen {o : Token} {us pending : List Token} (ho : o.isOpen)
    (hlt : us.length < n) (hplaced : WellPlaced (o :: us))
    (hmatch : unmatched Token.kind (o :: pending) us = ⟨[], []⟩) :
    ∃ inner c rest, us = inner ++ c :: rest ∧ Grammar.full.Derives .expression inner ∧
      c.isClose ∧ unmatched Token.kind pending rest = ⟨[], []⟩ := by
  have ho' := Token.kind_of_isOpen ho
  have hno : ¬ o.endsAtom := by simp [Token.endsAtom, Token.isOperand, Token.isClose, ho']
  obtain ⟨u, us, rfl, hu⟩ := hplaced.exists_next hno
  rw [Token.allowsNext, ho'] at hu
  rcases hu with hu | hu
  · -- no sign: a bracket waits, so the chain stops at its partner
    obtain ⟨xs, rest, hxs, hchain, hstops⟩ := ih hlt ⟨hplaced.tail, ⟨u, us, rfl, hu⟩, hmatch⟩
    cases hstops with
    | close hc hrest => exact ⟨xs, _, _, hxs, .bare hchain, hc, hrest⟩
  · -- a sign: the chain starts one token further on
    have hready := ready_of_operator (Token.kind_of_isSign hu) hplaced.tail hmatch
    have hshort : us.length < n := by
      rw [List.length_cons] at hlt
      omega
    obtain ⟨xs, rest, rfl, hchain, hstops⟩ := ih hshort hready
    cases hstops with
    | close hc hrest => exact ⟨u :: xs, _, _, rfl, .signed hu hchain, hc, hrest⟩

end Reading

/-- **A chain is read from the left**, up to where it stops. -/
theorem startsWithChain {pending ts : List Token} (h : Ready pending ts) :
    StartsWithChain pending ts := by
  induction hn : ts.length using Nat.strong_induction_on generalizing ts pending with
  | _ n ih =>
  -- the induction is on the length, since a call drops two tokens and a pair its contents
  have ih {pending us : List Token} (hlt : us.length < n) (h : Ready pending us) :
      StartsWithChain pending us := ih _ hlt h rfl
  obtain ⟨hplaced, ⟨t, us, rfl, ht⟩, hmatch⟩ := h
  have hcases : t.isOperand ∨ t.kind = .function ∨ t.isOpen := by
    simpa [Token.startsAtom, Token.isOperandLike, or_assoc] using ht
  rcases hcases with ht | ht | ht
  · -- an operand is an atom by itself
    rw [unmatched_of_not_bracket (Token.not_isOpen_of_isOperand ht)
      (Token.not_isClose_of_isOperand ht)] at hmatch
    rw [List.length_cons] at hn
    exact startsWithChain_of_atom ih (.operand ht) (by simp [Token.endsAtom, ht]) (by omega)
      hplaced hmatch
  · -- a call: the name, and then a pair of brackets
    have hno : ¬ t.endsAtom := by simp [Token.endsAtom, Token.isOperand, Token.isClose, ht]
    obtain ⟨o, us, rfl, ho⟩ := hplaced.exists_next hno
    rw [Token.allowsNext, ht] at ho
    rw [unmatched_of_not_bracket (by simp [Token.isOpen, ht]) (by simp [Token.isClose, ht]),
      unmatched_of_isOpen ho] at hmatch
    simp only [List.length_cons] at hn
    obtain ⟨inner, c, rest, rfl, hinner, hc, hrest⟩ :=
      exists_expression_of_isOpen ih ho (by omega) hplaced.tail hmatch
    have hbehind : WellPlaced ((t :: o :: inner) ++ c :: rest) := hplaced
    rw [List.length_append, List.length_cons] at hn
    have h := startsWithChain_of_atom ih (.call ht ho hinner hc) (by simp [Token.endsAtom, hc])
      (by omega) hbehind.of_append hrest
    simpa using h
  · -- a pair of brackets
    rw [unmatched_of_isOpen ht] at hmatch
    rw [List.length_cons] at hn
    obtain ⟨inner, c, rest, rfl, hinner, hc, hrest⟩ :=
      exists_expression_of_isOpen ih ht (by omega) hplaced hmatch
    have hbehind : WellPlaced ((t :: inner) ++ c :: rest) := hplaced
    rw [List.length_append, List.length_cons] at hn
    have h := startsWithChain_of_atom ih (.brackets ht hinner hc) (by simp [Token.endsAtom, hc])
      (by omega) hbehind.of_append hrest
    simpa using h

/-- **What is not reported is an expression**, unless it is empty. -/
theorem derives_of_validate_eq_nil {ts : List Token} (hne : ts ≠ []) (h : validate ts = []) :
    Grammar.full.Derives .expression ts := by
  obtain ⟨t, us, rfl⟩ := List.exists_cons_of_ne_nil hne
  obtain ⟨hstart, hplaced, hmatch⟩ := (validate_cons_eq_nil_iff t us).1 h
  rcases hstart with ht | ht
  · obtain ⟨xs, rest, hxs, hchain, hstops⟩ := startsWithChain ⟨hplaced, ⟨t, us, rfl, ht⟩, hmatch⟩
    -- no bracket waits at the start, so the chain stops where the list does
    cases hstops with
    | finish => exact hxs ▸ .bare (by simpa using hchain)
  · have hready := ready_of_operator (Token.kind_of_isSign ht) hplaced hmatch
    obtain ⟨xs, rest, hxs, hchain, hstops⟩ := startsWithChain hready
    cases hstops with
    | finish => exact hxs ▸ .signed ht (by simpa using hchain)

/-- **Acceptance is the grammar.** The check of the structure reports nothing exactly if the list is
empty or an expression. -/
theorem validate_eq_nil_iff_derives (ts : List Token) :
    validate ts = [] ↔ ts = [] ∨ Grammar.full.Derives .expression ts := by
  constructor
  · intro h
    exact (em (ts = [])).imp_right fun hne => derives_of_validate_eq_nil hne h
  · rintro (rfl | h)
    · exact validate_nil
    · exact h.validate_eq_nil

end Formula
