import Formula.Proofs.Balance
import Formula.Structure
import Mathlib.Data.Finset.Card
import Mathlib.Order.Bounds.Defs

/-!
# Imbalance

How far the brackets of a list are from being balanced is how many of them have to be deleted so
that the others nest (`Repairs`). The check of the structure reports just as many errors, and the
brackets that it reports them for are such a choice.

The lower bound is a count. `imbalance` adds up the brackets without a partner, and it depends on
the pending ones by their number alone. One more pending bracket changes it by one at most
(`imbalance_succ`), so does one more token (`imbalance_cons_le`), and a balanced list has none; so
what is left of a list can be balanced only if as many tokens are gone (`imbalance_le_of_sublist`).

For the upper bound the list is read against pending brackets, as the check does it. Without the
brackets that are left over in the end, any part of the list closes some of the pending ones and is
balanced otherwise (`Unwinds`, `exists_settled`). At the start nothing is pending, so all of the
list is balanced then. The tokens are taken with their places there, since equal tokens need not
share their fate.

* `Repairs.imbalance_le` — no repair makes do with less;
* `repairs_loneBrackets` — the brackets without a partner are a repair;
* `forall₂_balanceErrors` — the errors are about these brackets, one by one;
* `imbalance_isLeast` — all of it in terms of the errors.
-/

namespace Formula

/-! ### Deleting tokens -/

/-- The tokens but for those at the given places. -/
def without (places : Finset Nat) (ts : List Token) : List Token :=
  (ts.zipIdx.filter fun e => e.2 ∉ places).map Prod.fst

/-- **A repair.** At the places stand brackets, and without them the others nest. -/
structure Repairs (places : Finset Nat) (ts : List Token) : Prop where
  brackets : ∀ i ∈ places, ∃ t, ts[i]? = some t ∧ t.isBracket
  balanced : Balanced (without places ts)

@[simp] theorem without_empty (ts : List Token) : without ∅ ts = ts := by
  simp [without, List.zipIdx_map_fst]

/-- Every token has a place of its own. -/
theorem nodup_places (ts : List Token) : (ts.zipIdx.map Prod.snd).Nodup := by
  rw [List.zipIdx_map_snd]
  exact List.nodup_range'

theorem without_sublist (places : Finset Nat) (ts : List Token) :
    (without places ts).Sublist ts := by
  have hfewer : (ts.zipIdx.filter fun e => decide (e.2 ∉ places)).Sublist ts.zipIdx :=
    List.filter_sublist
  have hfirst := hfewer.map Prod.fst
  rwa [List.zipIdx_map_fst] at hfirst

/-- At each place no more than one token is deleted. -/
theorem length_le_without (places : Finset Nat) (ts : List Token) :
    ts.length ≤ (without places ts).length + places.card := by
  have hsplit := List.length_eq_length_filter_add (l := ts.zipIdx) fun e => decide (e.2 ∉ places)
  have hdeleted : (ts.zipIdx.filter fun e => !decide (e.2 ∉ places)).length ≤ places.card := by
    -- the tokens that go have places of their own, and all of these are in `places`
    have hfewer : (ts.zipIdx.filter fun e => !decide (e.2 ∉ places)).Sublist ts.zipIdx :=
      List.filter_sublist
    have hnodup := (nodup_places ts).sublist (hfewer.map Prod.snd)
    rw [← List.length_map Prod.snd, ← List.toFinset_card_of_nodup hnodup]
    refine Finset.card_le_card fun i hi => ?_
    simp only [List.mem_toFinset, List.mem_map, List.mem_filter] at hi
    obtain ⟨e, ⟨-, he⟩, rfl⟩ := hi
    simpa using he
  rw [List.length_zipIdx] at hsplit
  rw [without, List.length_map]
  omega

/-! ### Counting brackets without a partner -/

/-- How many brackets have no partner. -/
def Unmatched.size {α : Type} (lone : Unmatched α) : Nat :=
  lone.closing.length + lone.opening.length

/-- The number of brackets without a partner where `pending` opening ones stand in front. A closing
bracket takes one of those; if there is none, it is one without a partner itself. -/
def imbalance : (pending : Nat) → List Token → Nat
  | pending, [] => pending
  | pending, t :: ts =>
    if t.isOpen then imbalance (pending + 1) ts
    else if t.isClose then imbalance (pending - 1) ts + (1 - pending)
    else imbalance pending ts

/-- What is left when neither an opening nor a closing bracket comes. -/
theorem ne_bracket {α : Type} {kind : Kind} {pending : List α}
    (hopen : kind = .openBracket → False)
    (hclose : ∀ o rest, kind = .closeBracket → pending = o :: rest → False)
    (hnil : kind = .closeBracket → pending = [] → False) :
    kind ≠ .openBracket ∧ kind ≠ .closeBracket := by
  refine ⟨hopen, fun hkind => ?_⟩
  cases pending with
  | nil => exact hnil hkind rfl
  | cons o pending => exact hclose o pending hkind rfl

theorem size_unmatched (pending ts : List Token) :
    (unmatched Token.kind pending ts).size = imbalance pending.length ts := by
  fun_induction unmatched Token.kind pending ts with
  | case1 pending => simp [Unmatched.size, imbalance]
  | case2 t ts pending hkind ih =>
    rw [ih, imbalance, if_pos (by simp [Token.isOpen, hkind]), List.length_cons]
  | case3 t ts o pending hkind ih =>
    simp [ih, imbalance, Token.isOpen, Token.isClose, hkind]
  | case4 t ts hkind later ih =>
    have hsize : later.size = imbalance 0 ts := ih
    -- the one that is left over here counts on top of what is left over later
    have hmore : Unmatched.size { later with closing := t :: later.closing } = later.size + 1 := by
      simp only [Unmatched.size, List.length_cons]
      omega
    rw [hmore, hsize]
    simp [imbalance, Token.isOpen, Token.isClose, hkind]
  | case5 t ts pending hopen hclose hnil ih =>
    obtain ⟨hopen, hclose⟩ := ne_bracket hopen hclose hnil
    simpa [imbalance, Token.isOpen, Token.isClose, hopen, hclose] using ih

/-- **One more pending bracket** makes a difference of one at most. -/
theorem imbalance_succ (pending : Nat) (ts : List Token) :
    imbalance (pending + 1) ts ≤ imbalance pending ts + 1 ∧
      imbalance pending ts ≤ imbalance (pending + 1) ts + 1 := by
  induction ts generalizing pending with
  | nil => simp only [imbalance]; omega
  | cons t ts ih =>
    simp only [imbalance]
    split_ifs
    · exact ih (pending + 1)
    · -- a closing bracket takes the one that there is more
      cases pending with
      | zero =>
        simp only [Nat.zero_add, Nat.sub_self, Nat.zero_sub]
        omega
      | succ pending => simpa using ih pending
    · exact ih pending

/-- **One more token** makes a difference of one at most. -/
theorem imbalance_cons_le (pending : Nat) (t : Token) (ts : List Token) :
    imbalance pending (t :: ts) ≤ imbalance pending ts + 1 := by
  rw [imbalance]
  split_ifs
  · exact (imbalance_succ pending ts).1
  · cases pending with
    | zero => simp
    | succ pending => simpa using (imbalance_succ pending ts).2
  · exact Nat.le_succ _

/-- **Deleting tokens** takes away no more of the imbalance than it takes tokens. -/
theorem imbalance_le_of_sublist {kept ts : List Token} (h : kept.Sublist ts) (pending : Nat) :
    imbalance pending ts + kept.length ≤ imbalance pending kept + ts.length := by
  induction h generalizing pending with
  | slnil => rfl
  | @cons kept ts t _ ih =>
    have hcons := imbalance_cons_le pending t ts
    have hrest := ih pending
    rw [List.length_cons]
    omega
  | @cons_cons kept ts t _ ih =>
    -- a token that is kept does the same to both counts
    simp only [imbalance, List.length_cons]
    split_ifs
    · have := ih (pending + 1)
      omega
    · have := ih (pending - 1)
      omega
    · have := ih pending
      omega

theorem Balanced.imbalance_eq_zero {ts : List Token} (h : Balanced ts) : imbalance 0 ts = 0 := by
  have hlone := h.unmatched [] []
  rw [List.append_nil] at hlone
  have hsize := size_unmatched [] ts
  rw [hlone] at hsize
  exact hsize.symm

/-- **The lower bound.** A repair deletes at least as many brackets as have no partner. -/
theorem Repairs.imbalance_le {places : Finset Nat} {ts : List Token} (h : Repairs places ts) :
    imbalance 0 ts ≤ places.card := by
  have hsublist := imbalance_le_of_sublist (without_sublist places ts) 0
  have hlength := length_le_without places ts
  rw [h.balanced.imbalance_eq_zero] at hsublist
  omega

/-! ### Deleting the brackets without a partner -/

/-- **Unwinding.** The list closes `n` of the brackets that are open in front of it, and is balanced
but for that. -/
inductive Unwinds : (n : Nat) → List Token → Prop
  | balanced {ts : List Token} (h : Balanced ts) : Unwinds 0 ts
  | close {n : Nat} {xs ts : List Token} {c : Token} (hxs : Balanced xs) (hc : c.isClose)
      (h : Unwinds n ts) : Unwinds (n + 1) (xs ++ c :: ts)

namespace Unwinds

variable {n : Nat} {xs ts : List Token}

theorem append (hxs : Balanced xs) (h : Unwinds n ts) : Unwinds n (xs ++ ts) := by
  cases h with
  | balanced hts => exact .balanced (hxs.append hts)
  | close hys hc hts =>
    rw [← List.append_assoc]
    exact .close (hxs.append hys) hc hts

/-- An opening bracket takes the first of those that the list closes for its partner. -/
theorem cons_open {o : Token} (ho : o.isOpen) (h : Unwinds (n + 1) ts) : Unwinds n (o :: ts) := by
  cases h with
  | @close _ ys ts c hys hc hts =>
    have hpair : o :: (ys ++ c :: ts) = (o :: ys ++ [c]) ++ ts := by simp
    rw [hpair]
    exact hts.append (.pair ho hys hc)

theorem cons_close {c : Token} (hc : c.isClose) (h : Unwinds n ts) : Unwinds (n + 1) (c :: ts) :=
  .close .nil hc h

theorem cons_of_not_bracket {t : Token} (ht : t.isBracket = false) (h : Unwinds n ts) :
    Unwinds n (t :: ts) := by
  rw [Token.isBracket_eq_false_iff] at ht
  exact h.append (.token ht.1 ht.2)

theorem zero_balanced (h : Unwinds 0 ts) : Balanced ts := by
  cases h with
  | balanced h => exact h

end Unwinds

/-- A token and its place in a list. -/
abbrev Placed : Type := Token × Nat

/-- The places of the brackets, in the order in which they are reported. -/
def Unmatched.places (lone : Unmatched Placed) : List Nat :=
  (lone.closing ++ lone.opening).map Prod.snd

/-- **What is left over** is from the list or still pending, and no bracket is left over twice. -/
theorem subperm_unmatched {α : Type} (kind : α → Kind) (pending es : List α) :
    ((unmatched kind pending es).closing ++ (unmatched kind pending es).opening).Subperm
      (es ++ pending) := by
  fun_induction unmatched kind pending es with
  | case1 pending => exact .refl _
  | case2 e es pending hkind ih => exact List.Subperm.trans ih List.perm_middle.subperm
  | case3 e es o pending hkind ih =>
    exact List.Subperm.trans ih ((List.sublist_cons_self e es).append
      (List.sublist_cons_self o pending)).subperm
  | case4 e es hkind later ih => exact (List.subperm_cons e).2 ih
  | case5 e es pending hopen hclose hclose' ih => exact List.Subperm.cons_right e ih

/-- The tokens of a list that are not left over. -/
def Unmatched.kept (lone : Unmatched Placed) (es : List Placed) : List Token :=
  (es.filter fun e => e.2 ∉ lone.places).map Prod.fst

theorem Unmatched.kept_cons_of_mem {lone : Unmatched Placed} {e : Placed} (h : e.2 ∈ lone.places)
    (es : List Placed) : lone.kept (e :: es) = lone.kept es := by
  rw [kept, List.filter_cons_of_neg (by simpa using h), kept]

theorem Unmatched.kept_cons_of_not_mem {lone : Unmatched Placed} {e : Placed}
    (h : e.2 ∉ lone.places) (es : List Placed) : lone.kept (e :: es) = e.1 :: lone.kept es := by
  rw [kept, List.filter_cons_of_pos (by simpa using h), List.map_cons, kept]

/-- **A list settled** against pending brackets, where `lone` are left over: it closes `n` of the
pending ones, the others stay open, and nothing else is left over but some of its own tokens. -/
structure Settled (pending es : List Placed) (lone : Unmatched Placed) (n : Nat) : Prop where
  le_length : n ≤ pending.length
  stay : ∀ e ∈ pending.drop n, e.2 ∈ lone.places
  left : ∀ i ∈ lone.places, i ∈ es.map Prod.snd ∨ i ∈ (pending.drop n).map Prod.snd
  unwinds : Unwinds n (lone.kept es)

namespace Settled

variable {pending es : List Placed} {lone : Unmatched Placed} {n : Nat} {e : Placed}

/-- A token in front of the list is kept if it is not left over behind it. -/
theorem kept_cons (h : Settled pending es lone n) (hes : e.2 ∉ es.map Prod.snd)
    (hpending : e.2 ∉ (pending.drop n).map Prod.snd) : lone.kept (e :: es) = e.1 :: lone.kept es :=
  Unmatched.kept_cons_of_not_mem (fun hmem => (h.left _ hmem).elim hes hpending) es

theorem left_cons (h : Settled pending es lone n) : ∀ i ∈ lone.places,
    i ∈ (e :: es).map Prod.snd ∨ i ∈ (pending.drop n).map Prod.snd :=
  fun i hi => (h.left i hi).imp_left (List.mem_cons_of_mem _)

/-- An opening bracket that nothing closes is left over. -/
theorem cons_open (h : Settled (e :: pending) es lone 0) : Settled pending (e :: es) lone 0 where
  le_length := Nat.zero_le _
  stay u hu := h.stay u (List.mem_cons_of_mem e hu)
  left i hi := by
    have hleft := h.left i hi
    simp only [List.drop_zero, List.map_cons, List.mem_cons] at hleft ⊢
    tauto
  unwinds := by
    rw [Unmatched.kept_cons_of_mem (h.stay e List.mem_cons_self)]
    exact h.unwinds

/-- An opening bracket that is closed within the list is not pending in front of it. -/
theorem cons_open_succ (h : Settled (e :: pending) es lone (n + 1)) (ho : e.1.isOpen)
    (hes : e.2 ∉ es.map Prod.snd) (hpending : e.2 ∉ (pending.drop n).map Prod.snd) :
    Settled pending (e :: es) lone n where
  le_length := Nat.le_of_succ_le_succ h.le_length
  stay := h.stay
  left := h.left_cons
  unwinds := by
    rw [h.kept_cons hes hpending]
    exact h.unwinds.cons_open ho

theorem cons_close (h : Settled pending es lone n) (hc : e.1.isClose) (o : Placed)
    (hes : e.2 ∉ es.map Prod.snd) (hpending : e.2 ∉ (pending.drop n).map Prod.snd) :
    Settled (o :: pending) (e :: es) lone (n + 1) where
  le_length := Nat.succ_le_succ h.le_length
  stay := h.stay
  left := h.left_cons
  unwinds := by
    rw [h.kept_cons hes hpending]
    exact h.unwinds.cons_close hc

/-- A closing bracket is left over where nothing is pending. -/
theorem cons_close_nil (h : Settled [] es lone n) (hes : e.2 ∉ es.map Prod.snd) :
    Settled [] (e :: es) { lone with closing := e :: lone.closing } n where
  le_length := h.le_length
  stay u hu := by simp at hu
  left i hi := by
    rcases List.mem_cons.1 hi with rfl | hi
    · exact .inl List.mem_cons_self
    · exact h.left_cons i hi
  unwinds := by
    have hkept : Unmatched.kept { lone with closing := e :: lone.closing } es = lone.kept es := by
      refine congrArg (List.map Prod.fst) (List.filter_congr fun u hu => ?_)
      have hne : u.2 ≠ e.2 := fun heq => hes (heq ▸ List.mem_map_of_mem hu)
      rw [decide_eq_decide, not_iff_not, Unmatched.places, List.cons_append, List.map_cons,
        List.mem_cons, or_iff_right hne, Unmatched.places]
    rw [Unmatched.kept_cons_of_mem List.mem_cons_self, hkept]
    exact h.unwinds

theorem cons_of_not_bracket (h : Settled pending es lone n) (ht : e.1.isBracket = false)
    (hes : e.2 ∉ es.map Prod.snd) (hpending : e.2 ∉ (pending.drop n).map Prod.snd) :
    Settled pending (e :: es) lone n where
  le_length := h.le_length
  stay := h.stay
  left := h.left_cons
  unwinds := by
    rw [h.kept_cons hes hpending]
    exact h.unwinds.cons_of_not_bracket ht

end Settled

/-- Places of their own, for a token in front of others. -/
theorem nodup_places_cons {e : Placed} {es pending : List Placed}
    (h : ((e :: es ++ pending).map Prod.snd).Nodup) :
    e.2 ∉ es.map Prod.snd ∧ (∀ n, e.2 ∉ (pending.drop n).map Prod.snd) ∧
      ((es ++ pending).map Prod.snd).Nodup := by
  rw [List.cons_append, List.map_cons, List.nodup_cons, List.map_append, List.mem_append] at h
  refine ⟨fun hes => h.1 (.inl hes), fun n hpending => h.1 (.inr ?_), ?_⟩
  · exact ((List.drop_sublist n pending).map Prod.snd).subset hpending
  · rw [List.map_append]
    exact h.2

/-- **Every list is settled** by pairing its brackets, if its tokens and the pending brackets have
places of their own. -/
theorem exists_settled {pending es : List Placed} (h : ((es ++ pending).map Prod.snd).Nodup) :
    ∃ n, Settled pending es (unmatched (fun e => e.1.kind) pending es) n := by
  fun_induction unmatched (fun e : Placed => e.1.kind) pending es with
  | case1 pending =>
    refine ⟨0, Nat.zero_le _, fun e he => List.mem_map_of_mem he, fun i hi => .inr hi, ?_⟩
    exact .balanced .nil
  | case2 e es pending hkind ih =>
    obtain ⟨hes, hpending, hrest⟩ := nodup_places_cons h
    have hnodup : ((es ++ e :: pending).map Prod.snd).Nodup := by
      rw [(List.perm_middle.map Prod.snd).nodup_iff]
      exact h
    obtain ⟨n, hs⟩ := ih hnodup
    -- the bracket is the first of the pending ones for the rest, so it is closed if any of them is
    cases n with
    | zero => exact ⟨0, hs.cons_open⟩
    | succ n => exact ⟨n, hs.cons_open_succ (by simp [Token.isOpen, hkind]) hes (hpending n)⟩
  | case3 e es o pending hkind ih =>
    -- the bracket closes a pending one, so one more of those is settled
    obtain ⟨hes, hpending, hrest⟩ := nodup_places_cons h
    have hfewer : (es ++ pending).Sublist (es ++ o :: pending) :=
      (List.sublist_cons_self o pending).append_left es
    obtain ⟨n, hs⟩ := ih (hrest.sublist (hfewer.map Prod.snd))
    exact ⟨n + 1, hs.cons_close (by simp [Token.isClose, hkind]) o hes (hpending (n + 1))⟩
  | case4 e es hkind later ih =>
    -- nothing is pending, and the bracket is left over
    obtain ⟨hes, -, hrest⟩ := nodup_places_cons h
    obtain ⟨n, hs⟩ := ih hrest
    exact ⟨n, hs.cons_close_nil hes⟩
  | case5 e es pending hopen hclose hnil ih =>
    obtain ⟨hes, hpending, hrest⟩ := nodup_places_cons h
    obtain ⟨hopen, hclose⟩ := ne_bracket hopen hclose hnil
    obtain ⟨n, hs⟩ := ih hrest
    have ht : e.1.isBracket = false := by
      simp [Token.isBracket, Token.isOpen, Token.isClose, hopen, hclose]
    exact ⟨n, hs.cons_of_not_bracket ht hes (hpending n)⟩

/-! ### The errors that are reported -/

/-- An error about the balance of the brackets. -/
def StructuralError.isImbalance (e : StructuralError) : Bool :=
  e.fault == .unexpectedCloseBracket || e.fault == .unclosedBracket

/-- The error is about the bracket at place `i` of the list. -/
def StructuralError.IsFor (ts : List Token) (e : StructuralError) (i : Nat) : Prop :=
  ∃ t, ts[i]? = some t ∧ e.position = t.position ∧
    (t.isClose ∧ e.fault = .unexpectedCloseBracket ∨ t.isOpen ∧ e.fault = .unclosedBracket)

theorem filter_report {fault : Fault} (h : StructuralError.isImbalance ⟨fault, 0⟩ = false)
    (condition : Bool) (position : Nat) :
    (report condition fault position).filter StructuralError.isImbalance = [] := by
  have hnot : StructuralError.isImbalance ⟨fault, position⟩ = false := h
  cases condition <;> simp [report, hnot]

theorem filter_endErrors (t : Token) :
    (endErrors t).filter StructuralError.isImbalance = [] := by
  cases hkind : t.kind <;> simp [endErrors, hkind, StructuralError.isImbalance]

theorem filter_pairErrors (t u : Token) :
    (pairErrors t u).filter StructuralError.isImbalance = [] := by
  simp only [pairErrors, List.filter_append, List.append_eq_nil_iff]
  refine ⟨⟨⟨⟨⟨⟨⟨⟨?_, ?_⟩, ?_⟩, ?_⟩, ?_⟩, ?_⟩, ?_⟩, ?_⟩, ?_⟩ <;> exact filter_report rfl _ _

theorem filter_neighbourErrors (ts : List Token) :
    (neighbourErrors ts).filter StructuralError.isImbalance = [] := by
  induction ts with
  | nil => rfl
  | cons t ts ih =>
    cases ts with
    | nil => rfl
    | cons u ts => rw [neighbourErrors, List.filter_append, filter_pairErrors, ih, List.nil_append]

/-- **Only the look at the balance** reports errors about it. -/
theorem filter_validate (ts : List Token) :
    (validate ts).filter StructuralError.isImbalance = balanceErrors ts := by
  have hbalance : (balanceErrors ts).filter StructuralError.isImbalance = balanceErrors ts := by
    refine List.filter_eq_self.2 fun e he => ?_
    simp only [balanceErrors, List.mem_append, List.mem_map] at he
    rcases he with ⟨t, -, rfl⟩ | ⟨t, -, rfl⟩ <;> rfl
  cases ts with
  | nil => rfl
  | cons t ts =>
    have hstart : (startErrors t).filter StructuralError.isImbalance = [] := filter_report rfl _ _
    rw [validate, List.filter_append, List.filter_append, List.filter_append, hstart,
      filter_endErrors, filter_neighbourErrors, hbalance, List.nil_append, List.nil_append,
      List.nil_append]

theorem length_balanceErrors (ts : List Token) : (balanceErrors ts).length = imbalance 0 ts := by
  rw [← List.length_nil (α := Token), ← size_unmatched, balanceErrors, List.length_append,
    List.length_map, List.length_map, Unmatched.size]

/-! ### The brackets that they are reported for -/

/-- The brackets of a list that have no partner, with their places. -/
def loneBrackets (ts : List Token) : Unmatched Placed :=
  unmatched (fun e => e.1.kind) [] ts.zipIdx

theorem unmatched_eq_map_loneBrackets (ts : List Token) :
    unmatched Token.kind [] ts = (loneBrackets ts).map Prod.fst := by
  have h := unmatched_map Prod.fst Token.kind [] ts.zipIdx
  rwa [List.zipIdx_map_fst] at h

/-- Closing brackets are left over as such, and so are opening ones. -/
theorem kind_unmatched {α : Type} (kind : α → Kind) {pending : List α}
    (h : ∀ a ∈ pending, kind a = .openBracket) (es : List α) :
    (∀ a ∈ (unmatched kind pending es).closing, kind a = .closeBracket) ∧
      ∀ a ∈ (unmatched kind pending es).opening, kind a = .openBracket := by
  fun_induction unmatched kind pending es with
  | case1 pending => exact ⟨by simp, h⟩
  | case2 e es pending hkind ih => exact ih (List.forall_mem_cons.2 ⟨hkind, h⟩)
  | case3 e es o pending hkind ih => exact ih (List.forall_mem_cons.1 h).2
  | case4 e es hkind later ih =>
    exact ⟨List.forall_mem_cons.2 ⟨hkind, (ih h).1⟩, (ih h).2⟩
  | case5 e es pending hopen hclose hnil ih => exact ih h

theorem subperm_loneBrackets (ts : List Token) :
    ((loneBrackets ts).closing ++ (loneBrackets ts).opening).Subperm ts.zipIdx := by
  have h := subperm_unmatched (fun e : Placed => e.1.kind) [] ts.zipIdx
  rwa [List.append_nil] at h

/-- What the brackets without a partner are, and where they stand. -/
theorem mem_loneBrackets {ts : List Token} {e : Placed} :
    (e ∈ (loneBrackets ts).closing → ts[e.2]? = some e.1 ∧ e.1.isClose) ∧
      (e ∈ (loneBrackets ts).opening → ts[e.2]? = some e.1 ∧ e.1.isOpen) := by
  have hplace : e ∈ (loneBrackets ts).closing ++ (loneBrackets ts).opening →
      ts[e.2]? = some e.1 :=
    fun he => List.mem_zipIdx_iff_getElem?.1 ((subperm_loneBrackets ts).subset he)
  have hnone : ∀ e ∈ ([] : List Placed), e.1.kind = .openBracket := by simp
  have hkind := kind_unmatched (fun e => e.1.kind) hnone ts.zipIdx
  refine ⟨fun he => ⟨hplace (List.mem_append_left _ he), ?_⟩,
    fun he => ⟨hplace (List.mem_append_right _ he), ?_⟩⟩
  · simp [Token.isClose, hkind.1 e he]
  · simp [Token.isOpen, hkind.2 e he]

/-- **Each error** is about the bracket without a partner that is next. -/
theorem forall₂_balanceErrors (ts : List Token) :
    List.Forall₂ (StructuralError.IsFor ts) (balanceErrors ts) (loneBrackets ts).places := by
  rw [balanceErrors, unmatched_eq_map_loneBrackets, Unmatched.places, List.map_append]
  simp only [Unmatched.map, List.map_map]
  refine List.rel_append ?_ ?_
  all_goals
    rw [List.forall₂_map_left_iff, List.forall₂_map_right_iff, List.forall₂_same]
    intro e he
  · obtain ⟨hplace, hclose⟩ := mem_loneBrackets.1 he
    exact ⟨e.1, hplace, rfl, .inl ⟨hclose, rfl⟩⟩
  · obtain ⟨hplace, hopen⟩ := mem_loneBrackets.2 he
    exact ⟨e.1, hplace, rfl, .inr ⟨hopen, rfl⟩⟩

theorem nodup_places_loneBrackets (ts : List Token) : (loneBrackets ts).places.Nodup := by
  obtain ⟨es, hperm, hes⟩ := subperm_loneBrackets ts
  rw [Unmatched.places, ← (hperm.map Prod.snd).nodup_iff]
  exact (nodup_places ts).sublist (hes.map Prod.snd)

/-- **The upper bound.** Without the brackets that have no partner a list is balanced. -/
theorem repairs_loneBrackets (ts : List Token) :
    Repairs (loneBrackets ts).places.toFinset ts where
  brackets i hi := by
    obtain ⟨e, he, rfl⟩ := List.mem_map.1 (List.mem_toFinset.1 hi)
    refine ⟨e.1, ?_⟩
    rcases List.mem_append.1 he with he | he
    · exact (mem_loneBrackets.1 he).imp_right fun h => Token.isBracket_eq_true_iff.2 (.inr h)
    · exact (mem_loneBrackets.2 he).imp_right fun h => Token.isBracket_eq_true_iff.2 (.inl h)
  balanced := by
    have hnodup : ((ts.zipIdx ++ []).map Prod.snd).Nodup := by
      rw [List.append_nil]
      exact nodup_places ts
    obtain ⟨n, hs⟩ := exists_settled hnodup
    -- nothing is pending in front of the list
    obtain rfl : n = 0 := Nat.le_zero.1 hs.le_length
    have hkept : without (loneBrackets ts).places.toFinset ts =
        (loneBrackets ts).kept ts.zipIdx := by
      simp only [without, List.mem_toFinset, Unmatched.kept]
    rw [hkept]
    exact hs.unwinds.zero_balanced

theorem card_places_loneBrackets (ts : List Token) :
    (loneBrackets ts).places.toFinset.card = (balanceErrors ts).length := by
  rw [List.toFinset_card_of_nodup (nodup_places_loneBrackets ts),
    (forall₂_balanceErrors ts).length_eq]

/-- **The errors about the balance count the imbalance.** There are as many of them as brackets have
to be deleted at least for the others to nest. Each of them is about a bracket of its own, and these
brackets are such a choice. So there is none exactly if the list is balanced. -/
theorem imbalance_isLeast (ts : List Token) :
    let errors := (validate ts).filter StructuralError.isImbalance
    IsLeast {n | ∃ places : Finset Nat, Repairs places ts ∧ places.card = n} errors.length ∧
      List.Forall₂ (StructuralError.IsFor ts) errors (loneBrackets ts).places ∧
      (loneBrackets ts).places.Nodup ∧ Repairs (loneBrackets ts).places.toFinset ts ∧
      (errors = [] ↔ Balanced ts) := by
  simp only [filter_validate]
  have hrepairs := repairs_loneBrackets ts
  refine ⟨⟨⟨_, hrepairs, card_places_loneBrackets ts⟩, ?_⟩, forall₂_balanceErrors ts,
    nodup_places_loneBrackets ts, hrepairs, fun hnil => ?_, fun hbalanced => ?_⟩
  · rintro n ⟨places, hplaces, rfl⟩
    rw [length_balanceErrors]
    exact hplaces.imbalance_le
  · have hcard := card_places_loneBrackets ts
    rw [hnil, List.length_nil, Finset.card_eq_zero] at hcard
    simpa [hcard] using hrepairs.balanced
  · rw [← List.length_eq_zero_iff, length_balanceErrors]
    exact hbalanced.imbalance_eq_zero

/-- Both brackets of `)(` have to go, and of `(()` the first. -/
example :
    let o : Token := ⟨.openBracket, "(", 0⟩
    let c : Token := ⟨.closeBracket, ")", 0⟩
    (loneBrackets [c, o]).places = [0, 1] ∧ (loneBrackets [o, o, c]).places = [0] :=
  ⟨rfl, rfl⟩

end Formula
