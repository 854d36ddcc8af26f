import Formula.Proofs.Grammar
import Formula.Proofs.Imbalance

/-!
# Bracket pairs

A walk to the right from an opening bracket, a walk to the left from a closing one, and the stack of
pending brackets that the structure check keeps are three ways to pair the brackets of a list. They
agree, on lists that are not balanced too (`pairing_agrees`).

What the walks find is a pair in the list: two brackets with balanced tokens between them
(`Paired`). A walk passes over balanced tokens, so from either end of a pair it comes to the other;
and where a walk comes to an end, the tokens that it has passed are balanced
(`exists_along_of_bracketSpan`).

The stack is compared with the walks by its height. A walk to the right comes back to its start
exactly if the brackets that come later take the one it started from off the stack
(`mem_opening_unmatched_iff`), and a walk to the left does if it finds one on the stack
(`length_opening_le_iff`).
-/

namespace Formula

/-! ### Balanced tokens along a walk -/

theorem Direction.not_enters_of_leaves {d : Direction} {t : Token} (h : d.leaves t) :
    ¬ d.enters t := by
  cases d with
  | rightward => exact fun hopen => Token.not_isClose_of_isOpen hopen h
  | leftward => exact Token.not_isClose_of_isOpen h

namespace Balanced

variable {xs ys : List Token}

/-- One balanced list after the other, in the order of a walk. -/
theorem exists_along_append (hxs : Balanced xs) (hys : Balanced ys) (d : Direction) :
    ∃ zs, Balanced zs ∧ d.along zs = d.along xs ++ d.along ys := by
  cases d with
  | rightward => exact ⟨xs ++ ys, hxs.append hys, rfl⟩
  | leftward => exact ⟨ys ++ xs, hys.append hxs, List.reverse_append⟩

/-- A pair, in the order of a walk. -/
theorem exists_along_pair (hxs : Balanced xs) {d : Direction} {e l : Token} (he : d.enters e)
    (hl : d.leaves l) : ∃ zs, Balanced zs ∧ d.along zs = e :: d.along xs ++ [l] := by
  cases d with
  | rightward => exact ⟨e :: xs ++ [l], .pair he hxs hl, rfl⟩
  | leftward => exact ⟨l :: xs ++ [e], .pair hl hxs he, by simp [Direction.along]⟩

end Balanced

/-- **Where a walk comes to an end**, the tokens up to the bracket by which it leaves the pair that
it is in are balanced. -/
theorem exists_along_of_bracketSpan {d : Direction} {depth n : Nat} {ts : List Token}
    (h : bracketSpan d (depth + 1) ts = some n) :
    ∃ xs l rest, ts = d.along xs ++ l :: rest ∧ Balanced xs ∧ d.leaves l := by
  induction hlength : ts.length using Nat.strong_induction_on generalizing depth n ts with
  | _ size ih =>
  subst hlength
  cases ts with
  | nil => simp at h
  | cons t ts =>
    by_cases hl : d.leaves t
    · -- the token that ends the walk comes first
      exact ⟨[], t, ts, by cases d <;> rfl, .nil, hl⟩
    by_cases he : d.enters t
    · -- first the pair that is entered here, and then on behind it
      rw [bracketSpan_of_enters he, Option.map_eq_some_iff] at h
      obtain ⟨m, hm, -⟩ := h
      obtain ⟨xs, l, rest, rfl, hxs, hl⟩ := ih _ (by simp) hm rfl
      rw [hxs.bracketSpan, bracketSpan_of_leaves (Direction.not_enters_of_leaves hl) hl,
        Option.map_map, Option.map_eq_some_iff] at hm
      obtain ⟨k, hk, -⟩ := hm
      obtain ⟨ys, l', rest, rfl, hys, hl'⟩ := ih _ (by simp; omega) hk rfl
      obtain ⟨ps, hps, hpair⟩ := hxs.exists_along_pair he hl
      obtain ⟨zs, hzs, halong⟩ := hps.exists_along_append hys d
      exact ⟨zs, l', rest, by simp [halong, hpair], hzs, hl'⟩
    · -- a token that is no bracket
      rw [bracketSpan_of_not_bracket he hl, Option.map_eq_some_iff] at h
      obtain ⟨m, hm, -⟩ := h
      obtain ⟨xs, l, rest, rfl, hxs, hl'⟩ := ih _ (by simp) hm rfl
      have ht : Balanced [t] := by
        cases d with
        | rightward => exact .token he hl
        | leftward => exact .token hl he
      obtain ⟨zs, hzs, halong⟩ := ht.exists_along_append hxs d
      exact ⟨zs, l, rest, by simp [halong], hzs, hl'⟩

/-! ### Pairs of a list -/

/-- **A pair** of brackets at places `i` and `j` of a list, with balanced tokens between them. -/
inductive Paired (ts : List Token) (i j : Nat) : Prop
  | intro {xs ys zs : List Token} {o c : Token} (hts : ts = xs ++ (o :: ys ++ [c]) ++ zs)
      (ho : o.isOpen) (hys : Balanced ys) (hc : c.isClose) (hi : i = xs.length)
      (hj : j = xs.length + ys.length + 1)

namespace Paired

variable {ts : List Token} {i j : Nat}

theorem lt (h : Paired ts i j) : i < j := by
  obtain ⟨-, -, -, -, rfl, rfl⟩ := h
  omega

theorem exists_open (h : Paired ts i j) : ∃ o, ts[i]? = some o ∧ o.isOpen := by
  obtain ⟨rfl, ho, -, -, rfl, -⟩ := h
  exact ⟨_, by simp, ho⟩

theorem exists_close (h : Paired ts i j) : ∃ c, ts[j]? = some c ∧ c.isClose := by
  obtain @⟨xs, ys, zs, o, c, rfl, -, -, hc, -, rfl⟩ := h
  refine ⟨c, ?_, hc⟩
  have hsplit : xs ++ (o :: ys ++ [c]) ++ zs = (xs ++ o :: ys) ++ c :: zs := by simp
  have hlength : xs.length + ys.length + 1 = (xs ++ o :: ys).length := by simp; omega
  rw [hsplit, hlength, List.getElem?_append_right le_rfl, Nat.sub_self, List.getElem?_cons_zero]

/-- A walk from the opening bracket of a pair ends at the closing one. -/
theorem matchingClose_eq (h : Paired ts i j) : matchingClose ts i = some j := by
  obtain @⟨xs, ys, zs, o, c, rfl, ho, hys, hc, rfl, rfl⟩ := h
  have hspan := hys.bracketSpan_pair ho hc .rightward zs
  have hdrop : (xs ++ (o :: ys ++ [c]) ++ zs).drop xs.length = o :: ys ++ [c] ++ zs := by
    rw [List.append_assoc, List.drop_left]
  rw [matchingClose, hdrop]
  simp only [Direction.along] at hspan
  rw [hspan, Option.map_some]
  congr 1

/-- A walk from the closing bracket of a pair ends at the opening one. -/
theorem matchingOpen_eq (h : Paired ts i j) : matchingOpen ts j = some i := by
  obtain @⟨xs, ys, zs, o, c, rfl, ho, hys, hc, rfl, rfl⟩ := h
  have hspan := hys.bracketSpan_pair ho hc .leftward xs.reverse
  have htake : (xs ++ (o :: ys ++ [c]) ++ zs).take (xs.length + ys.length + 1 + 1) =
      xs ++ (o :: ys ++ [c]) :=
    List.take_left' (by simp; omega)
  rw [matchingOpen, if_pos (by simp; omega), htake, List.reverse_append]
  simp only [Direction.along] at hspan
  rw [hspan, Option.map_some]
  congr 1
  omega

end Paired

/-- **A walk to the right** that comes to an end has found a pair. -/
theorem paired_of_matchingClose {ts : List Token} {i j : Nat} {o : Token} (ho : ts[i]? = some o)
    (hopen : o.isOpen) (h : matchingClose ts i = some j) : Paired ts i j := by
  obtain ⟨xs, rest, rfl, rfl⟩ := exists_append_of_getElem? ho
  have hspan := h
  rw [matchingClose, List.drop_left, bracketSpan_of_enters (d := .rightward) hopen,
    Option.map_map, Option.map_eq_some_iff] at hspan
  obtain ⟨n, hn, -⟩ := hspan
  obtain ⟨ys, c, zs, hrest, hys, hc⟩ := exists_along_of_bracketSpan hn
  have hsplit : xs ++ o :: rest = xs ++ (o :: ys ++ [c]) ++ zs := by
    simp [hrest, Direction.along]
  have hpair : Paired (xs ++ o :: rest) xs.length (xs.length + ys.length + 1) :=
    ⟨hsplit, hopen, hys, hc, rfl, rfl⟩
  rwa [← Option.some.inj (hpair.matchingClose_eq.symm.trans h)]

/-- **A walk to the left** that comes to an end has found a pair. -/
theorem paired_of_matchingOpen {ts : List Token} {i j : Nat} {c : Token} (hc : ts[j]? = some c)
    (hclose : c.isClose) (h : matchingOpen ts j = some i) : Paired ts i j := by
  -- the walk to the left sees the tokens in front of the bracket in reverse
  obtain ⟨us, zs, rfl, rfl⟩ := exists_append_of_getElem? hc
  have htake : ((us ++ c :: zs).take (us.length + 1)).reverse = c :: us.reverse := by
    simp [List.take_append]
  have hspan := h
  rw [matchingOpen, if_pos (by simp), htake, bracketSpan_of_enters (d := .leftward) hclose,
    Option.map_map, Option.map_eq_some_iff] at hspan
  obtain ⟨n, hn, -⟩ := hspan
  -- what it steps over is balanced, and an opening bracket ends it
  obtain ⟨ys, o, rest, hus, hys, ho⟩ := exists_along_of_bracketSpan hn
  replace hus : us = rest.reverse ++ o :: ys := by
    rw [← List.reverse_inj, hus]
    simp [Direction.along]
  have hsplit : us ++ c :: zs = rest.reverse ++ (o :: ys ++ [c]) ++ zs := by
    simp [hus]
  have hpair : Paired (us ++ c :: zs) rest.reverse.length us.length :=
    ⟨hsplit, ho, hys, hclose, rfl, by simp [hus]; omega⟩
  -- the pair that was found is the one that the matcher gives
  rwa [← Option.some.inj (hpair.matchingOpen_eq.symm.trans h)]

/-! ### The stack -/

section Stack

variable {α : Type} {kind : α → Kind} {a : α}

theorem unmatched_cons_of_open (h : kind a = .openBracket) (pending as : List α) :
    unmatched kind pending (a :: as) = unmatched kind (a :: pending) as := by
  simp [unmatched, h]

theorem unmatched_cons_of_close (h : kind a = .closeBracket) (o : α) (pending as : List α) :
    unmatched kind (o :: pending) (a :: as) = unmatched kind pending as := by
  simp [unmatched, h]

theorem unmatched_cons_of_not_bracket (hopen : kind a ≠ .openBracket)
    (hclose : kind a ≠ .closeBracket) (pending as : List α) :
    unmatched kind pending (a :: as) = unmatched kind pending as := by
  rw [unmatched.eq_def]
  cases hkind : kind a <;> simp_all

variable (kind)

/-- The stack behind a list is the stack in front of what comes next. -/
theorem unmatched_append (pending as bs : List α) :
    unmatched kind pending (as ++ bs) =
      ⟨(unmatched kind pending as).closing ++
          (unmatched kind (unmatched kind pending as).opening bs).closing,
        (unmatched kind (unmatched kind pending as).opening bs).opening⟩ := by
  fun_induction unmatched kind pending as with
  | case1 pending => rfl
  | case2 a as pending hkind ih => rw [List.cons_append, unmatched_cons_of_open hkind, ih]
  | case3 a as o pending hkind ih => rw [List.cons_append, unmatched_cons_of_close hkind, ih]
  | case4 a as hkind later ih =>
    rw [List.cons_append, unmatched.eq_def]
    simp [hkind, ih, later]
  | case5 a as pending hopen hclose hnil ih =>
    obtain ⟨hopen, hclose⟩ := ne_bracket hopen hclose hnil
    rw [List.cons_append, unmatched_cons_of_not_bracket hopen hclose, ih]

/-- What is left over keeps the order of the list, with the stack upside down. -/
theorem unmatched_sublist (pending as : List α) :
    (unmatched kind pending as).closing.Sublist as ∧
      (unmatched kind pending as).opening.Sublist (as.reverse ++ pending) := by
  have hskip (a : α) {as rest rest' : List α} (h : rest.Sublist rest') :
      (as.reverse ++ rest).Sublist ((a :: as).reverse ++ rest') := by
    rw [List.reverse_cons, List.append_assoc]
    exact (h.cons a).append_left _
  fun_induction unmatched kind pending as with
  | case1 pending => exact ⟨.slnil, .refl _⟩
  | case2 a as pending hkind ih => exact ⟨ih.1.cons a, by simpa using ih.2⟩
  | case3 a as o pending hkind ih =>
    exact ⟨ih.1.cons a, ih.2.trans (hskip a (List.sublist_cons_self o pending))⟩
  | case4 a as hkind later ih => exact ⟨ih.1.cons_cons a, ih.2.trans (hskip a (.refl []))⟩
  | case5 a as pending hopen hclose hnil ih =>
    exact ⟨ih.1.cons a, ih.2.trans (hskip a (.refl pending))⟩

end Stack

section Placed

variable {es pending : List Placed} {e u : Placed}

theorem unmatched_of_open (h : u.1.isOpen) (pending es : List Placed) :
    unmatched (fun e => e.1.kind) pending (u :: es) =
      unmatched (fun e => e.1.kind) (u :: pending) es :=
  unmatched_cons_of_open (a := u) (Token.kind_of_isOpen h) pending es

theorem unmatched_of_close (h : u.1.isClose) (e : Placed) (pending es : List Placed) :
    unmatched (fun e => e.1.kind) (e :: pending) (u :: es) =
      unmatched (fun e => e.1.kind) pending es :=
  unmatched_cons_of_close (a := u) (Token.kind_of_isClose h) e pending es

theorem unmatched_of_other (hopen : ¬ u.1.isOpen) (hclose : ¬ u.1.isClose)
    (pending es : List Placed) :
    unmatched (fun e => e.1.kind) pending (u :: es) =
      unmatched (fun e => e.1.kind) pending es :=
  unmatched_cons_of_not_bracket (by simpa [Token.isOpen] using hopen)
    (by simpa [Token.isClose] using hclose) pending es

/-- **A pending bracket stays** pending exactly if the walk to the right from it does not come to an
end. The brackets of `front` are those that it has entered since. -/
theorem mem_opening_unmatched_iff (front : List Placed) (hes : e ∉ es) (hpending : e ∉ pending) :
    e ∈ (unmatched (fun e => e.1.kind) (front ++ e :: pending) es).opening ↔
      bracketSpan .rightward (front.length + 1) (es.map Prod.fst) = none := by
  induction es generalizing front with
  | nil => simp [unmatched]
  | cons u es ih =>
    have hne : e ∉ es := fun h => hes (List.mem_cons_of_mem u h)
    rw [List.map_cons]
    by_cases hopen : u.1.isOpen
    · -- the bracket comes on top of the stack
      rw [unmatched_of_open hopen, ← List.cons_append, ih _ hne,
        bracketSpan_of_enters (d := .rightward) hopen, Option.map_eq_none_iff, List.length_cons]
    by_cases hclose : u.1.isClose
    · cases front with
      | nil =>
        -- here the bracket is taken off the stack
        have hgone : e ∉ (unmatched (fun e => e.1.kind) pending es).opening := by
          intro hmem
          have hrest := (unmatched_sublist _ pending es).2.subset hmem
          simp [hne, hpending] at hrest
        rw [List.nil_append, unmatched_of_close hclose, List.length_nil,
          bracketSpan_one_of_leaves (d := .rightward) hopen hclose]
        simpa using hgone
      | cons o front =>
        rw [List.cons_append, unmatched_of_close hclose, ih _ hne, List.length_cons,
          bracketSpan_of_leaves (d := .rightward) hopen hclose, Option.map_eq_none_iff]
    · -- other tokens change neither the stack nor the depth
      rw [unmatched_of_other hopen hclose, ih _ hne,
        bracketSpan_of_not_bracket (d := .rightward) hopen hclose, Option.map_eq_none_iff]

/-- **The height of the stack**: a walk to the left does not come to an end exactly if it has
entered as many pairs as brackets are pending. -/
theorem length_opening_le_iff (es : List Placed) (depth : Nat) :
    (unmatched (fun e => e.1.kind) [] es).opening.length ≤ depth ↔
      bracketSpan .leftward (depth + 1) (es.map Prod.fst).reverse = none := by
  induction es using List.reverseRecOn generalizing depth with
  | nil => simp [unmatched]
  | append_singleton es u ih =>
    rw [unmatched_append, List.map_append, List.reverse_append, List.map_singleton,
      List.reverse_singleton, List.singleton_append]
    by_cases hopen : u.1.isOpen
    · -- from the right an opening bracket ends the walk, unless brackets are still open
      have hclose : ¬ u.1.isClose := Token.not_isClose_of_isOpen hopen
      rw [unmatched_of_open hopen]
      cases depth with
      | zero => simp [unmatched, bracketSpan_one_of_leaves (d := .leftward) hclose hopen]
      | succ depth =>
        rw [bracketSpan_of_leaves (d := .leftward) hclose hopen, Option.map_eq_none_iff, ← ih]
        simp [unmatched]
    by_cases hclose : u.1.isClose
    · rw [bracketSpan_of_enters (d := .leftward) hclose, Option.map_eq_none_iff, ← ih]
      -- the bracket takes one off the stack, if there is one
      generalize (unmatched (fun e => e.1.kind) [] es).opening = pending
      cases pending with
      | nil => simp [unmatched, Token.kind_of_isClose hclose]
      | cons o pending => rw [unmatched_of_close hclose]; simp [unmatched]
    · -- other tokens are passed over on both sides
      rw [bracketSpan_of_not_bracket (d := .leftward) hclose hopen, Option.map_eq_none_iff, ← ih,
        unmatched_of_other hopen hclose]
      simp [unmatched]

end Placed

/-! ### The three ways agree -/

/-- The closing brackets from which no walk to the left comes to an end. -/
def unopened (ts : List Token) : List Placed :=
  ts.zipIdx.filter fun e => e.1.isClose && (matchingOpen ts e.2).isNone

/-- The opening brackets from which no walk to the right comes to an end, the last one first. -/
def unclosed (ts : List Token) : List Placed :=
  (ts.zipIdx.filter fun e => e.1.isOpen && (matchingClose ts e.2).isNone).reverse

/-- The places of a list around one of them. -/
theorem zipIdx_append_cons (xs : List Token) (t : Token) (ys : List Token) :
    (xs ++ t :: ys).zipIdx = xs.zipIdx ++ (t, xs.length) :: ys.zipIdx (xs.length + 1) := by
  rw [List.zipIdx_append, List.zipIdx_cons, Nat.zero_add]

/-- A token with its place is neither among the tokens in front of it nor among those behind it. -/
theorem notMem_zipIdx (xs : List Token) (t : Token) (ys : List Token) :
    (t, xs.length) ∉ xs.zipIdx ∧ (t, xs.length) ∉ ys.zipIdx (xs.length + 1) := by
  refine ⟨fun h => ?_, fun h => ?_⟩
  · have := List.snd_lt_of_mem_zipIdx h
    omega
  · have := List.le_snd_of_mem_zipIdx h
    omega

/-- **The opening brackets** that are left over are those from which no walk comes to an end. -/
theorem mem_opening_loneBrackets_iff {ts : List Token} {e : Placed} (he : e ∈ ts.zipIdx) :
    e ∈ (loneBrackets ts).opening ↔ e.1.isOpen ∧ matchingClose ts e.2 = none := by
  by_cases hopen : e.1.isOpen
  · obtain ⟨t, i⟩ := e
    obtain ⟨xs, ys, rfl, rfl⟩ := exists_append_of_getElem? (List.mem_zipIdx_iff_getElem?.1 he)
    obtain ⟨hfront, hbehind⟩ := notMem_zipIdx xs t ys
    -- the bracket is at no other place, so it is not on the stack before it comes
    have hpending : (t, xs.length) ∉ (unmatched (fun e => e.1.kind) [] xs.zipIdx).opening := by
      intro h
      have hmem := (unmatched_sublist _ [] xs.zipIdx).2.subset h
      simp [hfront] at hmem
    -- from there on it stays on the stack just if the walk behind it finds no end
    have hstack := mem_opening_unmatched_iff [] hbehind hpending
    rw [List.nil_append, List.zipIdx_map_fst] at hstack
    rw [loneBrackets, zipIdx_append_cons, unmatched_append, unmatched_of_open hopen, hstack,
      matchingClose, List.drop_left, bracketSpan_of_enters (d := .rightward) hopen]
    simp [hopen]
  · exact ⟨fun h => absurd (mem_loneBrackets.2 h).2 hopen, fun h => absurd h.1 hopen⟩

/-- **The closing brackets** that are left over are those from which no walk comes to an end. -/
theorem mem_closing_loneBrackets_iff {ts : List Token} {e : Placed} (he : e ∈ ts.zipIdx) :
    e ∈ (loneBrackets ts).closing ↔ e.1.isClose ∧ matchingOpen ts e.2 = none := by
  by_cases hclose : e.1.isClose
  · obtain ⟨t, j⟩ := e
    obtain ⟨xs, ys, rfl, rfl⟩ := exists_append_of_getElem? (List.mem_zipIdx_iff_getElem?.1 he)
    obtain ⟨hfront, hbehind⟩ := notMem_zipIdx xs t ys
    have htake : ((xs ++ t :: ys).take (xs.length + 1)).reverse = t :: xs.reverse := by
      simp [List.take_append]
    -- the walk to the left finds no end just if nothing is open before the bracket
    have hheight := length_opening_le_iff xs.zipIdx 0
    rw [List.zipIdx_map_fst] at hheight
    rw [matchingOpen, if_pos (by simp), htake, bracketSpan_of_enters (d := .leftward) hclose,
      Option.map_map, Option.map_eq_none_iff, ← hheight, loneBrackets, zipIdx_append_cons,
      unmatched_append]
    -- the bracket is at no other place, so no earlier step can report it
    have hearly : (t, xs.length) ∉ (unmatched (fun e => e.1.kind) [] xs.zipIdx).closing :=
      fun h => hfront ((unmatched_sublist _ [] xs.zipIdx).1.subset h)
    generalize hpending : (unmatched (fun e => e.1.kind) [] xs.zipIdx).opening = pending
    cases pending with
    | nil =>
      replace hclose : t.isClose := hclose
      simp [unmatched, Token.kind_of_isClose hclose, hclose]
    | cons o pending =>
      -- it closes the innermost open one, and no later step can report it either
      have hlate : (t, xs.length) ∉
          (unmatched (fun e => e.1.kind) pending (ys.zipIdx (xs.length + 1))).closing :=
        fun h => hbehind ((unmatched_sublist _ pending _).1.subset h)
      rw [unmatched_of_close hclose]
      simp [hearly, hlate]
  · exact ⟨fun h => absurd (mem_loneBrackets.1 h).2 hclose, fun h => absurd h.1 hclose⟩

/-- Two parts of a list without repetitions are equal if they hold the same elements. -/
theorem eq_of_sublist {α : Type*} {as bs cs : List α} (hnodup : as.Nodup) (hbs : bs.Sublist as)
    (hcs : cs.Sublist as) (hmem : ∀ a ∈ as, a ∈ bs ↔ a ∈ cs) : bs = cs := by
  refine (hnodup.perm_iff_eq_of_sublist hbs hcs).1
    ((List.perm_ext_iff_of_nodup (hnodup.sublist hbs) (hnodup.sublist hcs)).2 fun a => ?_)
  by_cases ha : a ∈ as
  · exact hmem a ha
  · exact iff_of_false (fun h => ha (hbs.subset h)) fun h => ha (hcs.subset h)

/-- **What the stack leaves over** is what the walks do not pair, in the same order. -/
theorem loneBrackets_eq (ts : List Token) : loneBrackets ts = ⟨unopened ts, unclosed ts⟩ := by
  have hnodup : ts.zipIdx.Nodup := (nodup_places ts).of_map Prod.snd
  obtain ⟨hclosing, hopening⟩ := unmatched_sublist (fun e : Placed => e.1.kind) [] ts.zipIdx
  rw [List.append_nil] at hopening
  have hleft : (loneBrackets ts).closing = unopened ts := by
    refine eq_of_sublist hnodup hclosing List.filter_sublist fun e he => ?_
    rw [unopened, List.mem_filter, Bool.and_eq_true, Option.isNone_iff_eq_none]
    exact (mem_closing_loneBrackets_iff he).trans (and_iff_right he).symm
  have hright : (loneBrackets ts).opening = unclosed ts := by
    refine eq_of_sublist (List.nodup_reverse.2 hnodup) hopening List.filter_sublist.reverse
      fun e he => ?_
    rw [List.mem_reverse] at he
    rw [unclosed, List.mem_reverse, List.mem_filter, Bool.and_eq_true, Option.isNone_iff_eq_none]
    exact (mem_opening_loneBrackets_iff he).trans (and_iff_right he).symm
  rw [← hleft, ← hright]

/-- **The three ways to pair brackets agree**, on balanced lists and on others. If the walk to the
right from an opening bracket comes to an end, then at a closing bracket further to the right, from
which the walk to the left comes back; and the other way round. The brackets from which no walk
comes to an end are those that are reported: the closing ones from first to last, then the opening
ones from last to first. -/
theorem pairing_agrees (ts : List Token) :
    (∀ i j o, ts[i]? = some o → o.isOpen → matchingClose ts i = some j →
      i < j ∧ (∃ c, ts[j]? = some c ∧ c.isClose) ∧ matchingOpen ts j = some i) ∧
    (∀ i j c, ts[j]? = some c → c.isClose → matchingOpen ts j = some i →
      (∃ o, ts[i]? = some o ∧ o.isOpen) ∧ matchingClose ts i = some j) ∧
    loneBrackets ts = ⟨unopened ts, unclosed ts⟩ ∧
    balanceErrors ts =
      (unopened ts).map (fun e => ⟨.unexpectedCloseBracket, e.1.position⟩) ++
        (unclosed ts).map (fun e => ⟨.unclosedBracket, e.1.position⟩) := by
  refine ⟨fun i j o ho hopen h => ?_, fun i j c hc hclose h => ?_, loneBrackets_eq ts, ?_⟩
  · have hpair := paired_of_matchingClose ho hopen h
    exact ⟨hpair.lt, hpair.exists_close, hpair.matchingOpen_eq⟩
  · have hpair := paired_of_matchingOpen hc hclose h
    exact ⟨hpair.exists_open, hpair.matchingClose_eq⟩
  · rw [balanceErrors, unmatched_eq_map_loneBrackets, loneBrackets_eq]
    simp only [Unmatched.map, List.map_map]
    rfl

/-- In `)(()` the first two brackets have no partner, and the last two are a pair. -/
theorem pairing_of_unbalanced :
    let o : Token := ⟨.openBracket, "(", 0⟩
    let c : Token := ⟨.closeBracket, ")", 0⟩
    unopened [c, o, o, c] = [(c, 0)] ∧ unclosed [c, o, o, c] = [(o, 1)] ∧
      matchingClose [c, o, o, c] 2 = some 3 ∧ matchingOpen [c, o, o, c] 3 = some 2 := by
  intro o c
  obtain ⟨hright, hleft, hlone, -⟩ := pairing_agrees [c, o, o, c]
  obtain ⟨-, -, hback⟩ := hright 2 3 o rfl rfl (by rfl)
  obtain ⟨-, hforth⟩ := hleft 2 3 c rfl rfl (by rfl)
  have hstack : loneBrackets [c, o, o, c] = ⟨[(c, 0)], [(o, 1)]⟩ := by rfl
  rw [hstack, Unmatched.mk.injEq] at hlone
  exact ⟨hlone.1.symm, hlone.2.symm, hforth, hback⟩

end Formula
