import Formula.Proofs.Phrase

/-!
# Readings are unique

The layers leave no choice: a token list is read as a phrase in at most one way (`Reads.unique`).

The comparison of two readings goes from the right, since that is where associativity to the left
lets go of one operand at a time. Two phrases that end at the same token, each with something in
front of it that cannot belong to it (`Bars`), have the same right operand at the looser of their
two layers, and then one of them would have to reach into what stands in front of the other unless
the two layers are the same.
-/

namespace Formula

namespace Phrase

/-- **The operator at the outside** of a phrase, its layer, and the phrases around it. A sign has
none on its left. -/
inductive Splits : Phrase → Option Phrase → Token → Phrase → Nat → Prop
  | signed {s : Token} {p : Phrase} (hs : s.isSign) (hp : p.Binds 2) :
      (signed s p).Splits none s p 1
  | binary {l r : Phrase} {o : Token} {k : Nat} (hl : l.Binds k) (ho : o.joins k)
      (hr : r.Binds (k + 1)) : (binary l o r).Splits (some l) o r k

namespace Splits

variable {p r : Phrase} {l : Option Phrase} {o : Token} {k : Nat}

theorem joins (h : p.Splits l o r k) : o.joins k := by
  cases h with
  | signed hs _ => exact hs
  | binary _ ho _ => exact ho

theorem binds_right (h : p.Splits l o r k) : r.Binds (k + 1) := by
  cases h with
  | signed _ hp => exact hp
  | binary _ _ hr => exact hr

theorem tokens_eq (h : p.Splits l o r k) :
    p.tokens = (l.toList.flatMap tokens) ++ o :: r.tokens := by
  cases h <;> simp [tokens]

theorem binds (h : p.Splits l o r k) : p.Binds k := by
  cases h with
  | signed hs hp => exact .signed le_rfl hs hp
  | binary hl ho hr => exact .binary le_rfl hl ho hr

end Splits

/-- An atom is an operand or a region. -/
theorem Binds.atom_cases {p : Phrase} (h : p.Binds 4) :
    (∃ t : Token, t.isOperand ∧ p = .operand t) ∨
      ∃ (b : Bounds) (i : Phrase), b.Written ∧ i.Binds 1 ∧ p = .region b i := by
  cases h with
  | operand ht => exact .inl ⟨_, ht, rfl⟩
  | region hb hi => exact .inr ⟨_, _, hb, hi, rfl⟩
  | signed hn _ _ => omega
  | binary hk _ ho _ =>
    have := Token.joins_bounds ho
    omega

/-- A phrase is an atom, or has an operator at the outside. -/
theorem Binds.atom_or_splits {p : Phrase} {n : Nat} (h : p.Binds n) :
    p.Binds 4 ∨ ∃ l o r k, n ≤ k ∧ p.Splits l o r k := by
  cases h with
  | operand ht => exact .inl (.operand ht)
  | region hb hp => exact .inl (.region hb hp)
  | signed hn1 hs hp => exact .inr ⟨none, _, _, 1, hn1, .signed hs hp⟩
  | binary hnk hl ho hr => exact .inr ⟨_, _, _, _, hnk, .binary hl ho hr⟩

end Phrase

/-- What stands in front of a phrase of layer `n` and does not belong to it ends in an opening
bracket or in an operator that binds more loosely. -/
def Bars (n : Nat) (xs : List Token) : Prop :=
  ∀ t ∈ xs.getLast?, t.isOpen ∨ ∃ k, k < n ∧ t.joins k

namespace Bars

variable {n : Nat} {xs : List Token}

theorem mono {m : Nat} (h : Bars n xs) (hnm : n ≤ m) : Bars m xs :=
  fun t ht => (h t ht).imp_right fun ⟨k, hk, hjoins⟩ => ⟨k, hk.trans_le hnm, hjoins⟩

theorem of_joins {o : Token} (ho : o.joins n) (xs : List Token) : Bars (n + 1) (xs ++ [o]) := by
  intro t ht
  obtain rfl : o = t := by simpa using ht
  exact .inr ⟨n, n.lt_succ_self, ho⟩

theorem of_isOpen {o : Token} (ho : o.isOpen) (xs : List Token) : Bars n (xs ++ [o]) := by
  intro t ht
  obtain rfl : o = t := by simpa using ht
  exact .inl ho

/-- It does not end in an operator that could belong to the phrase. -/
theorem not_joins {o : Token} {k : Nat} {ys : List Token} (h : Bars n (ys ++ [o])) (hk : n ≤ k) :
    ¬ o.joins k := by
  intro ho
  rcases h o (by simp) with hopen | ⟨j, hj, hjoins⟩
  · exact Token.not_isOpen_of_operator (Token.kind_of_joins ho) hopen
  · have := Token.joins_unique hjoins ho
    omega

/-- It does not end in a function name. -/
theorem not_function {f : Token} {ys : List Token} (hf : f.kind = .function) :
    ¬ Bars n (ys ++ [f]) := by
  intro h
  rcases h f (by simp) with hopen | ⟨j, -, hjoins⟩
  · simp [Token.isOpen, hf] at hopen
  · simp [Token.kind_of_joins hjoins] at hf

/-- It does not end in a phrase. -/
theorem not_append_tokens {p : Phrase} {m : Nat} {ys : List Token} (hp : p.Binds m) :
    ¬ Bars n (ys ++ p.tokens) := by
  intro h
  obtain ⟨us, t, htokens, ht⟩ := hp.exists_concat
  rcases h t (by simp [htokens]) with hopen | ⟨j, -, hjoins⟩
  · exact Token.not_isOpen_of_endsAtom ht hopen
  · exact Token.not_endsAtom_of_operator (Token.kind_of_joins hjoins) ht

end Bars

namespace Phrase

/-- What is known of smaller phrases when two readings are compared. -/
def UniqueBelow (size : Nat) : Prop :=
  ∀ {p q : Phrase} {n : Nat} {xs ys : List Token}, p.tokens.length + q.tokens.length < size →
    p.Binds n → q.Binds n → Bars n xs → Bars n ys → xs ++ p.tokens = ys ++ q.tokens →
    p = q ∧ xs = ys

/-- **A phrase is no right operand in disguise.** If `q` has an operator at the outside that `p`
binds more tightly than, the two do not end together. -/
theorem Splits.ne_of_binds {size n k : Nat} (ih : UniqueBelow size) {p q r : Phrase}
    {l : Option Phrase} {o : Token} {xs ys : List Token} (hq : q.Splits l o r k) (hnk : n ≤ k)
    (hp : p.Binds (k + 1)) (hsize : p.tokens.length + q.tokens.length ≤ size) (hx : Bars n xs) :
    xs ++ p.tokens ≠ ys ++ q.tokens := by
  intro h
  -- `p` is compared with the right operand of `q`, which is shorter than `q`
  have hlength : r.tokens.length < q.tokens.length := by
    rw [hq.tokens_eq, List.length_append, List.length_cons]
    omega
  have hsplit : xs ++ p.tokens = (ys ++ l.toList.flatMap tokens ++ [o]) ++ r.tokens := by
    rw [h, hq.tokens_eq]
    simp
  -- they are the same, so the operator of `q` stands in front of `p`, where it is barred
  obtain ⟨-, rfl⟩ := ih (by omega) hp hq.binds_right (hx.mono (by omega)) (.of_joins hq.joins _)
    hsplit
  exact hx.not_joins hnk hq.joins

/-- Two phrases with operators of one layer at the outside are the same if they end together. -/
theorem Splits.unique {size n k : Nat} (ih : UniqueBelow size) {p q r r' : Phrase}
    {l l' : Option Phrase} {o o' : Token} {xs ys : List Token} (hp : p.Splits l o r k)
    (hq : q.Splits l' o' r' k) (hnk : n ≤ k) (hsize : p.tokens.length + q.tokens.length ≤ size)
    (hx : Bars n xs) (hy : Bars n ys) (h : xs ++ p.tokens = ys ++ q.tokens) :
    p = q ∧ xs = ys := by
  have hplength := congrArg List.length hp.tokens_eq
  have hqlength := congrArg List.length hq.tokens_eq
  simp only [List.length_append, List.length_cons] at hplength hqlength
  rw [hp.tokens_eq, hq.tokens_eq] at h
  have hsplit : (xs ++ l.toList.flatMap tokens ++ [o]) ++ r.tokens =
      (ys ++ l'.toList.flatMap tokens ++ [o']) ++ r'.tokens := by
    simpa using h
  -- the right operands agree, and with them what stands in front of the operators
  obtain ⟨rfl, hfront⟩ := ih (by omega) hp.binds_right hq.binds_right (.of_joins hp.joins _)
    (.of_joins hq.joins _) hsplit
  obtain ⟨hleft, ho⟩ := List.append_inj' hfront rfl
  obtain rfl : o = o' := by simpa using ho
  cases hp with
  | signed hs hp =>
    cases hq with
    | signed _ _ => exact ⟨rfl, by simpa using hleft⟩
    | @binary l' _ _ _ hl' _ _ =>
      -- what stands in front of the sign would end in the left operand
      have hxs : xs = ys ++ l'.tokens := by simpa using hleft
      exact absurd (hxs ▸ hx) (Bars.not_append_tokens hl')
  | @binary l _ _ _ hl ho hr =>
    cases hq with
    | signed _ _ =>
      -- the same with the sides exchanged
      have hys : xs ++ l.tokens = ys := by simpa using hleft
      exact absurd (hys ▸ hy) (Bars.not_append_tokens hl)
    | binary hl' _ _ =>
      obtain ⟨rfl, rfl⟩ := ih (by simp at hplength hqlength; omega) (hl.mono hnk) (hl'.mono hnk)
        hx hy (by simpa using hleft)
      exact ⟨rfl, rfl⟩

/-- The bounds of a region are told apart by what stands in front of the contents. -/
theorem bounds_unique {n : Nat} {b b' : Bounds} {xs ys : List Token} (hb : b.Written)
    (hb' : b'.Written) (hx : Bars n xs) (hy : Bars n ys)
    (hfront : xs ++ b.front = ys ++ b'.front) (hback : b.back = b'.back) : b = b' ∧ xs = ys := by
  cases b with
  | implicit => exact hb.elim
  | brackets o c =>
    cases b' with
    | implicit => exact hb'.elim
    | brackets o' c' => simp_all [Bounds.front, Bounds.back]
    | call f' o' c' =>
      have hsplit : xs ++ [o] = (ys ++ [f']) ++ [o'] := by simpa [Bounds.front] using hfront
      -- what stands in front of the bare brackets would end in the name
      have hxs := (List.append_inj' hsplit rfl).1
      exact absurd (hxs ▸ hx) (Bars.not_function hb'.1)
  | call f o c =>
    cases b' with
    | implicit => exact hb'.elim
    | brackets o' c' =>
      have hsplit : (xs ++ [f]) ++ [o] = ys ++ [o'] := by simpa [Bounds.front] using hfront
      -- the same with the sides exchanged
      have hys := (List.append_inj' hsplit rfl).1
      exact absurd (hys ▸ hy) (Bars.not_function hb.1)
    | call f' o' c' =>
      obtain ⟨rfl, hfront⟩ := List.append_inj' hfront rfl
      simp_all [Bounds.front, Bounds.back]

/-- Two atoms are the same if they end together. -/
theorem Binds.unique_of_atoms {size n : Nat} (ih : UniqueBelow size) {p q : Phrase}
    {xs ys : List Token} (hp : p.Binds 4) (hq : q.Binds 4)
    (hsize : p.tokens.length + q.tokens.length ≤ size) (hx : Bars n xs) (hy : Bars n ys)
    (h : xs ++ p.tokens = ys ++ q.tokens) : p = q ∧ xs = ys := by
  rcases hp.atom_cases with ⟨t, ht, rfl⟩ | ⟨b, i, hb, hi, rfl⟩
  · rcases hq.atom_cases with ⟨u, hu, rfl⟩ | ⟨b', i', hb', hi', rfl⟩
    · obtain ⟨rfl, htu⟩ := List.append_inj' h rfl
      obtain rfl : t = u := by simpa [tokens] using htu
      exact ⟨rfl, rfl⟩
    · -- an operand is no closing bracket
      obtain ⟨c', hback', hc'⟩ := hb'.exists_back
      have hsplit : xs ++ [t] = (ys ++ b'.front ++ i'.tokens) ++ [c'] := by
        simpa [tokens, hback'] using h
      obtain rfl : t = c' := by simpa using (List.append_inj' hsplit rfl).2
      exact absurd hc' (Token.not_isClose_of_isOperand ht)
  · obtain ⟨c, hback, hc⟩ := hb.exists_back
    rcases hq.atom_cases with ⟨u, hu, rfl⟩ | ⟨b', i', hb', hi', rfl⟩
    · have hsplit : (xs ++ b.front ++ i.tokens) ++ [c] = ys ++ [u] := by
        simpa [tokens, hback] using h
      obtain rfl : c = u := by simpa using (List.append_inj' hsplit rfl).2
      exact absurd hc (Token.not_isClose_of_isOperand hu)
    · obtain ⟨c', hback', -⟩ := hb'.exists_back
      obtain ⟨fs, o, hfront, ho⟩ := hb.exists_front
      obtain ⟨fs', o', hfront', ho'⟩ := hb'.exists_front
      have hsplit : (xs ++ b.front ++ i.tokens) ++ [c] = (ys ++ b'.front ++ i'.tokens) ++ [c'] := by
        simpa [tokens, hback, hback'] using h
      obtain ⟨hinner, hcc⟩ := List.append_inj' hsplit rfl
      -- the contents end together, each behind an opening bracket
      have hbars : Bars 1 (xs ++ b.front) := by
        rw [hfront, ← List.append_assoc]
        exact .of_isOpen ho _
      have hbars' : Bars 1 (ys ++ b'.front) := by
        rw [hfront', ← List.append_assoc]
        exact .of_isOpen ho' _
      simp only [tokens, List.length_append, hback, hback', List.length_singleton] at hsize
      obtain ⟨rfl, hfronts⟩ := ih (by omega) hi hi' hbars hbars' hinner
      obtain ⟨rfl, rfl⟩ :=
        bounds_unique hb hb' hx hy hfronts (by rw [hback, hback', hcc])
      exact ⟨rfl, rfl⟩

/-- Two phrases that end at the same token are the same if neither can reach further to the left. -/
theorem Binds.unique_of_append {p q : Phrase} {n : Nat} {xs ys : List Token} (hp : p.Binds n)
    (hq : q.Binds n) (hx : Bars n xs) (hy : Bars n ys) (h : xs ++ p.tokens = ys ++ q.tokens) :
    p = q ∧ xs = ys := by
  induction hsize : p.tokens.length + q.tokens.length using Nat.strong_induction_on
    generalizing p q n xs ys with
  | _ size ih =>
  -- by induction on the size of the two phrases together
  have ih : UniqueBelow size := fun hlt hp hq hx hy h => ih _ hlt hp hq hx hy h rfl
  rcases hp.atom_or_splits with hpa | ⟨l, o, r, k, hnk, hps⟩
  · rcases hq.atom_or_splits with hqa | ⟨l', o', r', k', hnk', hqs⟩
    · exact hpa.unique_of_atoms ih hqa hsize.le hx hy h
    · -- an atom binds more tightly than any operator
      have hk' := Token.joins_bounds hqs.joins
      exact absurd h (hqs.ne_of_binds ih hnk' (hpa.mono (by omega)) hsize.le hx)
  · rcases hq.atom_or_splits with hqa | ⟨l', o', r', k', hnk', hqs⟩
    · have hk := Token.joins_bounds hps.joins
      exact absurd h.symm
        (hps.ne_of_binds ih hnk (hqa.mono (by omega)) (by omega) hy)
    · -- the phrase of the tighter layer would be a right operand of the other
      rcases Nat.lt_trichotomy k k' with hlt | rfl | hlt
      · exact absurd h.symm (hps.ne_of_binds ih hnk (hqs.binds.mono hlt) (by omega) hy)
      · exact hps.unique ih hqs hnk hsize.le hx hy h
      · exact absurd h (hqs.ne_of_binds ih hnk' (hps.binds.mono hlt) hsize.le hx)

/-- **A reading is unique.** -/
theorem Reads.unique {p q : Phrase} {ts : List Token} (hp : p.Reads ts) (hq : q.Reads ts) :
    p = q := by
  have hbars : Bars 1 ([] : List Token) := fun t ht => by simp at ht
  refine (hp.binds.unique_of_append hq.binds hbars hbars ?_).1
  rw [hp.tokens_eq, hq.tokens_eq]

end Phrase

end Formula
