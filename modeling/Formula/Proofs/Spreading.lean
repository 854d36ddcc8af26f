import Formula.Proofs.Settling

/-!
# Phrases spread over a level

How the items of a level and a phrase belong together. An item stands for a phrase if it is written
in the same way and, without signs, has the shape and the value that it should have
(`Item.Stands`). A phrase is spread over a level if its parts of some layer are items and the
operators between them, all of them looser, are tokens (`Spread`).

Settling a tier turns each row of its operators into one item, which stands for the whole row
(`Matches.settle`), and so the phrase is spread over the level by parts of the next looser layer
(`Spread.settle`).
-/

namespace Formula

open Item

/-- An operator of another layer stops a tier. -/
theorem Token.stops_of_joins {o : Token} {j k : Nat} (ho : o.joins j) (hj : j ≠ k) :
    ¬ o.isOperand ∧ ¬ o.isOperatorIn (layerOps k) := by
  refine ⟨fun hoperand => ?_, fun hops => hj (Token.joins_unique ho hops)⟩
  rcases Token.kind_of_isOperand hoperand with hkind | hkind <;>
    simp [Token.kind_of_joins ho] at hkind

/-! ### Items that stand for phrases -/

section Stands

variable {K : Type*} [Field K] [DecidableEq K]

/-- **The item stands for the phrase**: it is written in the same way, and without signs it has the
shape and the value that it should have. -/
structure Item.Stands (V : Valuation K) (q : Phrase) (x : Item) : Prop where
  isOperandOrGroup : x.isOperandOrGroup
  flatten_eq : flatten [x] = q.tokens
  formed : q.signs = 0 → x.Formed ∧ x.eval V = q.eval V

/-- Two rows with the same operators, and operands that are related by `R`. -/
def Matches (R : Phrase → Item → Prop) (tail : Tail Phrase) (links : Tail Item) : Prop :=
  List.Forall₂ (fun link link' => link.1 = link'.1 ∧ R link.2 link'.2) tail links

theorem matches_mapOperands {R : Phrase → Item → Prop} {f : Phrase → Phrase} {tail : Tail Phrase}
    {links : Tail Item} :
    Matches R (tail.mapOperands f) links ↔ Matches (fun q x => R (f q) x) tail links :=
  List.forall₂_map_left_iff

theorem matches_rejoin {R : Phrase → Item → Prop} {tail : Tail Phrase} {links : Tail Item}
    (h : Matches R tail links) (κ : Chaining) : Matches R (κ.rejoin tail) (κ.rejoin links) := by
  refine List.forall₂_map_left_iff.2 (List.forall₂_map_right_iff.2 (h.imp ?_))
  rintro link link' ⟨ho, hx⟩
  exact ⟨by rw [ho], hx⟩

variable {V : Valuation K} {q : Phrase} {x : Item} {tail : Tail Phrase} {links : Tail Item}

theorem Matches.flatten_row (h : Matches (Stands V) tail links) (hq : Stands V q x) :
    flatten (row (some x) links) = (Phrase.chained q tail).tokens := by
  have htokens (p : Phrase) :
      (Phrase.chained p tail).tokens = p.tokens ++ flatten (row none links) := by
    induction h generalizing p with
    | nil => simp [Phrase.chained]
    | @cons link link' tail links hlink h ih =>
      rw [Phrase.chained, List.foldl_cons, ← Phrase.chained, ih, Phrase.tokens, row_none_cons,
        flatten_token, row_some, flatten_cons, hlink.2.flatten_eq, hlink.1]
      simp
  rw [htokens, row_some, flatten_cons, hq.flatten_eq]

theorem Matches.isRow (h : Matches (Stands V) tail links) (hq : Stands V q x) {k : Nat}
    (htail : ∀ link ∈ tail, link.1.joins k) : IsRow (fun x => x.isOperandOrGroup) k x links := by
  refine ⟨hq.isOperandOrGroup, ?_⟩
  induction h with
  | nil => simp
  | @cons link link' tail links hlink h ih =>
    obtain ⟨ho, htail⟩ := List.forall_mem_cons.1 htail
    exact List.forall_mem_cons.2 ⟨⟨hlink.1 ▸ ho, hlink.2.isOperandOrGroup⟩, ih htail⟩

theorem Matches.formed (h : Matches (Stands V) tail links) (hq : Stands V q x) {k : Nat}
    (htail : ∀ link ∈ tail, link.1.joins k) (hsigns : (Phrase.chained q tail).signs = 0) :
    IsRow Formed k x links ∧ V.chained (x.eval V) (links.mapOperands (eval V)) =
      (Phrase.chained q tail).eval V := by
  rw [Phrase.signs_chained, Nat.add_eq_zero_iff] at hsigns
  obtain ⟨hx, hvalue⟩ := hq.formed hsigns.1
  -- each operand has the shape, and its value is that of its phrase
  have hoperands : (∀ link ∈ links, link.1.joins k ∧ link.2.Formed) ∧
      links.mapOperands (eval V) = tail.mapOperands (Phrase.eval V) := by
    have hzero := hsigns.2
    clear hsigns
    induction h with
    | nil => simp [Tail.mapOperands]
    | @cons link link' tail links hlink h ih =>
      obtain ⟨ho, htail⟩ := List.forall_mem_cons.1 htail
      obtain ⟨hfirst, hrest⟩ := Nat.add_eq_zero_iff.1 hzero
      obtain ⟨hformed, heval⟩ := hlink.2.formed hfirst
      obtain ⟨hlinks, hmap⟩ := ih htail hrest
      refine ⟨List.forall_mem_cons.2 ⟨⟨hlink.1 ▸ ho, hformed⟩, hlinks⟩, ?_⟩
      rw [Tail.mapOperands, List.map_cons, ← Tail.mapOperands, hmap, ← hlink.1, heval]
      rfl
  refine ⟨⟨hx, hoperands.1⟩, ?_⟩
  rw [hvalue, hoperands.2, Phrase.eval_chained]

/-- **A row of one layer is settled** to an item that stands for all of it. -/
theorem Matches.settle (h : Matches (Stands V) tail links) (hq : Stands V q x) {k : Nat}
    (htail : ∀ link ∈ tail, link.1.joins k) :
    ∃ z, settle (layerOps k) (row (some x) links) = [z] ∧
      Stands V (Phrase.chained q tail) z := by
  obtain ⟨z, hz, hgroup, hformed⟩ := exists_settle_row (V := V) (h.isRow hq htail)
  refine ⟨z, hz, hgroup, ?_, fun hsigns => ?_⟩
  · rw [← hz, flatten_settle, h.flatten_row hq]
  · obtain ⟨hrow, hvalue⟩ := h.formed hq htail hsigns
    obtain ⟨hz, heval⟩ := hformed hrow
    exact ⟨hz, heval.trans hvalue⟩

/-- Brackets around a single item. -/
theorem Item.Stands.region {b : Bounds} (hb : b.Written) {z : Item} (h : Stands V q z) :
    Stands V (.region b q) (.group b [z]) := by
  refine ⟨rfl, ?_, fun hsigns => ?_⟩
  · rw [flatten_singleton_group, h.flatten_eq, Phrase.tokens]
  · obtain ⟨hformed, hvalue⟩ := h.formed hsigns
    exact ⟨.region hb hformed, by rw [eval_region hb, hvalue, Phrase.eval]⟩

end Stands

/-! ### Phrases spread over a level -/

/-- **A phrase spread over a level**: each part of it that binds at layer `n` is an item to which
`R` relates it, and the operators that bind more loosely stand between the items. -/
inductive Spread (R : Phrase → Item → Prop) (n : Nat) : Phrase → Option Item → Tail Item → Prop
  | piece {q : Phrase} {x : Item} (hq : q.Binds n) (hx : R q x) : Spread R n q (some x) []
  | signed {s : Token} {p : Phrase} {x : Item} {links : Tail Item} (hs : s.isSign)
      (hp : p.Binds 2) (h : Spread R n p (some x) links) :
      Spread R n (.signed s p) none ((s, x) :: links)
  | binary {l r : Phrase} {o : Token} {k : Nat} {first : Option Item} {y : Item}
      {links links' : Tail Item} (hk : k < n) (hl : l.Binds k) (ho : o.joins k)
      (hr : r.Binds (k + 1)) (hleft : Spread R n l first links)
      (hright : Spread R n r (some y) links') :
      Spread R n (.binary l o r) first (links ++ (o, y) :: links')

namespace Spread

variable {K : Type*} [Field K] [DecidableEq K] {R : Phrase → Item → Prop} {n : Nat} {p : Phrase}
  {first : Option Item} {links : Tail Item}

/-- A phrase of the layer is a single item. -/
theorem of_binds (h : Spread R n p first links) (hn : 2 ≤ n) (hp : p.Binds n) :
    ∃ x, first = some x ∧ links = [] ∧ R p x := by
  cases h with
  | piece hq hx => exact ⟨_, rfl, rfl, hx⟩
  | signed =>
    cases hp with
    | signed hn1 => omega
  | binary hk _ ho =>
    cases hp with
    | binary hnk _ ho' _ =>
      obtain rfl := Token.joins_unique ho ho'
      omega

/-- A product does not start with a sign. -/
theorem exists_first (h : Spread R n p first links) (hp : p.Binds 2) : ∃ x, first = some x := by
  induction h with
  | piece => exact ⟨_, rfl⟩
  | signed =>
    cases hp with
    | signed hn1 => omega
  | binary _ hl ho _ _ _ ihl _ =>
    cases hp with
    | binary h2 _ ho' _ =>
      obtain rfl := Token.joins_unique ho ho'
      exact ihl (hl.mono h2)

theorem exists_first_of_signs (h : Spread R n p first links) (hsigns : p.signs = 0) :
    ∃ x, first = some x := by
  induction h with
  | piece => exact ⟨_, rfl⟩
  | signed => simp [Phrase.signs] at hsigns
  | binary _ _ _ _ _ _ ihl _ => exact ihl (Nat.add_eq_zero_iff.1 hsigns).1

theorem flatten_row {V : Valuation K} (h : Spread (Stands V) n p first links) :
    flatten (row first links) = p.tokens := by
  induction h with
  | piece _ hx => exact hx.flatten_eq
  | signed _ _ _ ih => rw [row_none_cons, flatten_token, ih, Phrase.tokens]
  | binary _ _ _ _ _ _ ihl ihr =>
    rw [row_append_cons, flatten_append, ihl, flatten_token, ihr, Phrase.tokens]

/-- A phrase of the next looser layer is a row of its operators. -/
theorem exists_chained {k : Nat} {x : Item} (h : Spread R (k + 1) p (some x) links) (hk : 1 ≤ k)
    (hp : p.Binds k) :
    ∃ q tail, p = Phrase.chained q tail ∧ R q x ∧ Matches R tail links ∧
      ∀ link ∈ tail, link.1.joins k := by
  generalize hfirst : some x = first at h
  induction h with
  | piece hq hx =>
    -- one phrase under one item, and no run behind it
    obtain rfl := Option.some.inj hfirst
    exact ⟨_, [], rfl, hx, .nil, by simp⟩
  | signed => exact absurd hfirst (Option.some_ne_none x)
  | @binary l r o k' first y links links' hk' hl ho hr hleft hright ihl _ =>
    -- the operator is of layer `k`, and so its right operand is a single item
    cases hp with
    | binary hkk _ ho' _ =>
      obtain rfl := Token.joins_unique ho ho'
      obtain rfl : k' = k := by omega
      obtain ⟨q, tail, rfl, hq, hmatch, htail⟩ := ihl hl hfirst
      obtain ⟨y', hy, rfl, hry⟩ := hright.of_binds (by omega) hr
      obtain rfl := Option.some.inj hy
      refine ⟨q, tail ++ [(o, r)], ?_, hq, ?_, ?_⟩
      · rw [Phrase.chained, Phrase.chained, List.foldl_append]
        rfl
      · exact List.rel_append hmatch (.cons ⟨rfl, hry⟩ .nil)
      · rw [List.forall_mem_append, List.forall_mem_singleton]
        exact ⟨htail, ho⟩

/-- **Settling a tier** turns each row of its operators into one item, if `R` allows for that. The
operators of the looser tiers stay where they are. -/
theorem settle {k : Nat} (hk : 2 ≤ k) (h : Spread R (k + 1) p first links)
    (hrow : ∀ q tail x links, R q x → Matches R tail links → (∀ link ∈ tail, link.1.joins k) →
      ∃ z, Item.settle (layerOps k) (row (some x) links) = [z] ∧ R (Phrase.chained q tail) z) :
    ∃ first' links', Item.settle (layerOps k) (row first links) = row first' links' ∧
      Spread R k p first' links' := by
  induction h with
  | @piece q x hq hx => exact ⟨some x, [], settle_singleton x, .piece (hq.mono k.le_succ) hx⟩
  | @signed s p x links hs hp _ ih =>
    -- the sign is of layer `1`
    obtain ⟨hoperand, hops⟩ := Token.stops_of_joins (j := 1) (k := k) hs (by omega)
    obtain ⟨first', links', hsettle, hspread⟩ := ih
    obtain ⟨x', rfl⟩ := hspread.exists_first hp
    refine ⟨none, (s, x') :: links', ?_, .signed hs hp hspread⟩
    have happend := settle_append hoperand hops [] (row (some x) links)
    rwa [settle_nil, hsettle] at happend
  | @binary l r o k' first y links links' hk' hl ho hr hleft hright ihl ihr =>
    by_cases hlayer : k' = k
    · subst hlayer
      -- an operator of the tier: the whole phrase is one row
      have hbinds : (Phrase.binary l o r).Binds k' := .binary le_rfl hl ho hr
      have hall : Spread R (k' + 1) (.binary l o r) first (links ++ (o, y) :: links') :=
        .binary hk' hl ho hr hleft hright
      obtain ⟨x, rfl⟩ := hall.exists_first (hbinds.mono hk)
      obtain ⟨q, tail, hchained, hq, hmatch, htail⟩ := hall.exists_chained (by omega) hbinds
      obtain ⟨z, hz, hrz⟩ := hrow q tail x _ hq hmatch htail
      rw [← hchained] at hrz
      exact ⟨some z, [], hz, .piece hbinds hrz⟩
    · -- an operator of a looser layer, so both sides settle apart
      obtain ⟨hoperand, hops⟩ := Token.stops_of_joins ho hlayer
      obtain ⟨first₁, links₁, hleft', hspread₁⟩ := ihl
      obtain ⟨first₂, links₂, hright', hspread₂⟩ := ihr
      have hk := Token.joins_bounds ho
      obtain ⟨y', rfl⟩ := hspread₂.exists_first (hr.mono (by omega))
      refine ⟨first₁, links₁ ++ (o, y') :: links₂, ?_,
        .binary (by omega) hl ho hr hspread₁ hspread₂⟩
      rw [row_append_cons, settle_append hoperand hops, hleft', hright', row_append_cons]

end Spread

end Formula
