import Formula.Proofs.Nested
import Formula.Proofs.Relabelling

/-!
# Grouping keeps what is written

Grouping and writing out again changes operators and puts brackets around chains. All else stays as
it is, in the order in which it is written, and that holds of any token list: with brackets that
have no partner, with names that call nothing, with operators in a row. What comes to it is pairs of
brackets, each at the place of a `/` or a `-` of the list (`Padded`).

While items are put together, each of them stands for a part of the tokens (`Carries`): written
out, and without operators, it is that part with pairs of brackets put in. The parts of the items of
a level make up the tokens of the level (`Carried`). A step of a pass joins three parts that stand
side by side, and replacing a chain joins those of its operands and puts a pair around them. Neither
asks what the items are, so stray tokens are carried along like any others.

* `Carried.settle`, `Carried.joinChains`, `Carried.arrange` — a level keeps what it carries;
* `carried_nest` — at the start the items carry the tokens themselves;
* `normalize_keeps` — what that says of the tokens written in the end.
-/

namespace Formula

/-! ### Tokens with pairs of brackets put in -/

/-- The tokens but for the operators. -/
def withoutOperators (ts : List Token) : List Token :=
  ts.filter fun t => t.kind != .operator

@[simp] theorem withoutOperators_nil : withoutOperators [] = [] := rfl

@[simp] theorem withoutOperators_append (xs ys : List Token) :
    withoutOperators (xs ++ ys) = withoutOperators xs ++ withoutOperators ys :=
  List.filter_append ..

theorem withoutOperators_cons (t : Token) (ts : List Token) :
    withoutOperators (t :: ts) = withoutOperators [t] ++ withoutOperators ts :=
  withoutOperators_append [t] ts

theorem withoutOperators_of_operator {t : Token} (h : t.kind = .operator) :
    withoutOperators [t] = [] := by
  simp [withoutOperators, h]

/-- **Padding.** The second list is the first with pairs of brackets put in: each pair encloses what
lies between, and both its brackets have one of the places in `P`. -/
inductive Padded (P : Nat → Prop) : List Token → List Token → Prop
  | nil : Padded P [] []
  | token (t : Token) : Padded P [t] [t]
  | pair {xs ys : List Token} {p : Nat} (hp : P p) (h : Padded P xs ys) :
      Padded P xs (⟨.openBracket, "(", p⟩ :: ys ++ [⟨.closeBracket, ")", p⟩])
  | append {xs ys xs' ys' : List Token} (h : Padded P xs ys) (h' : Padded P xs' ys') :
      Padded P (xs ++ xs') (ys ++ ys')

namespace Padded

variable {P : Nat → Prop} {xs ys : List Token}

theorem refl (xs : List Token) : Padded P xs xs := by
  induction xs with
  | nil => exact .nil
  | cons t xs ih => exact (token t).append ih

/-- Nothing is taken away. -/
theorem sublist (h : Padded P xs ys) : xs.Sublist ys := by
  induction h with
  | nil => exact .slnil
  | token t => exact .refl _
  | pair _ _ ih => exact (ih.trans (List.sublist_append_left _ _)).cons _
  | append _ _ ih ih' => exact ih.append ih'

/-- **Only brackets are put in**, so tokens that are none stay the same. -/
theorem filter_eq (h : Padded P xs ys) {p : Token → Bool}
    (hp : ∀ t : Token, p t → ¬ t.isOpen ∧ ¬ t.isClose) : ys.filter p = xs.filter p := by
  induction h with
  | nil => rfl
  | token t => rfl
  | @pair xs ys n _ _ ih =>
    have hopen : ¬ p ⟨.openBracket, "(", n⟩ := fun h => (hp _ h).1 rfl
    have hclose : ¬ p ⟨.closeBracket, ")", n⟩ := fun h => (hp _ h).2 rfl
    rw [List.cons_append, List.filter_cons_of_neg hopen, List.filter_append,
      List.filter_cons_of_neg hclose, List.filter_nil, List.append_nil, ih]
  | append _ _ ih ih' => rw [List.filter_append, List.filter_append, ih, ih']

theorem eq_nil (h : Padded P xs []) : xs = [] :=
  List.sublist_nil.1 h.sublist

end Padded

/-! ### What items carry -/

/-- An operator whose chains are put in brackets. -/
def Token.chains (t : Token) : Bool :=
  t.isOperatorIn ["/", "-"]

theorem Token.kind_of_isOperator {t : Token} {op : String} (h : t.isOperator op) :
    t.kind = .operator := by
  rw [isOperator, Bool.and_eq_true, beq_iff_eq] at h
  exact h.1

namespace Item

/-- **An item carries tokens**: it is written as these with pairs of brackets put in, if operators
do not count. An operator that may head a chain has one of the places for brackets. -/
structure Carries (P : Nat → Prop) (item : Item) (ts : List Token) : Prop where
  padded : Padded P ts (withoutOperators (flatten [item]))
  place : ∀ t ∈ item.token?, t.chains → P t.position

/-- The items of a level carry tokens, one after the other. -/
inductive Carried (P : Nat → Prop) : List Item → List Token → Prop
  | nil : Carried P [] []
  | cons {item : Item} {items : List Item} {us vs : List Token} (h : Carries P item us)
      (h' : Carried P items vs) : Carried P (item :: items) (us ++ vs)

variable {P : Nat → Prop}

theorem carries_token {t : Token} (h : t.chains → P t.position) :
    Carries P (token t) (withoutOperators [t]) where
  padded := by
    rw [flatten_token, flatten_nil]
    exact .refl _
  place u hu := by
    obtain rfl : t = u := Option.some.inj hu
    exact h

/-- An operator carries nothing. -/
theorem Carries.eq_nil {t : Token} {ts : List Token} (h : Carries P (token t) ts)
    (ht : t.kind = .operator) : ts = [] := by
  have hpadded := h.padded
  rw [flatten_token, flatten_nil, withoutOperators_of_operator ht] at hpadded
  exact hpadded.eq_nil

/-- What is written around a group stays, and the group carries it together with its contents. -/
theorem carries_group (b : Bounds) {items : List Item} {ts : List Token}
    (h : Padded P ts (withoutOperators (flatten items))) :
    Carries P (group b items) (withoutOperators b.front ++ ts ++ withoutOperators b.back) where
  padded := by
    rw [flatten_singleton_group, withoutOperators_append, withoutOperators_append]
    exact ((Padded.refl _).append h).append (.refl _)
  place u hu := by simp [token?] at hu

/-- A group in brackets that are not written carries what its contents do. -/
theorem carries_bracketed {p : Nat} (hp : P p) {items : List Item} {ts : List Token}
    (h : Padded P ts (withoutOperators (flatten items))) : Carries P (bracketed p items) ts where
  padded := by
    rw [bracketed, flatten_singleton_group]
    simp only [Bounds.front, Bounds.back, withoutOperators_append]
    exact .pair hp h
  place u hu := by simp [bracketed, token?] at hu

namespace Carried

variable {items later : List Item} {ts us : List Token}

theorem append (h : Carried P items ts) (h' : Carried P later us) :
    Carried P (items ++ later) (ts ++ us) := by
  induction h with
  | nil => exact h'
  | cons hitem _ ih =>
    rw [List.append_assoc]
    exact .cons hitem ih

/-- An item that carries nothing may come in front. -/
theorem cons_nil {item : Item} (h : Carries P item []) (h' : Carried P items ts) :
    Carried P (item :: items) ts :=
  .cons h h'

theorem exists_of_cons {item : Item} (h : Carried P (item :: items) ts) :
    ∃ us vs, ts = us ++ vs ∧ Carries P item us ∧ Carried P items vs := by
  cases h with
  | cons hitem hitems => exact ⟨_, _, rfl, hitem, hitems⟩

theorem exists_of_append (h : Carried P (items ++ later) ts) :
    ∃ us vs, ts = us ++ vs ∧ Carried P items us ∧ Carried P later vs := by
  induction items generalizing ts with
  | nil => exact ⟨[], ts, rfl, .nil, h⟩
  | cons item items ih =>
    obtain ⟨us, vs, rfl, hitem, hrest⟩ := exists_of_cons h
    obtain ⟨us', vs', rfl, hitems, hlater⟩ := ih hrest
    exact ⟨us ++ us', vs', (List.append_assoc ..).symm, .cons hitem hitems, hlater⟩

/-- **Written out**, a level is what it carries with pairs of brackets put in. -/
theorem padded (h : Carried P items ts) : Padded P ts (withoutOperators (flatten items)) := by
  induction h with
  | nil =>
    rw [flatten_nil]
    exact .nil
  | cons hitem _ ih =>
    rw [flatten_cons, withoutOperators_append]
    exact hitem.padded.append ih

/-! ### Settling -/

/-- **One step of a pass** joins what three items carry. -/
theorem operation {l o r : Item} (h : Carried P (items ++ l :: o :: r :: later) ts) :
    Carried P (items ++ Item.operation l o r :: later) ts := by
  obtain ⟨us, vs, rfl, hitems, hrest⟩ := exists_of_append h
  have hrest : Carried P ([l, o, r] ++ later) vs := hrest
  obtain ⟨vs, ws, rfl, hthree, hlater⟩ := exists_of_append hrest
  refine hitems.append (.cons ⟨?_, fun t ht => ?_⟩ hlater)
  · rw [flatten_operation]
    exact hthree.padded
  · simp [Item.operation, token?] at ht

/-- **Settling a tier** keeps what a level carries. -/
theorem settle (h : Carried P items ts) (ops : List String) :
    Carried P (Item.settle ops items) ts :=
  (regroups_settle ops items).keeps (motive := fun items => Carried P items ts)
    (fun _ _ _ _ _ _ _ _ hstep => hstep.operation) h

theorem settleTiers (h : Carried P items ts) : Carried P (Item.settleTiers items) ts :=
  ((h.settle _).settle _).settle _

/-! ### Chains -/

/-- An operator in front of a level carries nothing of it. -/
theorem of_operator {t : Token} (h : Carried P (token t :: items) ts) (ht : t.kind = .operator) :
    Carried P items ts := by
  obtain ⟨us, vs, rfl, htoken, hitems⟩ := exists_of_cons h
  rwa [htoken.eq_nil ht, List.nil_append]

/-- The links of a chain carry what their operands do. -/
theorem links (h : Carried P items ts) (op : String) :
    ∃ us vs, ts = us ++ vs ∧ Carried P ((Item.links op items).1.filterMap Link.operand) us ∧
      Carried P (Item.links op items).2 vs := by
  fun_induction Item.links op items generalizing ts with
  | case1 t operand items hop later rest hlinks ih =>
    obtain ⟨us, vs, rfl, hoperand, hitems⟩ :=
      exists_of_cons (h.of_operator (Token.kind_of_isOperator hop))
    obtain ⟨us', vs', rfl, hlater, hrest⟩ := ih hitems
    rw [hlinks] at hlater hrest
    exact ⟨us ++ us', vs', (List.append_assoc ..).symm, .cons hoperand hlater, hrest⟩
  | case2 t operand items hop => exact ⟨[], ts, rfl, .nil, h⟩
  | case3 t hop =>
    exact ⟨[], ts, rfl, .nil, h.of_operator (Token.kind_of_isOperator hop)⟩
  | case4 t hop => exact ⟨[], ts, rfl, .nil, h⟩
  | case5 items _ _ => exact ⟨[], ts, rfl, .nil, h⟩

/-- A joiner carries nothing and heads no chain. -/
theorem carries_joiner {joiner : String} (hjoiner : joiner ∉ ["/", "-"]) (position : Nat) :
    Carries P (token ⟨.operator, joiner, position⟩) [] := by
  refine carries_token (t := ⟨.operator, joiner, position⟩) fun h => absurd ?_ hjoiner
  simpa [Token.chains, Token.isOperatorIn] using h

/-- **Joining operands** keeps what they carry. -/
theorem joined {c : Chain} {joiner : String} (hjoiner : joiner ∉ ["/", "-"])
    (h : Carried P c.operands ts) : Carried P (c.joined joiner) ts := by
  obtain ⟨operator, first, links⟩ := c
  obtain ⟨us, vs, rfl, hfirst, hlinks⟩ := exists_of_cons h
  -- a link without an operand has no joiner either, so nothing falls out of step
  refine .cons hfirst ?_
  clear h hfirst
  induction links generalizing vs with
  | nil => exact hlinks
  | cons link links ih =>
    rw [List.flatMap_cons]
    -- a dangling operator
    cases hlink : link.operand with
    | none =>
      rw [List.filterMap_cons_none hlink] at hlinks
      exact ih _ hlinks
    | some operand =>
      rw [List.filterMap_cons_some hlink] at hlinks
      obtain ⟨vs, ws, rfl, hoperand, hrest⟩ := exists_of_cons hlinks
      exact .cons_nil (carries_joiner hjoiner _) (.cons hoperand (ih _ hrest))

/-- **Replacing chains** keeps what a level carries. -/
theorem joinChains {op joiner : String} (hop : op ∈ ["/", "-"]) (hjoiner : joiner ∉ ["/", "-"])
    (h : Carried P items ts) : Carried P (Item.joinChains op joiner items) ts := by
  rw [Item.joinChains]
  fun_induction segments op items generalizing ts with
  | case1 t operand items ht hlinks ih =>
    -- a single operator and the item behind it
    obtain ⟨us, vs, rfl, htoken, hrest⟩ := exists_of_cons h
    obtain ⟨vs, ws, rfl, hoperand, hitems⟩ := exists_of_cons hrest
    exact .cons htoken (.cons hoperand (ih hitems))
  | case2 t operand items ht hlinks ih =>
    -- a chain: its brackets have the place of its first operator
    obtain ⟨us, vs, rfl, htoken, hrest⟩ := exists_of_cons h
    obtain ⟨vs, ws, rfl, hoperand, hitems⟩ := exists_of_cons hrest
    obtain ⟨ws, xs, rfl, hlinks, hbehind⟩ := hitems.links op
    have hchains : t.chains := by
      rw [Token.chains, Token.isOperatorIn_of_isOperator ht]
      exact List.contains_iff_mem.2 hop
    have hjoined : Carried P (Chain.joined ⟨t, operand, (Item.links op items).1⟩ joiner)
        (vs ++ ws) := joined hjoiner (.cons hoperand hlinks)
    have hgroup := carries_bracketed (htoken.place t rfl hchains) hjoined.settleTiers.padded
    rw [← List.append_assoc vs]
    exact .cons htoken (.cons hgroup (ih hbehind))
  | case3 t operand items ht ih =>
    obtain ⟨us, vs, rfl, htoken, hrest⟩ := exists_of_cons h
    exact .cons htoken (ih hrest)
  | case4 item items hshape ih =>
    obtain ⟨us, vs, rfl, hitem, hrest⟩ := exists_of_cons h
    exact .cons hitem (ih hrest)
  | case5 => exact h

theorem arrange (h : Carried P items ts) : Carried P (Item.arrange items) ts :=
  (((((h.settle _).joinChains (by decide) (by decide)).settle _).joinChains (by decide)
    (by decide)).settle _)

end Carried

end Item

open Item

/-! ### All levels -/

/-- **The items of a formula carry its tokens**, level by level. -/
theorem carried_nest {P : Nat → Prop} {ts : List Token} (h : ∀ t ∈ ts, t.chains → P t.position) :
    Carried P (arrangeEach (nest ts)) (withoutOperators ts) := by
  fun_induction nest ts with
  | case1 ts region hregion ihcontents ihrest =>
    -- the contents are a level of their own, between what is written around them
    have hts := eq_append_of_region? hregion
    have hcontents := ihcontents fun t ht => h t (by simp [hts, ht])
    have hrest := ihrest fun t ht => h t (by simp [hts, ht])
    have hgroup := carries_group region.bounds hcontents.arrange.padded
    rw [hts]
    simp only [withoutOperators_append]
    exact .cons hgroup hrest
  | case2 => exact .nil
  | case3 t ts hregion ih =>
    rw [withoutOperators_cons]
    exact .cons (carries_token (h t List.mem_cons_self))
      (ih fun u hu => h u (List.mem_cons_of_mem t hu))

/-- **Grouping keeps what is written.** Of any token list, the operands and the function names come
out as they are and in order, and so does everything but the operators, with nothing put in between
but pairs of brackets at places of a `/` or a `-`. -/
theorem normalize_keeps (ts : List Token) :
    (normalize ts).filter Token.isOperandLike = ts.filter Token.isOperandLike ∧
      (withoutOperators ts).Sublist (withoutOperators (normalize ts)) ∧
      Padded (fun p => ∃ t ∈ ts, t.chains ∧ t.position = p) (withoutOperators ts)
        (withoutOperators (normalize ts)) := by
  have hpadded : Padded (fun p => ∃ t ∈ ts, t.chains ∧ t.position = p) (withoutOperators ts)
      (withoutOperators (normalize ts)) :=
    (carried_nest fun t ht hchains => ⟨t, ht, hchains, rfl⟩).arrange.padded
  refine ⟨?_, hpadded.sublist, hpadded⟩
  -- operators and brackets are neither operands nor names
  have hoperators (xs : List Token) :
      (withoutOperators xs).filter Token.isOperandLike = xs.filter Token.isOperandLike := by
    rw [withoutOperators, List.filter_filter]
    refine List.filter_congr fun t _ => ?_
    cases hkind : t.kind <;> simp [Token.isOperandLike, Token.isOperand, hkind]
  rw [← hoperators, ← hoperators ts]
  refine hpadded.filter_eq fun t ht => ?_
  cases hkind : t.kind <;>
    simp_all [Token.isOperandLike, Token.isOperand, Token.isOpen, Token.isClose]

/-- A chain may hold brackets without a partner, and end with an operator. -/
example : (normalize (tokenize "a-)-sin-").tokens).map Token.text =
    ["a", "-", "(", ")", "+", "sin", ")"] := by
  decide +kernel

end Formula
