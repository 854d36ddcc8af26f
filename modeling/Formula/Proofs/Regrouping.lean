import Formula.Tier

/-!
# Regrouping is invisible to flattening

Flattening keeps a list of what is still to be written. Whatever that list holds, what it writes is
what the recursion on the items writes (`Item.flatten_eq_tokensAll`): the tokens of one item behind
those of the other, and the tokens of a group between what stands around it.

So making a group of an operator and its operands changes nothing about the tokens. All that a pass
does is to make such groups: it is a sequence of steps of `Item.Regroups`, and so are the passes
that settle a level. What one grouping keeps is therefore kept by all of them.
-/

namespace Formula

namespace Item

/-! ### Writing items out -/

mutual

/-- The tokens that an item stands for, by recursion on the item: a token for itself, and a group
for what it holds between what is written around it. -/
def tokens : Item → List Token
  | token t => [t]
  | group bounds items => bounds.front ++ tokensAll items ++ bounds.back

/-- The tokens that a list of items stands for. -/
def tokensAll : List Item → List Token
  | [] => []
  | item :: items => item.tokens ++ tokensAll items

end

@[simp] theorem tokensAll_append (xs ys : List Item) :
    tokensAll (xs ++ ys) = tokensAll xs ++ tokensAll ys := by
  induction xs with
  | nil => rw [List.nil_append, tokensAll, List.nil_append]
  | cons x xs ih => rw [List.cons_append, tokensAll, ih, tokensAll, List.append_assoc]

@[simp] theorem tokensAll_map_token (ts : List Token) : tokensAll (ts.map token) = ts := by
  induction ts with
  | nil => rw [List.map_nil, tokensAll]
  | cons t ts ih => rw [List.map_cons, tokensAll, tokens, ih, List.singleton_append]

/-- **The pending items**, closing brackets among them, are written one behind the other. -/
theorem flatten_eq_tokensAll (items : List Item) : flatten items = tokensAll items := by
  fun_induction flatten items with
  | case1 => rw [tokensAll]
  | case2 t items ih => rw [ih, tokensAll, tokens, List.singleton_append]
  | case3 bounds contents items ih =>
    -- the contents of the group and its closing bracket are in front of what was pending
    calc bounds.front ++ flatten (contents ++ (bounds.back.map token ++ items))
        = bounds.front ++ (tokensAll contents ++ (bounds.back ++ tokensAll items)) := by
          rw [ih, tokensAll_append, tokensAll_append, tokensAll_map_token]
      _ = tokensAll (group bounds contents :: items) := by
          rw [tokensAll, tokens, List.append_assoc, List.append_assoc]

theorem flatten_append (xs ys : List Item) : flatten (xs ++ ys) = flatten xs ++ flatten ys := by
  rw [flatten_eq_tokensAll, tokensAll_append, flatten_eq_tokensAll, flatten_eq_tokensAll]

@[simp] theorem flatten_map_token (ts : List Token) : flatten (ts.map token) = ts := by
  rw [flatten_eq_tokensAll, tokensAll_map_token]

/-- **A group is written** between what is around it. -/
theorem flatten_cons_group (b : Bounds) (contents items : List Item) :
    flatten (group b contents :: items) =
      b.front ++ flatten contents ++ b.back ++ flatten items := by
  rw [flatten_eq_tokensAll, tokensAll, tokens, flatten_eq_tokensAll, flatten_eq_tokensAll]

theorem flatten_singleton_group (b : Bounds) (contents : List Item) :
    flatten [group b contents] = b.front ++ flatten contents ++ b.back := by
  rw [flatten_cons_group, flatten_nil, List.append_nil]

theorem flatten_cons (x : Item) (items : List Item) :
    flatten (x :: items) = flatten [x] ++ flatten items :=
  flatten_append [x] items

/-- Nothing is written around an operation. -/
theorem flatten_operation (l o r : Item) :
    flatten [operation l o r] = flatten [l, o, r] := by
  rw [operation, flatten_singleton_group, Bounds.front, Bounds.back, List.nil_append,
    List.append_nil]

/-! ### Steps of a pass -/

/-- **Regrouping.** Operators of `ops` are put into groups with the operands beside them, one after
the other. -/
inductive Regroups (ops : List String) : List Item → List Item → Prop
  | refl (items : List Item) : Regroups ops items items
  | step {xs ys out : List Item} {l o r : Item} (ho : o.isOperatorIn ops)
      (hl : l.isOperandOrGroup) (hr : r.isOperandOrGroup)
      (h : Regroups ops (xs ++ operation l o r :: ys) out) :
      Regroups ops (xs ++ l :: o :: r :: ys) out

namespace Regroups

variable {ops : List String} {xs ys zs : List Item}

theorem trans (h : Regroups ops xs ys) (h' : Regroups ops ys zs) : Regroups ops xs zs := by
  induction h with
  | refl => exact h'
  | step ho hl hr _ ih => exact .step ho hl hr (ih h')

/-- What a single step keeps is kept. -/
theorem keeps {motive : List Item → Prop} (h : Regroups ops xs ys)
    (hstep : ∀ (xs ys : List Item) (l o r : Item), o.isOperatorIn ops → l.isOperandOrGroup →
      r.isOperandOrGroup → motive (xs ++ l :: o :: r :: ys) → motive (xs ++ operation l o r :: ys))
    (hxs : motive xs) : motive ys := by
  induction h with
  | refl => exact hxs
  | @step xs ys out l o r ho hl hr _ ih => exact ih (hstep xs ys l o r ho hl hr hxs)

/-- **Regrouping does not change the tokens.** -/
theorem flatten_eq (h : Regroups ops xs ys) : flatten ys = flatten xs := by
  refine h.keeps (motive := fun items => flatten items = flatten xs) ?_ rfl
  -- one grouping: the operation stands for the tokens of its three items
  intro us vs l o r _ _ _ hflat
  calc flatten (us ++ operation l o r :: vs)
      = flatten us ++ (flatten [operation l o r] ++ flatten vs) := by
        rw [flatten_append, flatten_cons]
    _ = flatten us ++ flatten ([l, o, r] ++ vs) := by rw [flatten_operation, ← flatten_append]
    _ = flatten xs := by rw [← flatten_append, ← hflat]; rfl

end Regroups

/-! ### Passes regroup -/

/-- What a pass has behind it and in front of it is regrouped from there on. -/
theorem regroups_passFrom (ops : List String) (passed : List Passed) (items : List Item) :
    Regroups ops ((passed.map Passed.item).reverse ++ items) (passFrom ops passed items) := by
  fun_induction passFrom ops passed items with
  | case1 left passed operator right items hguard ih =>
    simp only [Bool.and_eq_true, takesLeft] at hguard
    -- the three items are what the group is made of, wherever the pass has been before
    obtain ⟨⟨hoperator, hleft, -⟩, hright⟩ := hguard
    have hstep : Regroups ops
        ((passed.map Passed.item).reverse ++ left.item :: operator :: right :: items) _ :=
      .step hoperator hleft hright (by simpa using ih)
    simpa using hstep
  | case2 left passed operator right items _ ih => simpa using ih
  | case3 passed item items _ ih => simpa using ih
  | case4 passed => simpa using .refl _

theorem regroups_pass (ops : List String) (items : List Item) :
    Regroups ops items (pass ops items) :=
  regroups_passFrom ops [] items

/-- A step puts one item in the place of three. -/
theorem Regroups.eq_or_add_two_le {ops : List String} {xs ys : List Item}
    (h : Regroups ops xs ys) : ys = xs ∨ ys.length + 2 ≤ xs.length := by
  induction h with
  | refl => exact .inl rfl
  | @step xs ys out l o r _ _ _ _ ih =>
    right
    simp only [List.length_append, List.length_cons] at ih ⊢
    rcases ih with rfl | ih
    · simp
      omega
    · omega

/-- **A pass that groups nothing** changes nothing. -/
theorem pass_eq_self {ops : List String} {items : List Item}
    (h : ¬ (pass ops items).length < items.length) : pass ops items = items :=
  (regroups_pass ops items).eq_or_add_two_le.resolve_right fun hle => h (by omega)

theorem regroups_settle (ops : List String) (items : List Item) :
    Regroups ops items (settle ops items) := by
  fun_induction settle ops items with
  | case1 items next _ ih => exact (regroups_pass ops items).trans ih
  | case2 items next _ => exact regroups_pass ops items

theorem flatten_settle (ops : List String) (items : List Item) :
    flatten (settle ops items) = flatten items :=
  (regroups_settle ops items).flatten_eq

end Item

/-- **Regrouping is invisible.** However the items are nested, flattening them with a list of what
is pending writes the tokens that recursion finds in them, and settling a tier of any operators
changes nothing about what is written. -/
theorem regrouping_invisible :
    (∀ items : List Item, Item.flatten items = Item.tokensAll items) ∧
      ∀ (ops : List String) (items : List Item),
        Item.flatten (Item.settle ops items) = Item.flatten items :=
  ⟨Item.flatten_eq_tokensAll, Item.flatten_settle⟩

end Formula
