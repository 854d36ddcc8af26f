import Formula.Tree

/-!
# Walks through a tree

The depth and the text of a tree are found by walks that keep a list of what is still to be visited,
where one would otherwise use recursion. Such a walk is in the middle of many trees at once, so what
it finds is said of any pending list:

* `Tree.depthFrom_eq`: the depth is the greatest one that the walk has met or can reach from one of
  the pending trees, each of which reaches as far below its root as it is high (`Tree.height`);
* `Tree.renderFrom_eq`: the text is what has been written and behind it the texts of the pending
  parts, each as recursion spells it (`Tree.spell`).

A walk starts with a single tree, and then it finds what recursion finds (`walks_agree`).
-/

namespace Formula

namespace Tree

/-! ### Depth -/

/-- The height of a tree, by recursion on the tree. -/
def height : Tree → Nat
  | leaf _ => 0
  | unary _ arg => arg.height + 1
  | binary _ left right => max left.height right.height + 1

/-- The depth of the deepest node of a tree whose root is as deep as it is given with. -/
def reach (pending : Tree × Nat) : Nat :=
  pending.1.height + pending.2

/-- A function reaches as deep as its argument, which lies one step below it. -/
theorem reach_unary (value : String) (arg : Tree) (depth : Nat) :
    reach (unary value arg, depth) = reach (arg, depth + 1) := by
  simp only [reach, height]
  omega

/-- An operator reaches as deep as the deeper one of its operands. -/
theorem reach_binary (value : String) (left right : Tree) (depth : Nat) :
    reach (binary value left right, depth) =
      max (reach (left, depth + 1)) (reach (right, depth + 1)) := by
  simp only [reach, height]
  omega

/-- No root is deeper than its tree reaches. -/
theorem le_reach (t : Tree) (depth : Nat) : depth ≤ reach (t, depth) :=
  Nat.le_add_left ..

/-- **The pending trees** are visited down to where they reach. -/
theorem depthFrom_eq (deepest : Nat) (pending : List (Tree × Nat)) :
    depthFrom deepest pending = pending.foldl (fun deepest p => max deepest (reach p)) deepest := by
  fun_induction depthFrom deepest pending with
  | case1 deepest => rfl
  | case2 deepest value depth pending ih => simpa [reach, height] using ih
  | case3 deepest value arg depth pending ih =>
    have harg := le_reach arg (depth + 1)
    have hmax : max (max deepest depth) (reach (arg, depth + 1)) =
        max deepest (reach (unary value arg, depth)) := by
      rw [reach_unary]
      omega
    rw [ih, List.foldl_cons, List.foldl_cons, hmax]
  | case4 deepest value left right depth pending ih =>
    -- the right operand is visited first, and the root is above both
    have hleft := le_reach left (depth + 1)
    have hmax : max (max (max deepest depth) (reach (right, depth + 1)))
          (reach (left, depth + 1)) =
        max deepest (reach (binary value left right, depth)) := by
      rw [reach_binary]
      omega
    rw [ih, List.foldl_cons, List.foldl_cons, List.foldl_cons, hmax]

theorem depth_eq (t : Tree) : t.depth = t.height := by
  rw [depth, depthFrom_eq, List.foldl_cons, List.foldl_nil, Nat.zero_max]
  rfl

/-! ### Text -/

/-- The text of a tree, by recursion on the tree. -/
def spell : Tree → String
  | leaf value => value
  | unary value arg => value ++ "(" ++ arg.spell ++ ")"
  | binary value left right => "(" ++ left.spell ++ value ++ right.spell ++ ")"

/-- The text of a part that is still to be written. -/
def Part.spell : Part → String
  | tree t => t.spell
  | text s => s

/-- **The pending parts** are written one behind the other. -/
theorem renderFrom_eq (written : String) (pending : List Part) :
    renderFrom written pending = pending.foldl (fun text part => text ++ part.spell) written := by
  fun_induction renderFrom written pending with
  | case1 written => rfl
  | case2 written s pending ih => exact ih
  | case3 written value pending ih => exact ih
  | case4 written value arg pending ih =>
    rw [ih]
    simp [Part.spell, spell, String.append_assoc]
  | case5 written value left right pending ih =>
    rw [ih]
    simp [Part.spell, spell, String.append_assoc]

theorem render_eq (t : Tree) : t.render = t.spell := by
  rw [render, renderFrom_eq]
  exact String.empty_append

end Tree

/-- **The walks find what recursion finds**, the height of a tree and its text. -/
theorem walks_agree (t : Tree) : t.depth = t.height ∧ t.render = t.spell :=
  ⟨t.depth_eq, t.render_eq⟩

end Formula
