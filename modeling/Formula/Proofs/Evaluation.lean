import Mathlib.Algebra.Field.Basic
import Formula.Proofs.Bracketing
import Formula.Proofs.Postorder

/-!
# Evaluation of phrases, trees and items

A formula is evaluated in a field. The words of it stand for anything, and so does the power; a
function or a power need not be defined everywhere, and there is no division by zero. What contains
something without a value has none itself.

The same operation can be carried out on three things: on a phrase, on a tree, and on the items that
a formula is put together to, provided that each group has the shape of an operation or of a region
(`Item.Formed`). The tree of a phrase without signs has the value of the phrase
(`Phrase.eval_tree`), and brackets around chains change no value (`Phrase.eval_bracketed`), since
dividing or subtracting one after the other is dividing by the product or subtracting the sum.
-/

namespace Formula

/-- What the words of a formula, and the power, stand for. -/
structure Valuation (K : Type*) where
  operand : String → K
  apply : String → K → Option K
  power : K → K → Option K

variable {K : Type*} [Field K] [DecidableEq K] (V : Valuation K)

namespace Valuation

/-- What an operator makes of its operands. -/
def operate (operator : String) (x y : K) : Option K :=
  match operator with
  | "+" => some (x + y)
  | "-" => some (x - y)
  | "*" => some (x * y)
  | "/" => if y = 0 then none else some (x / y)
  | _ => V.power x y

/-- An operation has a value only if both operands have. -/
def combine (operator : String) (x y : Option K) : Option K :=
  x.bind fun a => y.bind fun b => V.operate operator a b

/-- The value of a region whose contents have the value `x`. -/
def within (b : Bounds) (x : Option K) : Option K :=
  match b.function? with
  | some function => x.bind (V.apply function.text)
  | none => x

/-- Operators, each with its right operand, one after the other. -/
def chained (x : Option K) (tail : Tail (Option K)) : Option K :=
  tail.foldl (fun x link => V.combine link.1.text x link.2) x

end Valuation

/-! ### Values -/

/-- The value of a phrase. A sign stands between a zero and its operand. -/
def Phrase.eval : Phrase → Option K
  | operand t => some (V.operand t.text)
  | region b inner => V.within b inner.eval
  | signed sign inner => V.combine sign.text (some 0) inner.eval
  | binary left operator right => V.combine operator.text left.eval right.eval

/-- The value of a tree. -/
def Tree.eval : Tree → Option K
  | leaf value => some (V.operand value)
  | unary function arg => arg.eval.bind (V.apply function)
  | binary operator left right => V.combine operator left.eval right.eval

namespace Item

/-- The value of an item. A group that was made by the precedence of its operator is an operation;
any other group holds one item. -/
def eval : Item → Option K
  | token t => some (V.operand t.text)
  | group .implicit [left, token operator, right] =>
    V.combine operator.text left.eval right.eval
  | group (.brackets _ _) [item] => item.eval
  | group (.call function _ _) [item] => item.eval.bind (V.apply function.text)
  | group _ _ => none

/-- **The shape of an item.** An operand stands alone, a group that was made by the precedence of
its operator is an operator between two items, and any other group holds exactly one item. -/
inductive Formed : Item → Prop
  | operand {t : Token} (ht : t.isOperand) : Formed (token t)
  | operation {l r : Item} {o : Token} (hl : Formed l) (ho : o.isArithmetic) (hr : Formed r) :
      Formed (group .implicit [l, token o, r])
  | region {b : Bounds} {x : Item} (hb : b.Written) (hx : Formed x) : Formed (group b [x])

end Item

variable {V}

/-! ### Operators of one layer -/

namespace Valuation

@[simp] theorem combine_some (operator : String) (a b : K) :
    V.combine operator (some a) (some b) = V.operate operator a b := rfl

@[simp] theorem combine_none_left (operator : String) (y : Option K) :
    V.combine operator none y = none := rfl

@[simp] theorem combine_none_right (operator : String) (x : Option K) :
    V.combine operator x none = none := by
  cases x <;> rfl

/-- **Addition and multiplication associate** with every operator of their layer. -/
theorem combine_assoc {o o' : Token} {k : Nat} (hcommutes : o.isOperatorIn ["+", "*"])
    (ho : o.joins k) (ho' : o'.joins k) (x y z : Option K) :
    V.combine o'.text (V.combine o.text x y) z = V.combine o.text x (V.combine o'.text y z) := by
  -- without one of the values neither side has one
  rcases x with _ | a
  · rfl
  rcases y with _ | b
  · rfl
  rcases z with _ | c
  · simp
  have htext : o.text = "+" ∨ o.text = "*" := by
    simpa [Token.isOperatorIn, Token.kind_of_joins ho] using hcommutes
  -- the tiers of the two operators are the same, so the first is the `+` or the `*` of it
  obtain ⟨-, ⟨hk, ho'⟩ | ⟨hk, ho'⟩ | ⟨hk, ho'⟩⟩ := Token.joins_cases ho'
  · have hplus : o.text = "+" := by
      refine htext.resolve_right fun htimes => ?_
      simp [hk, Token.joins, Token.isOperatorIn, layerOps, htimes] at ho
    rcases ho' with ho' | ho' <;> rw [hplus, ho'] <;> simp [operate, add_assoc, add_sub_assoc]
  · have htimes : o.text = "*" := by
      refine htext.resolve_left fun hplus => ?_
      simp [hk, Token.joins, Token.isOperatorIn, layerOps, hplus] at ho
    rcases ho' with ho' | ho' <;> rw [htimes, ho']
    · simp [operate, mul_assoc]
    · -- a division by zero has no value on either side
      by_cases hc : c = 0 <;> simp [operate, hc, mul_div_assoc]
  · -- there is nothing of the kind among the powers
    rcases htext with htext | htext <;>
      simp [hk, Token.joins, Token.isOperatorIn, layerOps, htext] at ho

/-- **The law of a chain.** Dividing twice is dividing by the product, and subtracting twice is
subtracting the sum. -/
theorem combine_joiner (κ : Chaining) (x y z : Option K) :
    V.combine κ.op x (V.combine κ.joiner y z) = V.combine κ.op (V.combine κ.op x y) z := by
  rcases x with _ | a
  · rfl
  rcases y with _ | b
  · simp
  rcases z with _ | c
  · simp
  cases κ with
  | division =>
    -- a product is zero exactly if one of its factors is
    by_cases hb : b = 0 <;> by_cases hc : c = 0 <;>
      simp [Chaining.op, Chaining.joiner, operate, hb, hc, div_div]
  | subtraction => simp [Chaining.op, Chaining.joiner, operate, sub_sub]

theorem chained_cons (x : Option K) (link : Token × Option K) (tail : Tail (Option K)) :
    V.chained x (link :: tail) = V.chained (V.combine link.1.text x link.2) tail := rfl

/-- An addition or a multiplication in front of operators of its layer can be carried out last. -/
theorem chained_combine {o : Token} {k : Nat} (hcommutes : o.isOperatorIn ["+", "*"])
    (ho : o.joins k) {tail : Tail (Option K)} (htail : ∀ link ∈ tail, link.1.joins k)
    (x y : Option K) :
    V.chained (V.combine o.text x y) tail = V.combine o.text x (V.chained y tail) := by
  induction tail generalizing y with
  | nil => rfl
  | cons link tail ih =>
    obtain ⟨hlink, htail⟩ := List.forall_mem_cons.1 htail
    rw [chained_cons, combine_assoc hcommutes ho hlink, ih htail, ← chained_cons]

/-- The operands of a chain can be joined first. -/
theorem combine_chained_rejoin {κ : Chaining} {tail : Tail (Option K)}
    (htail : ∀ link ∈ tail, link.1.isOperator κ.op) (x y : Option K) :
    V.combine κ.op x (V.chained y (κ.rejoin tail)) = V.chained (V.combine κ.op x y) tail := by
  induction tail generalizing y with
  | nil => rfl
  | cons link tail ih =>
    obtain ⟨hlink, htail⟩ := List.forall_mem_cons.1 htail
    have hfirst := ih htail (V.combine κ.joiner y link.2)
    rw [combine_joiner] at hfirst
    rw [chained_cons, Chaining.text_of_isOperator hlink, ← hfirst]
    rfl

end Valuation

/-! ### Brackets around chains keep the value -/

namespace Phrase

theorem eval_chained (p : Phrase) (tail : Tail Phrase) :
    (chained p tail).eval V = V.chained (p.eval V) (tail.mapOperands (eval V)) := by
  induction tail generalizing p with
  | nil => rfl
  | cons link tail ih =>
    rw [chained, List.foldl_cons]
    exact ih _

variable {κ : Chaining}

/-- Brackets that are put in change no value. -/
theorem eval_added (position : Nat) (p : Phrase) :
    (region (.added position) p).eval V = p.eval V := rfl

/-- A run behind something that it is subtracted from, or that it divides. -/
theorem combine_gathered {o : Token} {tail : Tail Phrase}
    (htail : ∀ link ∈ tail, link.1.isOperator κ.op) (x : Option K) (p : Phrase) :
    V.combine κ.op x ((gathered κ o p tail).eval V) =
      V.chained (V.combine κ.op x (p.eval V)) (tail.mapOperands (eval V)) := by
  have htail' : ∀ link ∈ tail.mapOperands (eval V), link.1.isOperator κ.op :=
    List.forall_mem_map.2 htail
  have hjoined : (gathered κ o p tail).eval V =
      V.chained (p.eval V) (κ.rejoin (tail.mapOperands (eval V))) := by
    cases tail with
    | nil => rfl
    | cons link tail => rw [gathered, eval_added, joined, eval_chained, Chaining.mapOperands_rejoin]
  rw [hjoined, Valuation.combine_chained_rejoin htail']

theorem eval_closeChain {tail : Tail Phrase} (htail : ∀ link ∈ tail, link.1.isOperator κ.op)
    (p : Phrase) :
    (closeChain κ p tail).eval V = V.chained (p.eval V) (tail.mapOperands (eval V)) := by
  cases tail with
  | nil => rfl
  | cons link tail =>
    obtain ⟨hlink, htail⟩ := List.forall_mem_cons.1 htail
    have htext := Chaining.text_of_isOperator hlink
    rw [closeChain, eval, htext, combine_gathered htail, ← htext]
    rfl

/-- **Joining a chain keeps the value** of the phrase and the run behind it. -/
theorem eval_joinChains (p : Phrase) {tail : Tail Phrase}
    (htail : ∀ link ∈ tail, link.1.isOperator κ.op) :
    (p.joinChains κ tail).eval V = V.chained (p.eval V) (tail.mapOperands (eval V)) := by
  -- inside brackets and behind a sign a run starts anew
  have hnil : ∀ link ∈ ([] : Tail Phrase), link.1.isOperator κ.op := by simp
  induction p generalizing tail with
  | operand t => exact eval_closeChain htail _
  | region b p ih =>
    rw [joinChains, eval_closeChain htail, eval, ih hnil]
    rfl
  | signed s p ih =>
    rw [joinChains]
    split
    case isTrue hop =>
      -- the sign starts the run, and what it gathers is subtracted or divided by at once
      have htext := Chaining.text_of_isOperator hop
      rw [eval, htext, combine_gathered htail, ih hnil, ← htext]
      rfl
    case isFalse =>
      rw [eval_closeChain htail, eval, ih hnil]
      rfl
  | binary l o r ihl ihr =>
    rw [joinChains]
    split
    case isTrue hop =>
      -- the operand joins the run
      rw [ihl (List.forall_mem_cons.2 ⟨hop, htail⟩), Tail.mapOperands, List.map_cons,
        Valuation.chained_cons, ihr hnil]
      rfl
    case isFalse =>
      rw [eval_closeChain htail, eval, ihl hnil, ihr hnil]
      rfl

/-- **Bracketing keeps the value.** -/
theorem eval_bracketed (p : Phrase) : p.bracketed.eval V = p.eval V := by
  have hnil (κ : Chaining) : ∀ link ∈ ([] : Tail Phrase), link.1.isOperator κ.op := by simp
  rw [bracketed, eval_joinChains _ (hnil _), eval_joinChains _ (hnil _)]
  rfl

/-- **The tree of a phrase** without signs has its value. -/
theorem eval_tree {p : Phrase} (h : p.signs = 0) : p.tree.eval V = p.eval V := by
  induction p with
  | operand t => rfl
  | region b p ih =>
    rw [eval, ← ih h, tree, Valuation.within]
    cases b.function? <;> rfl
  | signed s p => simp [signs] at h
  | binary l o r ihl ihr =>
    obtain ⟨hl, hr⟩ : l.signs = 0 ∧ r.signs = 0 := by simpa [signs] using h
    rw [tree, Tree.eval, ihl hl, ihr hr, eval]

end Phrase

/-! ### Items of the right shape -/

namespace Item

theorem eval_operation (l r : Item) (o : Token) :
    (operation l (token o) r).eval V = V.combine o.text (l.eval V) (r.eval V) := by
  rw [operation, eval]

theorem eval_region {b : Bounds} (hb : b.Written) (x : Item) :
    (group b [x]).eval V = V.within b (x.eval V) := by
  cases b with
  | implicit => exact hb.elim
  | brackets o c =>
    rw [eval]
    rfl
  | call f o c =>
    rw [eval]
    rfl

end Item

end Formula
