import Formula.Token

/-!
# Brackets

Which brackets of a token list belong together, said by counting depth.

A walk from a bracket adds one at each bracket that opens in its direction and takes one away at
each that closes; the partner is where the count comes back to zero. The walk goes either way, so
one function, `bracketSpan`, serves both, and `matchingClose` and `matchingOpen` state its answer as
an index. `unmatched` gathers the brackets that have no partner at all.
-/

namespace Formula

/-! ### Walking from a bracket to its partner -/

/-- Which way a walk along the tokens goes. A walk to the left is a walk along the reversed list. -/
inductive Direction where
  | rightward
  | leftward
  deriving DecidableEq, Repr

/-- A bracket that a walk in this direction enters a pair by. -/
def Direction.enters (d : Direction) (t : Token) : Bool :=
  match d with
  | .rightward => t.isOpen
  | .leftward => t.isClose

/-- A bracket that a walk in this direction leaves a pair by. -/
def Direction.leaves (d : Direction) (t : Token) : Bool :=
  match d with
  | .rightward => t.isClose
  | .leftward => t.isOpen

/-- The number of tokens that a walk passes until its `depth` comes back to zero, the last one
included. There is none if the tokens end before, or if a pair is left that was never entered. -/
def bracketSpan (d : Direction) : Nat → List Token → Option Nat
  | _, [] => none
  | depth, t :: tokens =>
    if d.enters t then (bracketSpan d (depth + 1) tokens).map (· + 1)
    else if d.leaves t then
      match depth with
      | 0 => none
      | 1 => some 1
      | depth + 2 => (bracketSpan d (depth + 1) tokens).map (· + 1)
    else (bracketSpan d depth tokens).map (· + 1)

@[simp] theorem bracketSpan_nil (d : Direction) (depth : Nat) : bracketSpan d depth [] = none := by
  simp [bracketSpan]

/-- **Bounds of a span.** It holds at least one token and no more than there are. -/
theorem bracketSpan_bounds {d : Direction} {depth n : Nat} {tokens : List Token}
    (h : bracketSpan d depth tokens = some n) : 0 < n ∧ n ≤ tokens.length := by
  fun_induction bracketSpan d depth tokens generalizing n <;>
    simp_all only [Option.map_eq_some_iff, List.length_cons, Option.some.injEq, reduceCtorEq]
  case case4 => omega
  all_goals
    rename_i ih
    obtain ⟨m, hm, rfl⟩ := h
    have := ih hm
    omega

/-- The index of the bracket that closes the pair opened at or behind `start`. -/
def matchingClose (tokens : List Token) (start : Nat) : Option Nat :=
  (bracketSpan .rightward 0 (tokens.drop start)).map fun n => start + (n - 1)

/-- The index of the bracket that opens the pair closed at or in front of `stop`. -/
def matchingOpen (tokens : List Token) (stop : Nat) : Option Nat :=
  if stop < tokens.length then
    (bracketSpan .leftward 0 (tokens.take (stop + 1)).reverse).map fun n => stop + 1 - n
  else none

/-! ### Brackets without a partner -/

/-- The brackets of a list that have no partner. -/
structure Unmatched (α : Type) where
  /-- Closing brackets, in the order in which they stand. -/
  closing : List α
  /-- Opening brackets, the last one first. -/
  opening : List α
  deriving DecidableEq, Repr

/-- Pairs each closing bracket with the last opening one that is still `pending`, and returns what
is left over. The elements may carry more than a token, such as an index, so the kind is a
parameter. -/
def unmatched {α : Type} (kind : α → Kind) : (pending elements : List α) → Unmatched α
  | pending, [] => ⟨[], pending⟩
  | pending, a :: elements =>
    match kind a, pending with
    | .openBracket, pending => unmatched kind (a :: pending) elements
    | .closeBracket, _ :: pending => unmatched kind pending elements
    | .closeBracket, [] =>
      let later := unmatched kind [] elements
      { later with closing := a :: later.closing }
    | _, pending => unmatched kind pending elements

end Formula
