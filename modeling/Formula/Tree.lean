import Formula.Diagnostics
import Formula.Token

/-!
# Expression trees

A tree is a leaf with the text of a number or a variable, a function over its argument, or an
operator over two operands. `Tree.ofRpn` builds it from tokens in reverse Polish notation.

The depth and the text of a tree are computed with a list of what is still to be visited in place of
nested calls, so that a long chain of operators needs no more of the call stack than a short one.
Each step replaces a tree by its children, which makes the list lighter.
-/

namespace Formula

/-- An expression. -/
inductive Tree where
  | leaf (value : String)
  | unary (value : String) (arg : Tree)
  | binary (value : String) (left right : Tree)
  deriving DecidableEq, Repr, Inhabited

namespace Tree

/-! ### Parts of a tree -/

/-- The text at the root. -/
def value : Tree → String
  | leaf value | unary value _ | binary value _ _ => value

/-- The same tree with another text at the root. -/
def withValue (t : Tree) (value : String) : Tree :=
  match t with
  | leaf _ => leaf value
  | unary _ arg => unary value arg
  | binary _ left right => binary value left right

/-- The left operand, or the argument of a function. -/
def left? : Tree → Option Tree
  | leaf _ => none
  | unary _ arg => some arg
  | binary _ left _ => some left

/-- The right operand. A function has none. -/
def right? : Tree → Option Tree
  | leaf _ | unary _ _ => none
  | binary _ _ right => some right

def isLeaf : Tree → Bool
  | leaf _ => true
  | _ => false

/-- A node with one child. -/
def isFunction : Tree → Bool
  | unary _ _ => true
  | _ => false

/-- The number of nodes. -/
def size : Tree → Nat
  | leaf _ => 1
  | unary _ arg => arg.size + 1
  | binary _ left right => left.size + right.size + 1

theorem size_pos (t : Tree) : 0 < t.size := by
  cases t <;> simp [size]

/-! ### Depth -/

/-- The greatest of `deepest` and the depths of all nodes of the pending trees, each of which is
given with the depth of its root. -/
def depthFrom (deepest : Nat) : List (Tree × Nat) → Nat
  | [] => deepest
  | (leaf _, depth) :: pending => depthFrom (max deepest depth) pending
  | (unary _ arg, depth) :: pending =>
    depthFrom (max deepest depth) ((arg, depth + 1) :: pending)
  | (binary _ left right, depth) :: pending =>
    depthFrom (max deepest depth) ((right, depth + 1) :: (left, depth + 1) :: pending)
termination_by pending => pending.foldr (fun p work => p.1.size + work) 0
decreasing_by all_goals simp +arith [size]

/-- The number of steps from the root to the deepest leaf. -/
def depth (t : Tree) : Nat :=
  depthFrom 0 [(t, 0)]

/-! ### Text -/

/-- A piece of the text of a tree that is still to be written. -/
inductive Part where
  | tree (t : Tree)
  | text (s : String)
  deriving DecidableEq, Repr

/-- What a part counts towards the work left. -/
def Part.weight : Part → Nat
  | tree t => 4 * t.size
  | text _ => 1

/-- The text written so far, and behind it that of the pending parts. -/
def renderFrom (written : String) : List Part → String
  | [] => written
  | .text s :: pending => renderFrom (written ++ s) pending
  | .tree (leaf value) :: pending => renderFrom (written ++ value) pending
  | .tree (unary value arg) :: pending =>
    renderFrom (written ++ value ++ "(") (.tree arg :: .text ")" :: pending)
  | .tree (binary value left right) :: pending =>
    renderFrom (written ++ "(")
      (.tree left :: .text value :: .tree right :: .text ")" :: pending)
termination_by pending => pending.foldr (fun part work => part.weight + work) 0
decreasing_by all_goals simp +arith [Part.weight, size]

/-- The tree as text. A function is written before its bracketed argument, and every pair of
operands stands in brackets with its operator between. -/
def render (t : Tree) : String :=
  renderFrom "" [.tree t]

instance : ToString Tree := ⟨render⟩

/-! ### Reading reverse Polish notation -/

/-- Reads the tokens still to come, with the trees read before on a stack. -/
def ofRpnFrom : (operands : List Tree) → List Token → Except TreeError Tree
  | [], [] => .error .empty
  | [t], [] => .ok t
  | operands, [] => .error (.leftover operands.length)
  | operands, t :: tokens =>
    match t.kind, operands with
    | .number, operands | .variable, operands => ofRpnFrom (leaf t.text :: operands) tokens
    | .function, arg :: operands => ofRpnFrom (unary t.text arg :: operands) tokens
    | .operator, right :: left :: operands =>
      ofRpnFrom (binary t.text left right :: operands) tokens
    | .function, _ | .operator, _ => .error (.missingOperand t.text t.position)
    | .openBracket, _ | .closeBracket, _ => .error (.unexpectedBracket t.text t.position)

/-- The tree that a token list stands for in reverse Polish notation. -/
def ofRpn (tokens : List Token) : Except TreeError Tree :=
  ofRpnFrom [] tokens

end Tree

end Formula
