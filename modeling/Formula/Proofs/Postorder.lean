import Formula.Lexer
import Formula.Proofs.Reading
import Formula.Tree

/-!
# Reverse Polish notation is the postorder of the reading

A token list in reverse Polish notation is the postorder of its reading: first what the operands
stand for, then the operator (`Phrase.Reads.toRpn_eq`). Reading it back with a stack of trees gives
the tree of the reading, since each phrase amounts to pushing its tree
(`Phrase.Binds.ofRpnFrom_postorder`). Together these make the way through reverse Polish notation a
parser (`toRpn_reads`).

What makes the order come out is which tokens wait while a phrase is read. A phrase of layer `n` is
read behind waiting tokens that bind more loosely than `n`; when it is over, some of its own tokens
may still wait, all of them of layer `n` or tighter, so they go out together as soon as anything
comes that does not belong to the phrase (`Phrase.Binds.orderedBehind`). A function name waits in
this way behind its closing bracket.

A sign is ordered as an operator too, but lacks its left operand. Every operator takes two trees
from the stack and puts one there, so a list with signs runs out of trees before it is over
(`exists_missingOperand`).
-/

namespace Formula

/-! ### The order and the tree of a phrase -/

namespace Phrase

/-- The tokens but for the brackets, each function and operator behind its operands. -/
def postorder : Phrase → List Token
  | operand t => [t]
  | region bounds inner => inner.postorder ++ bounds.function?.toList
  | signed sign inner => inner.postorder ++ [sign]
  | binary left operator right => left.postorder ++ right.postorder ++ [operator]

/-- The tree of a phrase. Brackets leave no trace, and a sign stands between a zero and its
operand. -/
def tree : Phrase → Tree
  | operand t => .leaf t.text
  | region bounds inner =>
    match bounds.function? with
    | some function => .unary function.text inner.tree
    | none => inner.tree
  | signed sign inner => .binary sign.text (.leaf "0") inner.tree
  | binary left operator right => .binary operator.text left.tree right.tree

end Phrase

/-! ### Ordering -/

theorem toRpnFrom_of_isOperand {t : Token} (h : t.isOperand) (waiting ts : List Token) :
    toRpnFrom waiting (t :: ts) = t :: toRpnFrom waiting ts := by
  rcases Token.kind_of_isOperand h with h | h <;> simp [toRpnFrom, h]

theorem toRpnFrom_of_isOpen {t : Token} (h : t.isOpen) (waiting ts : List Token) :
    toRpnFrom waiting (t :: ts) = toRpnFrom (t :: waiting) ts := by
  simp [toRpnFrom, Token.kind_of_isOpen h]

/-- A closing bracket lets out what waits above its partner. -/
theorem toRpnFrom_of_isClose {o c : Token} (hc : c.isClose) (ho : o.isOpen) {above : List Token}
    (habove : ∀ t ∈ above, ¬ t.isOpen) (waiting ts : List Token) :
    toRpnFrom (above ++ o :: waiting) (c :: ts) = above ++ toRpnFrom waiting ts := by
  have hnotOpen : ∀ t ∈ above, (!t.isOpen) = true := by simpa using habove
  rw [toRpnFrom, Token.kind_of_isClose hc]
  simp only
  rw [List.takeWhile_append_of_pos hnotOpen, List.dropWhile_append_of_pos hnotOpen]
  simp [ho]

/-- The tokens wait for something that binds at least as tightly as layer `n`: the last of them, the
first to go out, binds more loosely. -/
def BehindLooser (n : Nat) (waiting : List Token) : Prop :=
  ∀ t ∈ waiting.head?, t.precedence < n

theorem BehindLooser.mono {m n : Nat} {waiting : List Token} (h : BehindLooser m waiting)
    (hmn : m ≤ n) : BehindLooser n waiting :=
  fun t ht => (h t ht).trans_le hmn

theorem behindLooser_cons {n : Nat} {t : Token} (ht : t.precedence < n) (waiting : List Token) :
    BehindLooser n (t :: waiting) := by
  intro u hu
  obtain rfl : t = u := by simpa using hu
  exact ht

/-- A function or an operator lets out what waits and does not bind more loosely, and waits. -/
theorem toRpnFrom_of_precedence {t : Token} (h : t.kind = .function ∨ t.kind = .operator)
    {above waiting : List Token} (habove : ∀ u ∈ above, t.precedence ≤ u.precedence)
    (hwaiting : BehindLooser t.precedence waiting) (ts : List Token) :
    toRpnFrom (above ++ waiting) (t :: ts) = above ++ toRpnFrom (t :: waiting) ts := by
  -- what goes out ends where the first token binds more loosely
  have hfirst : ∀ u ∈ above, decide (t.precedence ≤ u.precedence) = true := by simpa using habove
  have htake : waiting.takeWhile (fun u => decide (t.precedence ≤ u.precedence)) = [] ∧
      waiting.dropWhile (fun u => decide (t.precedence ≤ u.precedence)) = waiting := by
    cases waiting with
    | nil => exact ⟨rfl, rfl⟩
    | cons u waiting =>
      have hu : u.precedence < t.precedence := hwaiting u rfl
      simp [hu]
  rcases h with h | h <;> rw [toRpnFrom, h] <;> simp only
  all_goals
    rw [List.takeWhile_append_of_pos hfirst, List.dropWhile_append_of_pos hfirst, htake.1, htake.2,
      List.append_nil]

/-- A function or an operator behind tokens that bind more loosely just waits. -/
theorem toRpnFrom_of_behindLooser {t : Token} (h : t.kind = .function ∨ t.kind = .operator)
    {waiting : List Token} (hwaiting : BehindLooser t.precedence waiting) (ts : List Token) :
    toRpnFrom waiting (t :: ts) = toRpnFrom (t :: waiting) ts := by
  have hnone : ∀ u ∈ ([] : List Token), t.precedence ≤ u.precedence := by simp
  exact toRpnFrom_of_precedence h hnone hwaiting ts

namespace Phrase

/-- **The order of a phrase** of layer `n` behind waiting tokens: its postorder comes out, but the
last part of it, bound at layer `n` or tighter, may still wait. -/
def OrderedBehind (waiting : List Token) (n : Nat) (p : Phrase) : Prop :=
  ∃ out pending, p.postorder = out ++ pending ∧
    (∀ t ∈ pending, ¬ t.isOpen ∧ n ≤ t.precedence) ∧
    ∀ rest, toRpnFrom waiting (p.tokens ++ rest) = out ++ toRpnFrom (pending ++ waiting) rest

theorem orderedBehind_operand {t : Token} (ht : t.isOperand) (waiting : List Token) (n : Nat) :
    OrderedBehind waiting n (operand t) :=
  ⟨[t], [], rfl, by simp, fun rest => toRpnFrom_of_isOperand ht waiting rest⟩

/-- The contents of a pair are ordered behind its opening bracket, and its closing one lets them
out. -/
theorem toRpnFrom_pair {p : Phrase}
    (h : ∀ waiting, BehindLooser 1 waiting → OrderedBehind waiting 1 p) {o c : Token}
    (ho : o.isOpen) (hc : c.isClose) (waiting rest : List Token) :
    toRpnFrom waiting (o :: (p.tokens ++ c :: rest)) = p.postorder ++ toRpnFrom waiting rest := by
  have hprec : o.precedence < 1 := by simp [Token.precedence, Token.kind_of_isOpen ho]
  -- behind an opening bracket everything binds more tightly than what waits
  obtain ⟨out, pending, hpost, hpending, hread⟩ :=
    h (o :: waiting) (behindLooser_cons hprec waiting)
  rw [toRpnFrom_of_isOpen ho, hread, toRpnFrom_of_isClose hc ho fun t ht => (hpending t ht).1,
    hpost, List.append_assoc]

/-- Behind a region at most the name of its function waits. -/
theorem orderedBehind_region {b : Bounds} {p : Phrase} {n : Nat} {waiting : List Token}
    (hb : b.Written) (hn : n ≤ 4) (hwaiting : BehindLooser n waiting)
    (h : ∀ waiting, BehindLooser 1 waiting → OrderedBehind waiting 1 p) :
    OrderedBehind waiting n (region b p) := by
  cases b with
  | implicit => exact hb.elim
  | brackets o c =>
    -- brackets alone leave nothing behind
    refine ⟨p.postorder, [], rfl, by simp, fun rest => ?_⟩
    have hpair := toRpnFrom_pair h hb.1 hb.2 waiting rest
    simpa [tokens, Bounds.front, Bounds.back] using hpair
  | call f o c =>
    -- a name has the highest precedence, so it may wait behind a phrase of any layer
    have hf : f.precedence = 4 := by simp [Token.precedence, hb.1]
    refine ⟨p.postorder, [f], rfl, ?_, fun rest => ?_⟩
    · intro t ht
      obtain rfl : t = f := by simpa using ht
      exact ⟨by simp [Token.isOpen, hb.1], hn.trans hf.ge⟩
    · have hname := toRpnFrom_of_behindLooser (.inl hb.1) (hwaiting.mono (hn.trans hf.ge))
        (o :: (p.tokens ++ c :: rest))
      have hpair := toRpnFrom_pair h hb.2.1 hb.2.2 (f :: waiting) rest
      simp only [tokens, Bounds.front, Bounds.back, List.cons_append, List.nil_append,
        List.append_assoc]
      rw [hname, hpair]

/-- An operator waits for its right operand, and then on, below what waits of that. -/
theorem pending_concat {o : Token} {pending : List Token} {n k : Nat} (ho : o.joins k)
    (hn : n ≤ k) (h : ∀ t ∈ pending, ¬ t.isOpen ∧ k + 1 ≤ t.precedence) :
    ∀ t ∈ pending ++ [o], ¬ t.isOpen ∧ n ≤ t.precedence := by
  have hprec := Token.precedence_of_joins ho
  intro t ht
  rcases List.mem_append.1 ht with ht | ht
  · obtain ⟨hopen, hle⟩ := h t ht
    exact ⟨hopen, by omega⟩
  · obtain rfl : t = o := by simpa using ht
    exact ⟨Token.not_isOpen_of_operator (Token.kind_of_joins ho), by omega⟩

theorem orderedBehind_signed {s : Token} {p : Phrase} {n : Nat} {waiting : List Token}
    (hn : n ≤ 1) (hs : s.isSign) (hwaiting : BehindLooser n waiting)
    (h : OrderedBehind (s :: waiting) 2 p) : OrderedBehind waiting n (signed s p) := by
  have hjoins : s.joins 1 := hs
  have hprec := Token.precedence_of_joins hjoins
  obtain ⟨out, pending, hpost, hpending, hread⟩ := h
  refine ⟨out, pending ++ [s], ?_, pending_concat hjoins hn hpending, fun rest => ?_⟩
  · rw [postorder, hpost, List.append_assoc]
  · -- a sign comes like an operator of layer `1`, with nothing of its own to let out
    have hsign := toRpnFrom_of_behindLooser (.inr (Token.kind_of_isSign hs))
      (hwaiting.mono (hn.trans hprec.ge)) (p.tokens ++ rest)
    rw [tokens, List.cons_append, hsign, hread, List.append_assoc]
    rfl

/-- What waits of the left operand goes out when the operator comes. -/
theorem orderedBehind_binary {l r : Phrase} {o : Token} {n k : Nat} {waiting : List Token}
    (hn : n ≤ k) (ho : o.joins k) (hwaiting : BehindLooser k waiting)
    (hl : OrderedBehind waiting k l) (hr : OrderedBehind (o :: waiting) (k + 1) r) :
    OrderedBehind waiting n (binary l o r) := by
  -- the left operand leaves operators that bind at least as tightly, so they go out first
  have hprec := Token.precedence_of_joins ho
  obtain ⟨out, pending, hpost, hpending, hread⟩ := hl
  obtain ⟨out', pending', hpost', hpending', hread'⟩ := hr
  refine ⟨out ++ pending ++ out', pending' ++ [o], ?_, pending_concat ho hn hpending', ?_⟩
  · rw [postorder, hpost, hpost']
    simp
  · intro rest
    -- the operator then waits behind looser ones for the right operand
    have hoperator := toRpnFrom_of_precedence (.inr (Token.kind_of_joins ho))
      (fun t ht => hprec.trans_le (hpending t ht).2) (hwaiting.mono hprec.ge) (r.tokens ++ rest)
    calc toRpnFrom waiting (tokens (binary l o r) ++ rest)
        = toRpnFrom waiting (l.tokens ++ o :: (r.tokens ++ rest)) := by simp [tokens]
      _ = out ++ (pending ++ toRpnFrom (o :: waiting) (r.tokens ++ rest)) := by
        rw [hread, hoperator]
      _ = out ++ pending ++ out' ++ toRpnFrom (pending' ++ [o] ++ waiting) rest := by
        rw [hread']
        simp

/-- **Every phrase is ordered** behind tokens that bind more loosely. -/
theorem Binds.orderedBehind {p : Phrase} {n : Nat} (hp : p.Binds n) (hn : n ≤ 4)
    (waiting : List Token) (hwaiting : BehindLooser n waiting) : OrderedBehind waiting n p := by
  induction hp generalizing waiting with
  | operand ht => exact orderedBehind_operand ht waiting _
  | region hb _ ih => exact orderedBehind_region hb hn hwaiting (ih (by decide))
  | @signed s p n hn1 hs _ ih =>
    -- what waits in front of a sign binds more loosely than what is behind it
    have hprec := Token.precedence_of_joins (k := 1) hs
    exact orderedBehind_signed hn1 hs hwaiting
      (ih (by decide) _ (behindLooser_cons (by omega) waiting))
  | @binary l r o n k hnk _ ho _ ihl ihr =>
    have hk := Token.joins_bounds ho
    have hprec := Token.precedence_of_joins ho
    -- the right operand is written behind its operator, so it has one more looser one in front
    have hleft := ihl (by omega) waiting (hwaiting.mono hnk)
    have hright := ihr (by omega) (o :: waiting) (behindLooser_cons (by omega) waiting)
    exact orderedBehind_binary hnk ho (hwaiting.mono hnk) hleft hright

/-- **The order of a reading** is its postorder. -/
theorem Reads.toRpn_eq {p : Phrase} {ts : List Token} (h : p.Reads ts) :
    toRpn ts = p.postorder := by
  have hnone : BehindLooser 1 ([] : List Token) := fun t ht => by simp at ht
  obtain ⟨out, pending, hpost, hpending, hread⟩ := h.binds.orderedBehind (by decide) [] hnone
  have hrest := hread []
  rw [List.append_nil, List.append_nil, h.tokens_eq] at hrest
  -- at the end of the list all that waits goes out, and no bracket is among it
  have hfilter : pending.filter (!·.isOpen) = pending :=
    List.filter_eq_self.2 fun t ht => by simpa using (hpending t ht).1
  rw [toRpn, hrest, toRpnFrom, hfilter, hpost]

end Phrase

/-! ### Building the tree -/

section Reading

variable (operands : List Tree) (rest : List Token)

/-- An operand pushes its leaf. -/
theorem ofRpnFrom_of_isOperand {t : Token} (h : t.isOperand) :
    Tree.ofRpnFrom operands (t :: rest) = Tree.ofRpnFrom (.leaf t.text :: operands) rest := by
  rcases Token.kind_of_isOperand h with h | h <;> simp only [Tree.ofRpnFrom, h]

/-- A function takes its argument from the stack. -/
theorem ofRpnFrom_of_function {f : Token} (h : f.kind = .function) (arg : Tree) :
    Tree.ofRpnFrom (arg :: operands) (f :: rest) =
      Tree.ofRpnFrom (.unary f.text arg :: operands) rest := by
  simp only [Tree.ofRpnFrom, h]

/-- An operator takes both its operands from the stack, the right one first. -/
theorem ofRpnFrom_of_operator {o : Token} (h : o.kind = .operator) (left right : Tree) :
    Tree.ofRpnFrom (right :: left :: operands) (o :: rest) =
      Tree.ofRpnFrom (.binary o.text left right :: operands) rest := by
  simp only [Tree.ofRpnFrom, h]

namespace Phrase

/-- **The postorder of a phrase without signs** amounts to pushing its tree. -/
theorem Binds.ofRpnFrom_postorder {p : Phrase} {n : Nat} (h : p.Binds n) (hsigns : p.signs = 0) :
    Tree.ofRpnFrom operands (p.postorder ++ rest) = Tree.ofRpnFrom (p.tree :: operands) rest := by
  induction h generalizing operands rest with
  | operand ht => exact ofRpnFrom_of_isOperand operands rest ht
  | @region b p n hb _ ih =>
    -- the brackets are gone, and the name takes the tree of the contents
    have ih := ih operands (b.function?.toList ++ rest) hsigns
    cases b with
    | implicit => exact hb.elim
    | brackets o c => simpa [postorder, tree, Bounds.function?] using ih
    | call f o c =>
      rw [postorder, List.append_assoc, ih]
      exact ofRpnFrom_of_function operands rest hb.1 p.tree
  | signed => simp [signs] at hsigns
  | @binary l r o n k _ _ ho _ ihl ihr =>
    -- the right tree is pushed on top of the left one
    obtain ⟨hl, hr⟩ : l.signs = 0 ∧ r.signs = 0 := by simpa [signs] using hsigns
    calc Tree.ofRpnFrom operands (postorder (.binary l o r) ++ rest)
        = Tree.ofRpnFrom operands (l.postorder ++ (r.postorder ++ o :: rest)) := by
          simp [postorder]
      _ = Tree.ofRpnFrom (r.tree :: l.tree :: operands) (o :: rest) := by
          rw [ihl operands _ hl, ihr (l.tree :: operands) _ hr]
      _ = Tree.ofRpnFrom (tree (.binary l o r) :: operands) rest :=
          ofRpnFrom_of_operator operands rest (Token.kind_of_joins ho) l.tree r.tree

theorem Binds.ofRpn_postorder {p : Phrase} {n : Nat} (h : p.Binds n) (hsigns : p.signs = 0) :
    Tree.ofRpn p.postorder = .ok p.tree := by
  have hpush := h.ofRpnFrom_postorder [] [] hsigns
  rw [List.append_nil] at hpush
  rw [Tree.ofRpn, hpush, Tree.ofRpnFrom]

end Phrase

end Reading

/-! ### Running out of operands -/

/-- **Too few operands.** Each operator leaves one tree less on the stack and each operand one more,
so without brackets a list with too many operators runs out of trees. -/
theorem exists_missingOperand {ts : List Token} {operands : List Tree}
    (hbrackets : ∀ t ∈ ts, ¬ t.isOpen ∧ ¬ t.isClose) (hne : ts ≠ [] ∨ operands ≠ [])
    (hcount : operands.length + ts.countP (·.isOperand) ≤ ts.countP (·.kind == .operator)) :
    ∃ lexeme position, Tree.ofRpnFrom operands ts = .error (.missingOperand lexeme position) := by
  induction ts generalizing operands with
  | nil =>
    -- there would be a tree left, but the count allows for none
    have hnil : operands = [] := List.length_eq_zero_iff.1 (by simpa using hcount)
    simp [hnil] at hne
  | cons t ts ih =>
    obtain ⟨⟨hopen, hclose⟩, hbrackets⟩ := List.forall_mem_cons.1 hbrackets
    cases hkind : t.kind with
    | number | «variable» =>
      -- an operand makes the stack higher
      have hoperand : t.isOperand := by simp [Token.isOperand, hkind]
      rw [ofRpnFrom_of_isOperand operands ts hoperand]
      refine ih hbrackets (.inr (by simp)) ?_
      simp [hkind, hoperand] at hcount ⊢
      omega
    | function =>
      -- a function takes the tree below it, so the count does not change
      cases operands with
      | nil => exact ⟨t.text, t.position, by simp only [Tree.ofRpnFrom, hkind]⟩
      | cons arg operands =>
        rw [ofRpnFrom_of_function operands ts hkind]
        refine ih hbrackets (.inr (by simp)) ?_
        simpa [Token.isOperand, hkind] using hcount
    | operator =>
      -- an operator with one operand fails like one with none
      rcases operands with _ | ⟨right, _ | ⟨left, operands⟩⟩
      · exact ⟨t.text, t.position, by simp only [Tree.ofRpnFrom, hkind]⟩
      · exact ⟨t.text, t.position, by simp only [Tree.ofRpnFrom, hkind]⟩
      · rw [ofRpnFrom_of_operator operands ts hkind]
        refine ih hbrackets (.inr (by simp)) ?_
        simp [Token.isOperand, hkind] at hcount ⊢
        omega
    | openBracket => simp [Token.isOpen, hkind] at hopen
    | closeBracket => simp [Token.isClose, hkind] at hclose

namespace Phrase

/-- The brackets are left out. -/
theorem Binds.postorder_brackets {p : Phrase} {n : Nat} (h : p.Binds n) :
    ∀ t ∈ p.postorder, ¬ t.isOpen ∧ ¬ t.isClose := by
  have hoperator {o : Token} (ho : o.kind = .operator) : ∀ t ∈ [o], ¬ t.isOpen ∧ ¬ t.isClose := by
    rw [List.forall_mem_singleton]
    exact ⟨Token.not_isOpen_of_operator ho, Token.not_isClose_of_operator ho⟩
  induction h with
  | operand ht =>
    rw [postorder, List.forall_mem_singleton]
    exact ⟨Token.not_isOpen_of_isOperand ht, Token.not_isClose_of_isOperand ht⟩
  | @region b p n hb _ ih =>
    rw [postorder, List.forall_mem_append]
    refine ⟨ih, ?_⟩
    -- all that comes behind the contents is the name of a function
    cases b with
    | implicit => exact hb.elim
    | brackets o c => simp [Bounds.function?]
    | call f o c => simp [Bounds.function?, Token.isOpen, Token.isClose, hb.1]
  | signed _ hs _ ih =>
    rw [postorder, List.forall_mem_append]
    exact ⟨ih, hoperator (Token.kind_of_isSign hs)⟩
  | binary _ _ ho _ ihl ihr =>
    rw [postorder, List.forall_mem_append, List.forall_mem_append]
    exact ⟨⟨ihl, ihr⟩, hoperator (Token.kind_of_joins ho)⟩

theorem postorder_ne_nil (p : Phrase) : p.postorder ≠ [] := by
  induction p with
  | region b p ih => simp [postorder, ih]
  | operand | signed | binary => simp [postorder]

/-- Each sign is an operator more than the operands can serve. -/
theorem Binds.countP_postorder {p : Phrase} {n : Nat} (h : p.Binds n) :
    p.postorder.countP (·.kind == .operator) + 1 =
      p.postorder.countP (·.isOperand) + p.signs := by
  induction h with
  | @operand t n ht =>
    rcases Token.kind_of_isOperand ht with hkind | hkind <;> simp [postorder, signs, ht, hkind]
  | @region b p n hb _ ih =>
    -- brackets are not written, and a name is no operand
    cases b with
    | implicit => exact hb.elim
    | brackets o c => simpa [postorder, signs, Bounds.function?] using ih
    | call f o c =>
      have hoperand : f.isOperand = false := by simp [Token.isOperand, hb.1]
      simpa [postorder, signs, Bounds.function?, hb.1, hoperand] using ih
  | @signed s p n _ hs _ ih =>
    -- a sign is written like an operator, but with a single operand
    have hkind := Token.kind_of_isSign hs
    have hoperand : s.isOperand = false := by simp [Token.isOperand, hkind]
    simp only [postorder, signs, List.countP_append, List.countP_singleton, hkind, hoperand]
    simp
    omega
  | @binary l r o n k _ _ ho _ ihl ihr =>
    -- an operator makes up for one of the two operands
    have hkind := Token.kind_of_joins ho
    have hoperand : o.isOperand = false := by simp [Token.isOperand, hkind]
    simp only [postorder, signs, List.countP_append, List.countP_singleton, hkind, hoperand]
    simp
    omega

/-- **A sign has no left operand**, so no tree can be built. -/
theorem Binds.ofRpn_postorder_of_signs {p : Phrase} {n : Nat} (h : p.Binds n)
    (hsigns : p.signs ≠ 0) :
    ∃ lexeme position, Tree.ofRpn p.postorder = .error (.missingOperand lexeme position) := by
  have hcount := h.countP_postorder
  exact exists_missingOperand h.postorder_brackets (.inl p.postorder_ne_nil) (by simp; omega)

end Phrase

/-! ### The way through reverse Polish notation -/

/-- **Ordering and building a tree is a parser.** An expression has exactly one reading. If none of
its signs is in leading position, the order is the postorder of the reading and the tree is that of
the reading; otherwise an operator lacks an operand. -/
theorem toRpn_reads {ts : List Token} (hne : ts ≠ []) (hvalid : validate ts = [])
    (harith : Arithmetic ts) :
    ∃ p : Phrase, p.Reads ts ∧ (∀ q : Phrase, q.Reads ts → q = p) ∧
      (leadingSigns true ts = 0 →
        toRpn ts = p.postorder ∧ Tree.ofRpn (toRpn ts) = .ok p.tree) ∧
      (leadingSigns true ts ≠ 0 →
        ∃ lexeme position, Tree.ofRpn (toRpn ts) = .error (.missingOperand lexeme position)) := by
  obtain ⟨p, hp⟩ := exists_reads hne hvalid harith
  have horder := hp.toRpn_eq
  have hsigns := hp.leadingSigns_eq
  refine ⟨p, hp, ?_, ?_, ?_⟩
  · intro q hq
    exact hq.unique hp
  · intro hzero
    refine ⟨horder, ?_⟩
    rw [horder]
    exact hp.binds.ofRpn_postorder (hsigns ▸ hzero)
  · intro hsome
    rw [horder]
    exact hp.binds.ofRpn_postorder_of_signs (hsigns ▸ hsome)

/-- No sign of `sin((1-2)/x)^3-4*y` leads, so it comes out as its tree. -/
theorem toRpn_reads_call :
    let ts := (tokenize "sin((1-2)/x)^3-4*y").tokens
    ts ≠ [] ∧ validate ts = [] ∧ Arithmetic ts ∧
      ∃ p : Phrase, p.Reads ts ∧ (∀ q : Phrase, q.Reads ts → q = p) ∧
        toRpn ts = p.postorder ∧ Tree.ofRpn (toRpn ts) = .ok p.tree := by
  have hne : (tokenize "sin((1-2)/x)^3-4*y").tokens ≠ [] := by decide +kernel
  have hvalid : validate (tokenize "sin((1-2)/x)^3-4*y").tokens = [] := by decide +kernel
  have harith : Arithmetic (tokenize "sin((1-2)/x)^3-4*y").tokens := by decide +kernel
  have hzero : leadingSigns true (tokenize "sin((1-2)/x)^3-4*y").tokens = 0 := by decide +kernel
  obtain ⟨p, hp, hunique, hplain, -⟩ := toRpn_reads hne hvalid harith
  exact ⟨hne, hvalid, harith, p, hp, hunique, hplain hzero⟩

end Formula
