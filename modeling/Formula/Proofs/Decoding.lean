import Formula.Proofs.Postorder

/-!
# What reverse Polish notation stands for

A token list in reverse Polish notation stands for a tree if it is the postorder of that tree: each
node is written behind its children, as a token of the kind that the node calls for and with its
text (`Tree.Postorder`). Reading accepts exactly these lists, and what it rejects it rejects for a
definite reason (`ofRpn_decodes`).

While the list is read, the stack holds the trees whose postorders have been read, one behind the
other (`Holds`). So its height is known from the tokens alone (`height`): each operand puts a tree
on it, a function leaves as many as there were, and an operator makes one of two. A token that lacks
its operands at that height, or is a bracket, ends the reading (`Token.faultAt`); any other leaves
again a stack of trees whose postorders have been read (`Holds.step`).
-/

namespace Formula

/-! ### Postorders -/

/-- **The postorder of a tree.** A number or a variable stands for a leaf, a function behind its
argument, and an operator behind its left and its right operand. The places of the tokens are
free. -/
inductive Tree.Postorder : Tree → List Token → Prop
  | leaf {t : Token} (ht : t.isOperand) : Postorder (.leaf t.text) [t]
  | unary {f : Token} {arg : Tree} {ts : List Token} (hf : f.kind = .function)
      (harg : arg.Postorder ts) : Postorder (.unary f.text arg) (ts ++ [f])
  | binary {o : Token} {left right : Tree} {ts us : List Token} (ho : o.kind = .operator)
      (hleft : left.Postorder ts) (hright : right.Postorder us) :
      Postorder (.binary o.text left right) (ts ++ us ++ [o])

namespace Tree.Postorder

variable {t : Tree} {ts : List Token}

/-- A postorder amounts to pushing its tree. -/
theorem ofRpnFrom_append (h : t.Postorder ts) (operands : List Tree) (rest : List Token) :
    ofRpnFrom operands (ts ++ rest) = ofRpnFrom (t :: operands) rest := by
  induction h generalizing operands rest with
  | leaf ht => exact ofRpnFrom_of_isOperand operands rest ht
  | @unary f arg ts hf _ ih =>
    rw [List.append_assoc, ih, List.singleton_append, ofRpnFrom_of_function operands rest hf]
  | @binary o left right ts us ho _ _ ihl ihr =>
    rw [List.append_assoc, List.append_assoc, ihl, ihr, List.singleton_append,
      ofRpnFrom_of_operator operands rest ho]

/-- **A postorder is read as its tree.** -/
theorem ofRpn_eq (h : t.Postorder ts) : ofRpn ts = .ok t := by
  have hpush := h.ofRpnFrom_append [] []
  rwa [List.append_nil, ofRpnFrom] at hpush

/-- No bracket is written. -/
theorem not_bracket (h : t.Postorder ts) : ∀ u ∈ ts, ¬ u.isOpen ∧ ¬ u.isClose := by
  induction h with
  | leaf ht =>
    rw [List.forall_mem_singleton]
    exact ⟨Token.not_isOpen_of_isOperand ht, Token.not_isClose_of_isOperand ht⟩
  | unary hf _ ih =>
    rw [List.forall_mem_append, List.forall_mem_singleton]
    exact ⟨ih, by simp [Token.isOpen, Token.isClose, hf]⟩
  | binary ho _ _ ihl ihr =>
    rw [List.forall_mem_append, List.forall_mem_append, List.forall_mem_singleton]
    exact ⟨⟨ihl, ihr⟩, Token.not_isOpen_of_operator ho, Token.not_isClose_of_operator ho⟩

/-- There is one operand more than there are operators. -/
theorem countP_isOperand (h : t.Postorder ts) :
    ts.countP (·.isOperand) = ts.countP (·.kind == .operator) + 1 := by
  induction h with
  | @leaf t ht => rcases Token.kind_of_isOperand ht with hkind | hkind <;> simp [ht, hkind]
  | @unary f arg ts hf _ ih =>
    have hoperand : f.isOperand = false := by simp [Token.isOperand, hf]
    simp [List.countP_append, ih, hoperand, hf]
  | @binary o left right ts us ho _ _ ihl ihr =>
    have hoperand : o.isOperand = false := by simp [Token.isOperand, ho]
    simp only [List.countP_append, List.countP_singleton, ihl, ihr, hoperand, ho]
    simp
    omega

end Tree.Postorder

/-- Every tree has a postorder. -/
theorem Tree.exists_postorder (t : Tree) : ∃ ts, t.Postorder ts := by
  induction t with
  | leaf value => exact ⟨_, .leaf (t := ⟨.number, value, 0⟩) rfl⟩
  | unary value arg ih =>
    obtain ⟨ts, hts⟩ := ih
    exact ⟨_, .unary (f := ⟨.function, value, 0⟩) rfl hts⟩
  | binary value left right ihl ihr =>
    obtain ⟨ts, hts⟩ := ihl
    obtain ⟨us, hus⟩ := ihr
    exact ⟨_, .binary (o := ⟨.operator, value, 0⟩) rfl hts hus⟩

/-! ### What can go wrong -/

/-- The number of operands that are finished when the tokens have been read: each operand is one
more, and each operator makes one of two. -/
def height (ts : List Token) : Nat :=
  ts.countP (·.isOperand) - ts.countP (·.kind == .operator)

/-- What a token is reported for if it comes when `height` operands are finished. -/
def Token.faultAt (t : Token) (height : Nat) : Option TreeError :=
  match t.kind with
  | .number | .variable => none
  | .function => if height = 0 then some (.missingOperand t.text t.position) else none
  | .operator => if height ≤ 1 then some (.missingOperand t.text t.position) else none
  | .openBracket | .closeBracket => some (.unexpectedBracket t.text t.position)

/-- No token of the list is reported. -/
def Served (ts : List Token) : Prop :=
  ∀ front t, front ++ [t] <+: ts → t.faultAt (height front) = none

theorem served_nil : Served [] := by
  intro front t h
  simp at h

theorem served_concat {ts : List Token} {t : Token} :
    Served (ts ++ [t]) ↔ Served ts ∧ t.faultAt (height ts) = none := by
  constructor
  · intro h
    exact ⟨fun front u hu => h front u (hu.trans (List.prefix_append ts [t])),
      h ts t List.prefix_rfl⟩
  · rintro ⟨hts, ht⟩ front u hu
    -- a token of the longer list is the last one or a token of the shorter list
    rcases List.prefix_concat_iff.1 hu with heq | hstart
    · obtain ⟨rfl, rfl⟩ := List.concat_inj.1 (by simpa using heq)
      exact ht
    · exact hts front u hstart

/-- **The first fault** of a list, if it has one. -/
theorem served_or_exists_fault (ts : List Token) :
    Served ts ∨ ∃ front t error, front ++ [t] <+: ts ∧ Served front ∧
      t.faultAt (height front) = some error := by
  induction ts using List.reverseRecOn with
  | nil => exact .inl served_nil
  | append_singleton ts t ih =>
    rcases ih with hts | ⟨front, u, error, hstart, hfront, hfault⟩
    · cases hfault : t.faultAt (height ts) with
      | none => exact .inl (served_concat.2 ⟨hts, hfault⟩)
      | some error => exact .inr ⟨ts, t, error, List.prefix_rfl, hts, hfault⟩
    · exact .inr ⟨front, u, error, hstart.trans (List.prefix_append ts [t]), hfront, hfault⟩

/-! ### The stack -/

/-- **The stack holds what has been read**: the postorders of its trees, the lowest one first. -/
inductive Holds : (operands : List Tree) → (read : List Token) → Prop
  | nil : Holds [] []
  | push {t : Tree} {operands : List Tree} {read ts : List Token} (h : Holds operands read)
      (ht : t.Postorder ts) : Holds (t :: operands) (read ++ ts)

namespace Holds

variable {operands : List Tree} {read : List Token}

/-- The height of the stack. -/
theorem height_eq (h : Holds operands read) : height read = operands.length := by
  have hcount : read.countP (·.isOperand) =
      read.countP (·.kind == .operator) + operands.length := by
    induction h with
    | nil => rfl
    | push _ ht ih =>
      rw [List.countP_append, List.countP_append, ih, ht.countP_isOperand, List.length_cons]
      omega
  rw [height, hcount]
  omega

/-- One tree is the tree of all that has been read. -/
theorem postorder {t : Tree} (h : Holds [t] read) : t.Postorder read := by
  cases h with
  | push hnil ht =>
    cases hnil
    exact ht

/-- **A token that has its operands** leaves a stack that holds what has been read, that token
included. -/
theorem step (h : Holds operands read) {t : Token} (ht : t.faultAt (height read) = none) :
    ∃ operands', Holds operands' (read ++ [t]) ∧
      ∀ rest, Tree.ofRpnFrom operands (t :: rest) = Tree.ofRpnFrom operands' rest := by
  rw [h.height_eq] at ht
  cases hkind : t.kind with
  | number | «variable» =>
    -- an operand is a tree by itself
    have hoperand : t.isOperand := by simp [Token.isOperand, hkind]
    exact ⟨.leaf t.text :: operands, h.push (.leaf hoperand),
      fun rest => ofRpnFrom_of_isOperand operands rest hoperand⟩
  | function =>
    -- the name goes in front of the tree on top
    cases h with
    | nil => simp [Token.faultAt, hkind] at ht
    | @push arg operands read ts h harg =>
      refine ⟨.unary t.text arg :: operands, ?_,
        fun rest => ofRpnFrom_of_function operands rest hkind arg⟩
      rw [List.append_assoc]
      exact h.push (.unary hkind harg)
  | operator =>
    -- the two trees on top are the right operand and below it the left one
    cases h with
    | nil => simp [Token.faultAt, hkind] at ht
    | @push right operands read us h hright =>
      cases h with
      | nil => simp [Token.faultAt, hkind] at ht
      | @push left operands read ts h hleft =>
        refine ⟨.binary t.text left right :: operands, ?_,
          fun rest => ofRpnFrom_of_operator operands rest hkind left right⟩
        have hread : read ++ ts ++ us ++ [t] = read ++ (ts ++ us ++ [t]) := by simp
        rw [hread]
        exact h.push (.binary hkind hleft hright)
  | openBracket | closeBracket => simp [Token.faultAt, hkind] at ht

/-- **A token with a fault** ends the reading. -/
theorem ofRpnFrom_of_fault (h : Holds operands read) {t : Token} {error : TreeError}
    (ht : t.faultAt (height read) = some error) (rest : List Token) :
    Tree.ofRpnFrom operands (t :: rest) = .error error := by
  rw [h.height_eq] at ht
  cases hkind : t.kind with
  | number | «variable» => simp [Token.faultAt, hkind] at ht
  | function | operator =>
    -- a stack that is too low has one of the shapes for which there is no tree
    rcases operands with _ | ⟨right, _ | ⟨left, operands⟩⟩ <;>
      simp_all [Token.faultAt, Tree.ofRpnFrom]
  | openBracket | closeBracket =>
    simp only [Token.faultAt, hkind, Option.some.injEq] at ht
    simp only [Tree.ofRpnFrom, hkind, ht]

end Holds

/-- **A list without a fault** is read to its end. -/
theorem Served.exists_holds {ts : List Token} (h : Served ts) :
    ∃ operands, Holds operands ts ∧
      ∀ rest, Tree.ofRpnFrom [] (ts ++ rest) = Tree.ofRpnFrom operands rest := by
  induction ts using List.reverseRecOn with
  | nil => exact ⟨[], .nil, fun rest => rfl⟩
  | append_singleton ts t ih =>
    obtain ⟨hts, ht⟩ := served_concat.1 h
    obtain ⟨operands, hholds, hread⟩ := ih hts
    obtain ⟨operands', hholds', hstep⟩ := hholds.step ht
    refine ⟨operands', hholds', fun rest => ?_⟩
    rw [List.append_assoc, hread, List.singleton_append, hstep]

/-- The first fault of a list is what it is reported for. -/
theorem ofRpn_of_fault {ts front : List Token} {t : Token} {error : TreeError}
    (hstart : front ++ [t] <+: ts) (hfront : Served front)
    (hfault : t.faultAt (height front) = some error) : Tree.ofRpn ts = .error error := by
  obtain ⟨rest, rfl⟩ := hstart
  obtain ⟨operands, hholds, hread⟩ := hfront.exists_holds
  rw [Tree.ofRpn, List.append_assoc, hread]
  exact hholds.ofRpnFrom_of_fault hfault rest

/-- **The end of a list without a fault**: nothing was read, or one tree is left, or several. -/
theorem Served.ofRpn_cases {ts : List Token} (h : Served ts) :
    (ts = [] ∧ Tree.ofRpn ts = .error .empty) ∨
      (height ts = 1 ∧ ∃ t : Tree, t.Postorder ts ∧ Tree.ofRpn ts = .ok t) ∨
      (2 ≤ height ts ∧ Tree.ofRpn ts = .error (.leftover (height ts))) := by
  obtain ⟨operands, hholds, hread⟩ := h.exists_holds
  have hend : Tree.ofRpn ts = Tree.ofRpnFrom operands [] := by
    rw [Tree.ofRpn, ← hread [], List.append_nil]
  rw [hend, hholds.height_eq]
  rcases operands with _ | ⟨t, _ | ⟨u, operands⟩⟩
  · cases hholds
    exact .inl ⟨rfl, rfl⟩
  · exact .inr (.inl ⟨rfl, t, hholds.postorder, rfl⟩)
  · exact .inr (.inr ⟨by simp, rfl⟩)

/-- Only a postorder is read as a tree. -/
theorem postorder_of_ofRpn {ts : List Token} {t : Tree} (h : Tree.ofRpn ts = .ok t) :
    t.Postorder ts := by
  rcases served_or_exists_fault ts with hserved | ⟨front, u, error, hstart, hfront, hfault⟩
  · rcases hserved.ofRpn_cases with ⟨-, hempty⟩ | ⟨-, t', hpost, hok⟩ | ⟨-, hleft⟩
    · simp [hempty] at h
    · rw [hok] at h
      exact Except.ok.inj h ▸ hpost
    · simp [hleft] at h
  · simp [ofRpn_of_fault hstart hfront hfault] at h

/-! ### Reading as decoding -/

/-- **Reading decodes postorders.** A list is read as a tree exactly if there is no bracket in it
and it is the postorder of that tree, so it is that of no other one, and every tree is read from its
own postorder. Any other list is reported: for the first token that is a bracket or lacks operands;
if there is none, for being empty or for the operands that are left. -/
theorem ofRpn_decodes (ts : List Token) (t : Tree) :
    (Tree.ofRpn ts = .ok t ↔ (∀ u ∈ ts, ¬ u.isOpen ∧ ¬ u.isClose) ∧ t.Postorder ts) ∧
      (∀ t' : Tree, t.Postorder ts → t'.Postorder ts → t' = t) ∧
      (∃ us, t.Postorder us ∧ Tree.ofRpn us = .ok t) ∧
      (∀ front u error, front ++ [u] <+: ts → Served front →
        u.faultAt (height front) = some error → Tree.ofRpn ts = .error error) ∧
      (Served ts → (∀ t' : Tree, Tree.ofRpn ts ≠ .ok t') →
        (ts = [] ∧ Tree.ofRpn ts = .error .empty) ∨
          (2 ≤ height ts ∧ Tree.ofRpn ts = .error (.leftover (height ts)))) := by
  refine ⟨⟨fun h => ?_, fun h => h.2.ofRpn_eq⟩, ?_, ?_, ?_, ?_⟩
  · have hpost := postorder_of_ofRpn h
    exact ⟨hpost.not_bracket, hpost⟩
  · intro t' hpost hpost'
    exact Except.ok.inj (hpost'.ofRpn_eq.symm.trans hpost.ofRpn_eq)
  · obtain ⟨us, hus⟩ := t.exists_postorder
    exact ⟨us, hus, hus.ofRpn_eq⟩
  · intro front u error hstart hfront hfault
    exact ofRpn_of_fault hstart hfront hfault
  · intro hserved hnone
    rcases hserved.ofRpn_cases with hempty | ⟨-, t', -, hok⟩ | hleft
    · exact .inl hempty
    · exact absurd hok (hnone t')
    · exact .inr hleft

/-- In `x sin * )` the operator is reported, which comes behind one finished operand, and not the
bracket further on. -/
theorem ofRpn_decodes_malformed :
    let front : List Token := [⟨.variable, "x", 0⟩, ⟨.function, "sin", 2⟩]
    let times : Token := ⟨.operator, "*", 6⟩
    let ts : List Token := front ++ [times] ++ [⟨.closeBracket, ")", 8⟩]
    front ++ [times] <+: ts ∧ Served front ∧
      times.faultAt (height front) = some (.missingOperand "*" 6) ∧
      Tree.ofRpn ts = .error (.missingOperand "*" 6) := by
  intro front times ts
  have hstart : front ++ [times] <+: ts := List.prefix_append _ _
  have hfront : Served front :=
    served_concat.2 ⟨served_concat.2 ⟨served_nil, by decide⟩, by decide⟩
  have hfault : times.faultAt (height front) = some (.missingOperand "*" 6) := by decide
  obtain ⟨-, -, -, hreport, -⟩ := ofRpn_decodes ts (.leaf "x")
  exact ⟨hstart, hfront, hfault, hreport front times _ hstart hfront hfault⟩

end Formula
