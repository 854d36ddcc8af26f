import Formula.Proofs.Arranging
import Formula.Proofs.Postorder
import Formula.Proofs.Reduction
import Formula.Proofs.Tokenizing

/-!
# The outcome of an analysis

A formula is rejected with its diagnostics, or ends in a division by zero, or is built into a tree;
the stage that builds the tree does not fail (`analyze_outcome`). Each stage hands on what the next
one needs: an accepted formula has a reading, simplification leaves one without signs, and
regrouping puts brackets around its chains, which leaves a reading whose order is the postorder of
its tree.
-/

namespace Formula

/-- **The tree of an accepted formula** can be built, if nothing in it is divided by zero. -/
theorem exists_tree {ts simplified : List Token} (hne : ts ≠ []) (hvalid : validate ts = [])
    (harith : Arithmetic ts) (hok : simplify ts = .ok simplified) :
    ∃ tree, Tree.ofRpn (toRpn (normalize simplified)) = .ok tree := by
  obtain ⟨p, hp⟩ := exists_reads hne hvalid harith
  obtain ⟨q, hq, hqsigns⟩ := simplify_unsigned hp hok
  exact ⟨q.bracketed.tree, hq.ofRpn_normalize hqsigns⟩

/-- Without diagnostics, a text is an accepted formula over the operators of arithmetic. -/
theorem accepted_of_isEmpty {s : String} (h : (diagnose s).2.isEmpty) :
    (diagnose s).1 ≠ [] ∧ validate (diagnose s).1 = [] ∧ Arithmetic (diagnose s).1 := by
  simp only [diagnose, Diagnostics.isEmpty, Bool.and_eq_true, List.isEmpty_iff] at h
  exact ⟨tokenize_ne_nil h.1, h.2, arithmetic_tokenize s⟩

/-- The text that is analyzed, without the blanks at its ends. -/
def trimmed (s : String) : String :=
  String.ofList (Text.trim s.toList)

section Stages

variable {s : String}

theorem analyze_of_found (h : ¬ (diagnose (trimmed s)).2.isEmpty) :
    analyze s = .error (.rejected (diagnose (trimmed s)).2) := by
  unfold trimmed at h ⊢
  simp only [analyze]
  rw [if_neg h]

theorem analyze_of_division (h : (diagnose (trimmed s)).2.isEmpty) {error : DivisionByZero}
    (hrun : simplify (diagnose (trimmed s)).1 = .error error) :
    analyze s = .error (.divisionByZero error) := by
  unfold trimmed at h hrun
  simp only [analyze]
  rw [if_pos h, hrun]

theorem analyze_of_simplified (h : (diagnose (trimmed s)).2.isEmpty) {simplified : List Token}
    (hrun : simplify (diagnose (trimmed s)).1 = .ok simplified) {tree : Tree}
    (htree : Tree.ofRpn (toRpn (normalize simplified)) = .ok tree) :
    analyze s = .ok ⟨trimmed s, (diagnose (trimmed s)).1, simplified, normalize simplified,
      toRpn (normalize simplified), tree⟩ := by
  unfold trimmed at h hrun ⊢
  simp only [analyze]
  rw [if_pos h, hrun]
  simp only [htree]

/-- **A result** consists of what the stages make, each from what the one before has made. -/
theorem stages_of_analyze {a : Analysis} (h : analyze s = .ok a) :
    (diagnose (trimmed s)).2.isEmpty ∧ simplify (diagnose (trimmed s)).1 = .ok a.simplified ∧
      a.normalized = normalize a.simplified ∧ a.rpn = toRpn a.normalized ∧
      Tree.ofRpn a.rpn = .ok a.tree := by
  unfold analyze at h
  simp only at h
  split at h
  case isFalse => simp at h
  case isTrue hempty =>
    split at h
    case h_1 => simp at h
    case h_2 simplified hrun =>
      split at h
      case h_1 => simp at h
      case h_2 tree htree =>
        obtain rfl := Except.ok.inj h
        exact ⟨hempty, hrun, rfl, rfl, htree⟩

end Stages

/-- **The outcome of an analysis** is never a failure to build the tree. It is a rejection with the
diagnostics of the trimmed text if there are any, else the division by zero that simplification
meets, and else the results of all stages, each made from the one before. -/
theorem analyze_outcome (s : String) :
    let tokens := (diagnose (trimmed s)).1
    let found := (diagnose (trimmed s)).2
    (∀ error, analyze s ≠ .error (.tree error)) ∧
      (¬ found.isEmpty → analyze s = .error (.rejected found)) ∧
      (found.isEmpty →
        (∀ error, simplify tokens = .error error → analyze s = .error (.divisionByZero error)) ∧
        ∀ simplified, simplify tokens = .ok simplified →
          ∃ tree, Tree.ofRpn (toRpn (normalize simplified)) = .ok tree ∧
            analyze s = .ok ⟨trimmed s, tokens, simplified, normalize simplified,
              toRpn (normalize simplified), tree⟩) := by
  intro tokens found
  have hresult (hempty : found.isEmpty) (simplified : List Token)
      (hrun : simplify tokens = .ok simplified) :
      ∃ tree, Tree.ofRpn (toRpn (normalize simplified)) = .ok tree ∧
        analyze s = .ok ⟨trimmed s, tokens, simplified, normalize simplified,
          toRpn (normalize simplified), tree⟩ := by
    -- without diagnostics the formula has a reading, and so has what comes of it
    obtain ⟨hne, hvalid, harith⟩ := accepted_of_isEmpty hempty
    obtain ⟨tree, htree⟩ := exists_tree hne hvalid harith hrun
    exact ⟨tree, htree, analyze_of_simplified hempty hrun htree⟩
  refine ⟨?_, analyze_of_found, ?_⟩
  · -- each of the three cases has another outcome
    intro error htree
    by_cases hempty : found.isEmpty
    · cases hrun : simplify tokens with
      | error division => simp [analyze_of_division hempty hrun] at htree
      | ok simplified =>
        obtain ⟨tree, -, hok⟩ := hresult hempty simplified hrun
        simp [hok] at htree
    · simp [analyze_of_found hempty] at htree
  · intro hempty
    constructor
    · intro error hrun
      exact analyze_of_division hempty hrun
    · exact hresult hempty

end Formula
