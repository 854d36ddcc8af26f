import Formula.Proofs.Enclosing
import Formula.Proofs.Stability

/-!
# Nothing is decided by places and names

The stages of the analysis, from the check of the structure on, do the same to relabelled tokens as
to the given ones, whatever the list is (`Relabelling`). What is left to show for that is the check:
it reports as often as before, and at the new places (`Relabelling.places_validate`).

As an instance, all tokens may be put at one place (`Relabelling.forget`). Two texts with the same
tokens, but for the places, then lie behind one list without places, and what a stage makes of one
of them it makes of the other (`SameTokens`). So white space between the tokens shows in no result
(`stages_indifferent`).
-/

namespace Formula

/-- The places at which errors are reported. -/
def places (errors : List StructuralError) : List Nat :=
  errors.map StructuralError.position

theorem places_append (errors later : List StructuralError) :
    places (errors ++ later) = places errors ++ places later :=
  List.map_append

theorem places_eq_nil_iff {errors : List StructuralError} : places errors = [] ↔ errors = [] :=
  List.map_eq_nil_iff

theorem places_report (condition : Bool) (fault : Fault) (position : Nat) :
    places (report condition fault position) = if condition then [position] else [] := by
  cases condition <;> rfl

namespace Relabelling

variable (m : Relabelling)

/-! ### The check of the structure -/

@[simp] theorem isOperandLike_token (t : Token) :
    (m.token t).isOperandLike = t.isOperandLike := rfl

@[simp] theorem isBinaryOnlyOperator_token (t : Token) :
    (m.token t).isBinaryOnlyOperator = t.isBinaryOnlyOperator := by
  rw [Token.isBinaryOnlyOperator, isSign_token, kind_token, Token.isBinaryOnlyOperator]

theorem places_startErrors (t : Token) :
    places (startErrors (m.token t)) = (places (startErrors t)).map m.place := by
  simp only [startErrors, places_report, isBinaryOnlyOperator_token, isClose_token, position_token,
    apply_ite (List.map m.place), List.map_cons, List.map_nil]

theorem places_endErrors (t : Token) :
    places (endErrors (m.token t)) = (places (endErrors t)).map m.place := by
  cases hkind : t.kind <;> simp [endErrors, places, hkind]

/-- **The nine looks at a pair** are at kinds and operators only. -/
theorem places_pairErrors (t u : Token) :
    places (pairErrors (m.token t) (m.token u)) = (places (pairErrors t u)).map m.place := by
  simp only [pairErrors, places_append, List.map_append, isOperandLike_token, kind_token,
    isOpen_token, isClose_token, isOperand_token, isBinaryOnlyOperator_token, position_token,
    places_report, apply_ite (List.map m.place), List.map_cons, List.map_nil]

theorem places_neighbourErrors (ts : List Token) :
    places (neighbourErrors (ts.map m.token)) = (places (neighbourErrors ts)).map m.place := by
  fun_induction neighbourErrors ts with
  | case1 t u ts ih =>
    rw [List.map_cons] at ih
    rw [List.map_cons, List.map_cons, neighbourErrors, places_append, places_pairErrors, ih,
      places_append, List.map_append]
  | case2 ts hshort =>
    rcases ts with _ | ⟨t, _ | ⟨u, ts⟩⟩
    · rfl
    · rfl
    · exact (hshort t u ts rfl).elim

theorem places_balanceErrors (ts : List Token) :
    places (balanceErrors (ts.map m.token)) = (places (balanceErrors ts)).map m.place := by
  have hlone : unmatched Token.kind [] (ts.map m.token) =
      (unmatched Token.kind [] ts).map m.token :=
    unmatched_map m.token Token.kind [] ts
  rw [balanceErrors, hlone]
  simp [balanceErrors, places, Unmatched.map, Function.comp_def]

/-- **The check** reports as many faults of relabelled tokens, at the new places. -/
theorem places_validate (ts : List Token) :
    places (validate (ts.map m.token)) = (places (validate ts)).map m.place := by
  cases ts with
  | nil => rfl
  | cons t ts =>
    have hneighbours := m.places_neighbourErrors (t :: ts)
    have hbalance := m.places_balanceErrors (t :: ts)
    rw [List.map_cons] at hneighbours hbalance
    have hlast : (m.token t :: ts.map m.token).getLast (List.cons_ne_nil _ _) =
        m.token ((t :: ts).getLast (List.cons_ne_nil t ts)) := by
      simp only [← List.map_cons, List.getLast_map]
    rw [List.map_cons, validate, hlast]
    simp only [validate, places_append, List.map_append, places_startErrors, places_endErrors,
      hneighbours, hbalance]

theorem validate_map_eq_nil_iff (ts : List Token) :
    validate (ts.map m.token) = [] ↔ validate ts = [] := by
  rw [← places_eq_nil_iff, places_validate, List.map_eq_nil_iff, places_eq_nil_iff]

/-! ### Tokens without places -/

/-- All tokens at one place. -/
def forget : Relabelling :=
  ⟨fun _ => 0, id⟩

theorem token_forget : forget.token = Token.bare := by
  funext t
  simp [token, forget, Token.bare]

end Relabelling

/-- The same tokens, but for the places. -/
def SameTokens (ts us : List Token) : Prop :=
  ts.map Token.bare = us.map Token.bare

instance (ts us : List Token) : Decidable (SameTokens ts us) :=
  inferInstanceAs (Decidable (ts.map Token.bare = us.map Token.bare))

namespace SameTokens

open Relabelling

variable {ts us : List Token}

theorem map_forget (h : SameTokens ts us) : ts.map forget.token = us.map forget.token := by
  rwa [token_forget]

theorem validate_eq_nil (h : SameTokens ts us) (hvalid : validate us = []) : validate ts = [] := by
  rw [← forget.validate_map_eq_nil_iff] at hvalid ⊢
  rwa [h.map_forget]

theorem exists_simplify (h : SameTokens ts us) {out : List Token} (hok : simplify us = .ok out) :
    ∃ out', simplify ts = .ok out' ∧ SameTokens out' out := by
  have hrun : forget.outcome (simplify ts) = .ok (out.map forget.token) := by
    rw [← simplify_map, h.map_forget, simplify_map, hok, outcome]
  cases hts : simplify ts with
  | error error => simp [hts, outcome] at hrun
  | ok out' =>
    rw [hts, outcome, token_forget] at hrun
    exact ⟨out', rfl, Except.ok.inj hrun⟩

theorem normalize (h : SameTokens ts us) : SameTokens (normalize ts) (normalize us) := by
  rw [SameTokens, ← token_forget, ← normalize_map, ← normalize_map, h.map_forget]

theorem toRpn (h : SameTokens ts us) : SameTokens (toRpn ts) (toRpn us) := by
  rw [SameTokens, ← token_forget, ← toRpn_map, ← toRpn_map, h.map_forget]

theorem ofRpn_eq (h : SameTokens ts us) {tree tree' : Tree} (hts : Tree.ofRpn ts = .ok tree)
    (hus : Tree.ofRpn us = .ok tree') : tree = tree' := by
  have hbare (text : String) : forget.rename text = text := rfl
  have hsame : (Except.ok tree : Except TreeError Tree) = .ok tree' := by
    rw [← forget.ofRpnFrom_map hbare hts, ← forget.ofRpnFrom_map hbare hus, h.map_forget]
  exact Except.ok.inj hsame

end SameTokens

/-- **Places and the names of variables decide nothing.** On any token list, each stage does the
same to relabelled tokens: they are accepted if the given ones are, a simplification has the
relabelled outcome, and so on. Two texts with the same tokens, whatever white space stands between
them, have the same results. -/
theorem stages_indifferent :
    (∀ (m : Relabelling) (ts : List Token),
      (validate (ts.map m.token) = [] ↔ validate ts = []) ∧
        simplify (ts.map m.token) = m.outcome (simplify ts) ∧
        Item.flatten (group (ts.map m.token)) = (Item.flatten (group ts)).map m.token ∧
        toRpn (ts.map m.token) = (toRpn ts).map m.token) ∧
      ∀ {s s' : String} {a : Analysis}, analyze s = .ok a → (tokenize s').errors = [] →
        SameTokens (tokenize s').tokens (tokenize s).tokens →
          ∃ b, analyze s' = .ok b ∧ b.simplifiedText = a.simplifiedText ∧
            Token.join b.normalized "" = Token.join a.normalized "" ∧ b.rpnText = a.rpnText ∧
            b.tree = a.tree := by
  refine ⟨fun m ts => ⟨m.validate_map_eq_nil_iff ts, m.simplify_map ts, m.normalize_map ts,
    m.toRpn_map ts⟩, fun {s s' a} h hlex hsame => ?_⟩
  obtain ⟨hempty, hrun, hnormalized, hrpn, htree⟩ := stages_of_analyze h
  rw [diagnose_trimmed] at hempty hrun
  -- the second text is accepted too
  obtain ⟨-, hvalid, -⟩ := accepted_of_isEmpty hempty
  have hempty' : (diagnose s').2.isEmpty := by
    simp [diagnose, Diagnostics.isEmpty, hlex, hsame.validate_eq_nil hvalid]
  obtain ⟨hne', hvalid', harith'⟩ := accepted_of_isEmpty hempty'
  -- and each stage goes on with the same tokens
  obtain ⟨out, hrun', hout⟩ := hsame.exists_simplify hrun
  obtain ⟨tree, htree'⟩ := exists_tree hne' hvalid' harith' hrun'
  have hbrackets : SameTokens (normalize out) a.normalized := hnormalized ▸ hout.normalize
  have horder : SameTokens (toRpn (normalize out)) a.rpn := hrpn ▸ hbrackets.toRpn
  exact ⟨_, analyze_of_simplified (by rwa [diagnose_trimmed]) (by rwa [diagnose_trimmed]) htree',
    join_eq_of_map_bare hout "", join_eq_of_map_bare hbrackets "", join_eq_of_map_bare horder " ",
    horder.ofRpn_eq htree' htree⟩

/-- Where the blanks stand in `x - 1*y - sin( z )` does not matter. -/
theorem stages_indifferent_spacing :
    ∃ a, analyze "x - 1*y - sin( z )" = .ok a ∧ a.simplifiedText = "x-y-sin(z)" ∧
      Token.join a.normalized "" = "x-(y+sin(z))" ∧ (tokenize "\tx-1 * y-sin(z)").errors = [] ∧
      SameTokens (tokenize "\tx-1 * y-sin(z)").tokens (tokenize "x - 1*y - sin( z )").tokens ∧
      ∃ b, analyze "\tx-1 * y-sin(z)" = .ok b ∧ b.simplifiedText = a.simplifiedText ∧
        Token.join b.normalized "" = Token.join a.normalized "" ∧ b.rpnText = a.rpnText ∧
        b.tree = a.tree := by
  have htexts : (analyze "x - 1*y - sin( z )").toOption.map (fun a =>
      (a.simplifiedText, Token.join a.normalized "")) = some ("x-y-sin(z)", "x-(y+sin(z))") := by
    decide +kernel
  have hlex : (tokenize "\tx-1 * y-sin(z)").errors = [] := by decide +kernel
  have hsame : SameTokens (tokenize "\tx-1 * y-sin(z)").tokens
      (tokenize "x - 1*y - sin( z )").tokens := by
    decide +kernel
  cases hrun : analyze "x - 1*y - sin( z )" with
  | error => simp [hrun, Except.toOption] at htexts
  | ok a =>
    obtain ⟨hsimplified, hnormalized⟩ : a.simplifiedText = "x-y-sin(z)" ∧
        Token.join a.normalized "" = "x-(y+sin(z))" := by
      simpa [hrun, Except.toOption] using htexts
    exact ⟨a, rfl, hsimplified, hnormalized, hlex, hsame,
      stages_indifferent.2 hrun hlex hsame⟩

end Formula
