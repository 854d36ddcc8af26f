import Formula.Diagnostics
import Formula.Rule

/-!
# Simplification

The rules are applied one at a time, always at the leftmost token where one applies, until none
does. A division by the literal `0` is looked for before every step and ends the run.

A run comes to an end on every token list, whether it is an expression or not: `weight` counts each
token twice and each leading sign three times, and every edit lowers it (`weight_apply_lt`). An edit
for a leading sign adds a token but settles the sign; any other edit takes away two tokens and can
bring at most one sign into leading position.
-/

namespace Formula

/-! ### Division by zero -/

/-- The first division whose divisor starts with the literal `0`. -/
def findDivisionByZero : List Token → Option DivisionByZero
  | first :: second :: tokens =>
    if first.isOperator "/" && second.isNumber "0" then some ⟨first.position⟩
    else findDivisionByZero (second :: tokens)
  | _ => none

/-! ### The next edit -/

/-- The leftmost place behind `before` where a rule applies, and its edit. -/
def nextEditFrom (before : List Token) : List Token → Option (Cursor × Edit)
  | [] => none
  | t :: tokens =>
    match (Cursor.mk before t tokens).edit? with
    | some e => some (⟨before, t, tokens⟩, e)
    | none => nextEditFrom (t :: before) tokens

/-- The leftmost place in a list where a rule applies, and its edit. -/
def nextEdit (tokens : List Token) : Option (Cursor × Edit) :=
  nextEditFrom [] tokens

theorem nextEditFrom_eq_some {before tokens : List Token} {c : Cursor} {e : Edit}
    (h : nextEditFrom before tokens = some (c, e)) :
    c.toList = before.reverse ++ tokens ∧ c.edit? = some e := by
  induction tokens generalizing before with
  | nil => simp [nextEditFrom] at h
  | cons t tokens ih =>
    rw [nextEditFrom] at h
    split at h
    case h_1 e' he' =>
      obtain ⟨rfl, rfl⟩ := Prod.mk.inj (Option.some.inj h)
      exact ⟨rfl, he'⟩
    case h_2 => simpa using ih h

theorem nextEdit_eq_some {tokens : List Token} {c : Cursor} {e : Edit}
    (h : nextEdit tokens = some (c, e)) : c.toList = tokens ∧ c.edit? = some e := by
  simpa using nextEditFrom_eq_some h

/-! ### Every edit lowers the weight -/

/-- The number of signs in leading position: first, if `lead` holds, or behind an opening
bracket. -/
def leadingSigns (lead : Bool) : List Token → Nat
  | [] => 0
  | t :: tokens => (if lead && t.isSign then 1 else 0) + leadingSigns t.isOpen tokens

/-- The quantity that every edit lowers. -/
def weight (tokens : List Token) : Nat :=
  2 * tokens.length + 3 * leadingSigns true tokens

/-- Whether the token behind a list is in leading position. -/
def leadsAfter (lead : Bool) (tokens : List Token) : Bool :=
  (tokens.getLast?.map Token.isOpen).getD lead

theorem leadingSigns_append (lead : Bool) (front back : List Token) :
    leadingSigns lead (front ++ back) =
      leadingSigns lead front + leadingSigns (leadsAfter lead front) back := by
  induction front generalizing lead with
  | nil => simp [leadingSigns, leadsAfter]
  | cons t front ih =>
    have hlast : leadsAfter lead (t :: front) = leadsAfter t.isOpen front := by
      cases hf : front.getLast? <;> simp [leadsAfter, List.getLast?_cons, hf]
    rw [List.cons_append, leadingSigns, ih, leadingSigns, hlast]
    omega

/-- Only the first token depends on what stands in front. -/
theorem leadingSigns_le_add_one (lead lead' : Bool) (tokens : List Token) :
    leadingSigns lead tokens ≤ leadingSigns lead' tokens + 1 := by
  cases tokens with
  | nil => simp [leadingSigns]
  | cons t tokens =>
    simp only [leadingSigns]
    split <;> split <;> omega

theorem leadingSigns_drop_le (lead lead' : Bool) (tokens : List Token) (n : Nat) :
    leadingSigns lead (tokens.drop n) ≤ leadingSigns lead' tokens + 1 := by
  conv => rhs; rw [← List.take_append_drop n tokens, leadingSigns_append]
  have := leadingSigns_le_add_one lead (leadsAfter lead' (tokens.take n)) (tokens.drop n)
  omega

theorem leadingSigns_eq_zero_of_numbers {lead : Bool} {t : Option Token}
    (h : ∀ u ∈ t, u.kind = .number) : leadingSigns lead t.toList = 0 := by
  cases t with
  | none => rfl
  | some u => simp [leadingSigns, Token.isSign, Token.isOperatorIn, h u rfl]

theorem leadsAfter_reverse (before : List Token) :
    leadsAfter true before.reverse = before.head?.all Token.isOpen := by
  cases before <;> simp [leadsAfter]

open Cursor in
/-- **Every edit lowers the weight.** -/
theorem weight_apply_lt {c : Cursor} {e : Edit} (h : c.edit? = some e) :
    weight (c.apply e) < weight c.toList := by
  rcases edit?_shape h with ⟨hsign, hlead, rfl⟩ | hshort
  · -- the sign stops leading, at the price of one token
    have hopen : c.focus.isOpen = false := by
      simp only [Token.isSign, Token.isOperatorIn, Bool.and_eq_true, beq_iff_eq] at hsign
      simp [Token.isOpen, hsign.1]
    have hleads : leadsAfter true c.before.reverse = true := by
      rw [leadsAfter_reverse]
      exact hlead
    have hzero : (c.literal "0").isSign = false := rfl
    have hzero' : (c.literal "0").isOpen = false := rfl
    simp only [weight, apply, toList, List.drop_zero, Option.toList_some, List.append_assoc,
      List.singleton_append, leadingSigns_append, leadingSigns, List.length_append,
      List.length_cons, List.length_reverse, hleads, hsign, hopen, hzero, hzero']
    simp
    omega
  · -- two tokens go, and at most one sign comes to lead
    obtain ⟨hback, hahead, hshorter, hnumber⟩ := hshort
    have hsplit : c.before.reverse =
        (c.before.drop e.back).reverse ++ (c.before.take e.back).reverse := by
      rw [← List.reverse_append, List.take_append_drop]
    have hfront : leadingSigns true (c.before.drop e.back).reverse ≤
        leadingSigns true c.before.reverse := by
      rw [hsplit, leadingSigns_append]
      omega
    have hinsert (lead : Bool) : leadingSigns lead e.insert.toList = 0 :=
      leadingSigns_eq_zero_of_numbers hnumber
    have htail := leadingSigns_drop_le
      (leadsAfter (leadsAfter true (c.before.drop e.back).reverse) e.insert.toList)
      (leadsAfter true c.before.reverse) (c.focus :: c.after) e.ahead
    simp only [weight, apply, toList, List.append_assoc, leadingSigns_append, hinsert,
      List.length_append, List.length_reverse, List.length_drop, List.length_cons]
    omega

/-! ### Runs -/

/-- A run of the rules: what was done, and where it ended. -/
structure Run where
  /-- The edits in the order of their application, each with the cursor it was applied at. -/
  edits : List (Cursor × Edit)
  outcome : Except DivisionByZero (List Token)

/-- Applies rules until none applies or a division by zero is found. -/
def run (tokens : List Token) : Run :=
  match findDivisionByZero tokens with
  | some error => ⟨[], .error error⟩
  | none =>
    match _h : nextEdit tokens with
    | none => ⟨[], .ok tokens⟩
    | some (c, e) =>
      let later := run (c.apply e)
      { later with edits := (c, e) :: later.edits }
termination_by weight tokens
decreasing_by
  obtain ⟨hlist, hedit⟩ := nextEdit_eq_some _h
  exact hlist ▸ weight_apply_lt hedit

/-- The simplified formula, or the division by zero that was met. -/
def simplify (tokens : List Token) : Except DivisionByZero (List Token) :=
  (run tokens).outcome

section Steps

variable {tokens : List Token}

theorem simplify_of_division {error : DivisionByZero} (h : findDivisionByZero tokens = some error) :
    simplify tokens = .error error := by
  rw [simplify, run, h]

theorem simplify_of_nextEdit_eq_none (h : findDivisionByZero tokens = none)
    (hnone : nextEdit tokens = none) : simplify tokens = .ok tokens := by
  rw [simplify, run, h]
  simp only
  split
  case h_1 => rfl
  case h_2 hsome => simp [hnone] at hsome

theorem simplify_of_nextEdit (h : findDivisionByZero tokens = none) {c : Cursor} {e : Edit}
    (hsome : nextEdit tokens = some (c, e)) : simplify tokens = simplify (c.apply e) := by
  rw [simplify, run, h]
  simp only
  split
  case h_1 hnone => simp [hsome] at hnone
  case h_2 c' e' hnext =>
    obtain ⟨rfl, rfl⟩ := Prod.mk.inj (Option.some.inj (hsome.symm.trans hnext))
    rfl

end Steps

end Formula
