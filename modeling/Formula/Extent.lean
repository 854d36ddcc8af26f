import Formula.Bracket

/-!
# Extents

How far an operand reaches. An atom is an operand, a bracketed region or a call; a power is a run
of atoms joined by `^`; a term is a run of powers joined by `*` and `/`.

A scan counts the tokens of such a piece at the front of a list. The list is read in the direction
of the walk, so the same scans measure what stands to the right of a token and, on the reversed
list, what stands to its left. A scan that does not find what it looks for fails as a whole; on the
tokens of an expression none does. No scan counts more tokens than there are (`Scan.Within`).
-/

namespace Formula

/-- The number of tokens that a piece takes at the front of a list, if it stands there. -/
abbrev Scan : Type := List Token → Option Nat

namespace Scan

/-- First one piece, then another one behind it. -/
def andThen (first second : Scan) : Scan := fun tokens =>
  match first tokens with
  | none => none
  | some n => (second (tokens.drop n)).map (n + ·)

/-- As many links as there are, each an operator of `ops` and a piece behind it. An operator
without its piece makes the whole run fail. -/
def links (ops : List String) (piece : Scan) : Scan
  | [] => some 0
  | t :: tokens =>
    if t.isOperatorIn ops then
      match piece tokens with
      | none => none
      | some n => (links ops piece (tokens.drop n)).map (1 + n + ·)
    else some 0
termination_by tokens => tokens.length

/-- A scan that counts no more tokens than there are. -/
def Within (scan : Scan) : Prop :=
  ∀ {tokens : List Token} {n : Nat}, scan tokens = some n → n ≤ tokens.length

theorem Within.andThen {first second : Scan} (hfirst : first.Within) (hsecond : second.Within) :
    (first.andThen second).Within := by
  intro tokens n h
  unfold Scan.andThen at h
  split at h
  case h_1 => simp at h
  case h_2 k hk =>
    obtain ⟨m, hm, rfl⟩ := Option.map_eq_some_iff.1 h
    have := hfirst hk
    have := hsecond hm
    simp only [List.length_drop] at this
    omega

theorem Within.links {ops : List String} {piece : Scan} (hpiece : piece.Within) :
    (links ops piece).Within := by
  intro tokens n h
  fun_induction Scan.links ops piece tokens generalizing n with
  | case1 => simp at h; omega
  | case2 => simp at h
  | case3 t tokens hop k hk ih =>
    obtain ⟨m, hm, rfl⟩ := Option.map_eq_some_iff.1 h
    have := hpiece hk
    have := ih hm
    simp only [List.length_drop, List.length_cons] at this ⊢
    omega
  | case4 => simp at h; omega

end Scan

namespace Extent

/-- An operand, a bracketed region or a call. Rightward, a call starts with its name and ends with
its bracket; leftward, a name in front of a bracketed region belongs to it. -/
def atom (d : Direction) : Scan
  | [] => none
  | t :: tokens =>
    if t.isOperand then some 1
    else
      match d with
      | .rightward =>
        if t.isOpen || t.kind == .function then bracketSpan .rightward 0 (t :: tokens) else none
      | .leftward =>
        if t.isClose then
          (bracketSpan .leftward 0 (t :: tokens)).map fun n =>
            if (t :: tokens)[n]?.any (·.kind == .function) then n + 1 else n
        else none

/-- What continues a power behind its first atom. -/
def powerTail (d : Direction) : Scan :=
  Scan.links ["^"] (atom d)

/-- Atoms joined by `^`. -/
def power (d : Direction) : Scan :=
  (atom d).andThen (powerTail d)

/-- What continues a term behind its first atom. -/
def termTail (d : Direction) : Scan :=
  (powerTail d).andThen (Scan.links ["*", "/"] (power d))

/-- An atom takes something. -/
theorem atom_pos {d : Direction} {tokens : List Token} {n : Nat}
    (h : atom d tokens = some n) : 0 < n := by
  unfold atom at h
  split at h
  case h_1 => simp at h
  case h_2 =>
    split at h
    case isTrue => simp at h; omega
    case isFalse =>
      -- a bracketed span takes at least its two brackets, with a name in front or without
      split at h <;> split at h
      case h_1.isTrue => exact (bracketSpan_bounds h).1
      case h_2.isTrue =>
        obtain ⟨m, hm, rfl⟩ := Option.map_eq_some_iff.1 h
        have := (bracketSpan_bounds hm).1
        split <;> omega
      all_goals simp at h

theorem atom_within (d : Direction) : (atom d).Within := by
  intro tokens n h
  unfold atom at h
  split at h
  case h_1 => simp at h
  case h_2 =>
    split at h
    case isTrue => simp at h ⊢; omega
    case isFalse =>
      split at h <;> split at h
      case h_1.isTrue => exact (bracketSpan_bounds h).2
      case h_2.isTrue =>
        obtain ⟨m, hm, rfl⟩ := Option.map_eq_some_iff.1 h
        have hle := (bracketSpan_bounds hm).2
        split
        case isTrue hany =>
          -- a name behind the span is one more token of the list
          obtain ⟨name, hname, -⟩ := (Option.any_eq_true _ _).1 hany
          exact (List.getElem?_eq_some_iff.1 hname).1
        case isFalse => exact hle
      all_goals simp at h

theorem powerTail_within (d : Direction) : (powerTail d).Within :=
  Scan.Within.links (atom_within d)

theorem power_within (d : Direction) : (power d).Within :=
  Scan.Within.andThen (atom_within d) (powerTail_within d)

theorem termTail_within (d : Direction) : (termTail d).Within :=
  Scan.Within.andThen (powerTail_within d) (Scan.Within.links (power_within d))

end Extent

end Formula
