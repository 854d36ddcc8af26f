import Formula.Bracket

/-!
# Balanced brackets

A token list is balanced if its brackets nest: every opening one has a partner behind it, and what
stands between the two is balanced again. The predicate `Balanced` is closed under concatenation,
so it says nothing about the order of the other tokens.

Every way of following brackets in this library passes over a balanced list as if it were not there:

* `Balanced.bracketSpan` — a walk comes out at the depth at which it went in, whichever way it goes;
* `Balanced.unmatched` — no bracket is left over, and the pending ones stay pending.
-/

namespace Formula

/-! ### Brackets -/

/-- An opening or a closing bracket. -/
def Token.isBracket (t : Token) : Bool :=
  t.isOpen || t.isClose

theorem Token.isBracket_eq_true_iff {t : Token} : t.isBracket ↔ t.isOpen ∨ t.isClose := by
  rw [isBracket, Bool.or_eq_true]

theorem Token.isBracket_eq_false_iff {t : Token} :
    t.isBracket = false ↔ ¬ t.isOpen ∧ ¬ t.isClose := by
  rw [isBracket, Bool.or_eq_false_iff, Bool.not_eq_true, Bool.not_eq_true]

/-- A list around one of its places. -/
theorem exists_append_of_getElem? {α : Type} {as : List α} {i : Nat} {a : α}
    (h : as[i]? = some a) : ∃ xs ys, as = xs ++ a :: ys ∧ i = xs.length := by
  obtain ⟨hlt, rfl⟩ := List.getElem?_eq_some_iff.1 h
  refine ⟨as.take i, as.drop (i + 1), by simp, ?_⟩
  rw [List.length_take]
  omega

/-! ### One step of a walk -/

theorem bracketSpan_of_enters {d : Direction} {t : Token} (h : d.enters t) (depth : Nat)
    (tokens : List Token) :
    bracketSpan d depth (t :: tokens) = (bracketSpan d (depth + 1) tokens).map (· + 1) := by
  rw [bracketSpan.eq_def]
  simp [h]

theorem bracketSpan_of_leaves {d : Direction} {t : Token} (he : ¬ d.enters t) (hl : d.leaves t)
    (depth : Nat) (tokens : List Token) :
    bracketSpan d (depth + 2) (t :: tokens) =
      (bracketSpan d (depth + 1) tokens).map (· + 1) := by
  rw [bracketSpan.eq_def]
  simp [he, hl]

theorem bracketSpan_one_of_leaves {d : Direction} {t : Token} (he : ¬ d.enters t)
    (hl : d.leaves t) (tokens : List Token) : bracketSpan d 1 (t :: tokens) = some 1 := by
  rw [bracketSpan.eq_def]
  simp [he, hl]

theorem bracketSpan_of_not_bracket {d : Direction} {t : Token} (he : ¬ d.enters t)
    (hl : ¬ d.leaves t) (depth : Nat) (tokens : List Token) :
    bracketSpan d depth (t :: tokens) = (bracketSpan d depth tokens).map (· + 1) := by
  rw [bracketSpan.eq_def]
  simp [he, hl]

/-- The tokens in the order in which a walk meets them. -/
def Direction.along (d : Direction) (tokens : List Token) : List Token :=
  match d with
  | .rightward => tokens
  | .leftward => tokens.reverse

@[simp] theorem Direction.along_singleton (d : Direction) (t : Token) : d.along [t] = [t] := by
  cases d <;> rfl

@[simp] theorem Direction.length_along (d : Direction) (tokens : List Token) :
    (d.along tokens).length = tokens.length := by
  cases d <;> simp [along]

/-- A walk enters a pair at one end and leaves it at the other, whichever comes first. -/
theorem Direction.along_pair (d : Direction) {o c : Token} (ho : o.isOpen) (hc : c.isClose)
    (ts : List Token) :
    ∃ e l, d.enters e ∧ ¬ d.enters l ∧ d.leaves l ∧
      d.along (o :: ts ++ [c]) = e :: d.along ts ++ [l] := by
  have hno : ¬ o.isClose := Token.not_isClose_of_isOpen ho
  have hnc : ¬ c.isOpen := fun h => Token.not_isClose_of_isOpen h hc
  cases d with
  | rightward => exact ⟨o, c, ho, hnc, hc, rfl⟩
  | leftward => exact ⟨c, o, hc, hno, ho, by simp [along]⟩

/-! ### Brackets without a partner -/

/-- The brackets without a partner, each of them changed. -/
def Unmatched.map {α β : Type} (f : α → β) (lone : Unmatched α) : Unmatched β :=
  ⟨lone.closing.map f, lone.opening.map f⟩

/-- Brackets are paired by kind. -/
theorem unmatched_map {α β : Type} (f : α → β) (kind : β → Kind) (pending as : List α) :
    unmatched kind (pending.map f) (as.map f) =
      (unmatched (fun a => kind (f a)) pending as).map f := by
  induction as generalizing pending with
  | nil => rfl
  | cons a as ih =>
    rw [List.map_cons, unmatched.eq_def, unmatched.eq_def]
    cases hkind : kind (f a)
    case openBracket => simpa [hkind] using ih (a :: pending)
    case closeBracket =>
      cases pending with
      | nil =>
        have hlater : unmatched kind [] (as.map f) = _ := ih []
        simp [hkind, hlater, Unmatched.map]
      | cons o pending => simpa [hkind] using ih pending
    all_goals simpa [hkind] using ih pending

/-! ### Balanced lists -/

/-- **Nesting.** The brackets of the list are paired up within it. -/
inductive Balanced : List Token → Prop
  | nil : Balanced []
  | token {t : Token} (hopen : ¬ t.isOpen) (hclose : ¬ t.isClose) : Balanced [t]
  | pair {o c : Token} {ts : List Token} (ho : o.isOpen) (hts : Balanced ts) (hc : c.isClose) :
      Balanced (o :: ts ++ [c])
  | append {xs ys : List Token} (hxs : Balanced xs) (hys : Balanced ys) : Balanced (xs ++ ys)

namespace Balanced

/-- **A walk passes over a balanced list.** The depth behind the list is that in front of it. -/
theorem bracketSpan {ts : List Token} (h : Balanced ts) (d : Direction) (depth : Nat)
    (rest : List Token) :
    bracketSpan d (depth + 1) (d.along ts ++ rest) =
      (Formula.bracketSpan d (depth + 1) rest).map (· + ts.length) := by
  induction h generalizing depth rest with
  | nil => cases d <;> simp [Direction.along]
  | @token t hopen hclose =>
    -- a token that is no bracket is passed at the same depth
    have he : ¬ d.enters t := by cases d <;> assumption
    have hl : ¬ d.leaves t := by cases d <;> assumption
    rw [Direction.along_singleton, List.singleton_append, bracketSpan_of_not_bracket he hl]
    rfl
  | @pair o c ts ho hts hc ih =>
    -- in at one end, over the contents one level deeper, out at the other end
    obtain ⟨e, l, he, hnl, hl, halong⟩ := d.along_pair ho hc ts
    rw [halong, List.append_assoc, List.cons_append, List.singleton_append,
      bracketSpan_of_enters he, ih, bracketSpan_of_leaves hnl hl, Option.map_map, Option.map_map]
    congr 1
    funext n
    simp only [Function.comp_apply, List.cons_append, List.length_cons, List.length_append,
      List.length_nil]
    omega
  | @append xs ys _ _ ihxs ihys =>
    -- the half that comes first is passed first
    cases d with
    | rightward =>
      have hx := ihxs depth (ys ++ rest)
      have hy := ihys depth rest
      rw [Direction.along] at hx hy ⊢
      rw [List.append_assoc, hx, hy, Option.map_map, List.length_append]
      congr 1
      funext n
      simp only [Function.comp_apply]
      omega
    | leftward =>
      have hy := ihys depth (xs.reverse ++ rest)
      have hx := ihxs depth rest
      rw [Direction.along] at hx hy ⊢
      rw [List.reverse_append, List.append_assoc, hy, hx, Option.map_map, List.length_append]
      congr 1
      funext n
      simp only [Function.comp_apply]
      omega

/-- A walk that starts at one end of a pair ends at the other. -/
theorem bracketSpan_pair {o c : Token} {ts : List Token} (ho : o.isOpen) (hts : Balanced ts)
    (hc : c.isClose) (d : Direction) (rest : List Token) :
    Formula.bracketSpan d 0 (d.along (o :: ts ++ [c]) ++ rest) = some (ts.length + 2) := by
  obtain ⟨e, l, he, hnl, hl, halong⟩ := d.along_pair ho hc ts
  rw [halong, List.append_assoc, List.cons_append, List.singleton_append,
    bracketSpan_of_enters he, hts.bracketSpan, bracketSpan_one_of_leaves hnl hl]
  simp only [Option.map_some, Option.some.injEq]
  omega

/-- **No bracket is left over.** The pending brackets behind the list are those in front of it. -/
theorem unmatched {ts : List Token} (h : Balanced ts) (pending rest : List Token) :
    unmatched Token.kind pending (ts ++ rest) = Formula.unmatched Token.kind pending rest := by
  induction h generalizing pending rest with
  | nil => rfl
  | @token t hopen hclose =>
    rw [List.singleton_append]
    -- a token that is no bracket is not looked at
    cases hkind : t.kind <;>
      simp_all [Token.isOpen, Token.isClose, Formula.unmatched]
  | @pair o c ts ho _ hc ih =>
    have ho' : o.kind = .openBracket := by simpa [Token.isOpen] using ho
    have hc' : c.kind = .closeBracket := by simpa [Token.isClose] using hc
    calc Formula.unmatched Token.kind pending (o :: ts ++ [c] ++ rest)
        = Formula.unmatched Token.kind (o :: pending) (ts ++ (c :: rest)) := by
          simp [Formula.unmatched, ho']
      _ = Formula.unmatched Token.kind (o :: pending) (c :: rest) := ih _ _
      _ = Formula.unmatched Token.kind pending rest := by simp [Formula.unmatched, hc']
  | append _ _ ihxs ihys =>
    rw [List.append_assoc, ihxs, ihys]

end Balanced

end Formula
