import Formula.Cursor

/-!
# The rules of simplification

Which edit, if any, applies at a token. Only three tokens call for one: a leading sign, a number
`0` and a number `1`.

A power with one of these literals is settled first: `x^0` and `1^x` are `1`, `x^1` is `x`, and
`0^n` is `0` for a literal `n` that is not zero. A zero raised to anything else is kept, since its
value depends on the exponent. Otherwise a factor `0` makes its whole term `0`, a factor `1` or a
summand `0` is dropped.

The first case that fits a token decides. Where its operand cannot be measured, no other case is
tried. `Cursor.Calls` lists what can come of it, with all that is known about the cursor then.

The main statement is `edit?_shape`: an edit either puts a zero in front of a leading sign, or takes
away at least two tokens more than it puts in. Simplification ends because of it.
-/

namespace Formula

/-- A number literal with a digit other than zero. -/
def Token.isPositiveLiteral (t : Token) : Bool :=
  t.kind == .number && t.text.toList.any fun c => c.isDigit && c != '0'

theorem Token.kind_of_isPositiveLiteral {t : Token} (h : t.isPositiveLiteral) :
    t.kind = .number := by
  simp only [isPositiveLiteral, Bool.and_eq_true, beq_iff_eq] at h
  exact h.1

namespace Cursor

/-- The term around the cursor: how many of its tokens stand in front, and how many behind. -/
def term (c : Cursor) : Option (Nat × Nat) :=
  match Extent.termTail .leftward c.before, Extent.termTail .rightward c.after with
  | some back, some ahead => some (back, ahead)
  | _, _ => none

theorem term_eq_some_iff {c : Cursor} {back ahead : Nat} :
    c.term = some (back, ahead) ↔ Extent.termTail .leftward c.before = some back ∧
      Extent.termTail .rightward c.after = some ahead := by
  unfold term
  split
  case h_1 hleft hright => simp [hleft, hright]
  case h_2 hnot =>
    refine iff_of_false (by simp) ?_
    rintro ⟨hleft, hright⟩
    exact hnot _ _ hleft hright

/-- The edit at an operator: a leading sign gets a zero in front. -/
def signEdit (c : Cursor) : Option Edit :=
  if c.focus.isSign && c.isLeading then some ⟨.unarySign, 0, 0, some (c.literal "0")⟩ else none

/-- The edit at a number `0`. -/
def zeroEdit (c : Cursor) : Option Edit :=
  if c.isPrecededBy ["^"] then
    (Extent.powerTail .leftward c.before).map fun back =>
      ⟨.zeroExponent, back, 1, some (c.literal "1")⟩
  else if c.isFollowedBy ["^"] then
    if (c.after.drop 1).head?.any Token.isPositiveLiteral then
      some ⟨.zeroPower, 0, 3, some c.focus⟩
    else none
  else if c.isPrecededBy ["*"] || c.isFollowedBy ["*", "/"] then
    c.term.map fun (back, ahead) =>
      ⟨if c.isPrecededBy ["*"] || c.isFollowedBy ["*"] then .multiplyByZero else .zeroDividend,
        back, 1 + ahead, some c.focus⟩
  else if c.isPrecededBy ["+", "-"] then some ⟨.identityTerm, 1, 1, none⟩
  else if c.isFollowedBy ["+"] then some ⟨.identityTerm, 0, 2, none⟩
  else none

/-- The edit at a number `1`. -/
def oneEdit (c : Cursor) : Option Edit :=
  if c.isPrecededBy ["^"] then some ⟨.exponentOne, 1, 1, none⟩
  else if c.isFollowedBy ["^"] then
    (Extent.atom .rightward (c.after.drop 1)).map fun n =>
      ⟨.powerOfOne, 0, 2 + n, some c.focus⟩
  else if c.isPrecededBy ["*", "/"] then some ⟨.identityFactor, 1, 1, none⟩
  else if c.isFollowedBy ["*"] then some ⟨.identityFactor, 0, 2, none⟩
  else none

/-- The edit at the cursor, if a rule applies there. -/
def edit? (c : Cursor) : Option Edit :=
  match c.focus.kind with
  | .operator => c.signEdit
  | .number =>
    if c.focus.text = "0" then c.zeroEdit
    else if c.focus.text = "1" then c.oneEdit
    else none
  | _ => none

/-! ### What calls for an edit -/

/-- **The edits of the rules**, each with what calls for it: the token at the cursor, the operator
beside it by which it is called for, and the operators by which it would be called for before. -/
inductive Calls (c : Cursor) : Edit → Prop
  | unarySign (hsign : c.focus.isSign) (hlead : c.isLeading) :
      Calls c ⟨.unarySign, 0, 0, some (c.literal "0")⟩
  | zeroExponent {back : Nat} (hzero : c.focus.isNumber "0") (hop : c.isPrecededBy ["^"])
      (hback : Extent.powerTail .leftward c.before = some back) :
      Calls c ⟨.zeroExponent, back, 1, some (c.literal "1")⟩
  | zeroPower (hzero : c.focus.isNumber "0") (hexponent : ¬ c.isPrecededBy ["^"])
      (hop : c.isFollowedBy ["^"])
      (hliteral : (c.after.drop 1).head?.any Token.isPositiveLiteral) :
      Calls c ⟨.zeroPower, 0, 3, some c.focus⟩
  | zeroFactor {back ahead : Nat} (hzero : c.focus.isNumber "0")
      (hexponent : ¬ c.isPrecededBy ["^"]) (hbase : ¬ c.isFollowedBy ["^"])
      (hop : c.isPrecededBy ["*"] ∨ c.isFollowedBy ["*", "/"])
      (hterm : c.term = some (back, ahead)) :
      Calls c ⟨if c.isPrecededBy ["*"] || c.isFollowedBy ["*"] then .multiplyByZero
        else .zeroDividend, back, 1 + ahead, some c.focus⟩
  | summandRight (hzero : c.focus.isNumber "0") (hbase : ¬ c.isFollowedBy ["^"])
      (hdividend : ¬ c.isFollowedBy ["*", "/"]) (hop : c.isPrecededBy ["+", "-"]) :
      Calls c ⟨.identityTerm, 1, 1, none⟩
  | summandLeft (hzero : c.focus.isNumber "0") (hexponent : ¬ c.isPrecededBy ["^"])
      (hfactor : ¬ c.isPrecededBy ["*"]) (hsummand : ¬ c.isPrecededBy ["+", "-"])
      (hop : c.isFollowedBy ["+"]) : Calls c ⟨.identityTerm, 0, 2, none⟩
  | exponentOne (hone : c.focus.isNumber "1") (hop : c.isPrecededBy ["^"]) :
      Calls c ⟨.exponentOne, 1, 1, none⟩
  | powerOfOne {n : Nat} (hone : c.focus.isNumber "1") (hexponent : ¬ c.isPrecededBy ["^"])
      (hop : c.isFollowedBy ["^"]) (hatom : Extent.atom .rightward (c.after.drop 1) = some n) :
      Calls c ⟨.powerOfOne, 0, 2 + n, some c.focus⟩
  | factorRight (hone : c.focus.isNumber "1") (hbase : ¬ c.isFollowedBy ["^"])
      (hop : c.isPrecededBy ["*", "/"]) : Calls c ⟨.identityFactor, 1, 1, none⟩
  | factorLeft (hone : c.focus.isNumber "1") (hexponent : ¬ c.isPrecededBy ["^"])
      (hfactor : ¬ c.isPrecededBy ["*", "/"]) (hop : c.isFollowedBy ["*"]) :
      Calls c ⟨.identityFactor, 0, 2, none⟩

theorem calls_of_zeroEdit {c : Cursor} {e : Edit} (hzero : c.focus.isNumber "0")
    (h : c.zeroEdit = some e) : c.Calls e := by
  -- the guards are tried in the order in which the rules stand; each one that fails is kept
  unfold zeroEdit at h
  split at h
  case isTrue hop =>
    obtain ⟨back, hback, rfl⟩ := Option.map_eq_some_iff.1 h
    exact .zeroExponent hzero hop hback
  case isFalse hexponent =>
  split at h
  case isTrue hop =>
    split at h
    case isTrue hliteral =>
      obtain rfl := Option.some.inj h
      exact .zeroPower hzero hexponent hop hliteral
    case isFalse => simp at h
  case isFalse hbase =>
  split at h
  case isTrue hop =>
    obtain ⟨⟨back, ahead⟩, hterm, rfl⟩ := Option.map_eq_some_iff.1 h
    exact .zeroFactor hzero hexponent hbase (Bool.or_eq_true_iff.1 hop) hterm
  case isFalse hnot =>
  -- the zero is in no product, so only the rules for sums are left
  simp only [Bool.or_eq_true, not_or] at hnot
  obtain ⟨hfactor, hdividend⟩ := hnot
  split at h
  case isTrue hop =>
    obtain rfl := Option.some.inj h
    exact .summandRight hzero hbase hdividend hop
  case isFalse hsummand =>
  split at h
  case isTrue hop =>
    obtain rfl := Option.some.inj h
    exact .summandLeft hzero hexponent hfactor hsummand hop
  case isFalse => simp at h

theorem calls_of_oneEdit {c : Cursor} {e : Edit} (hone : c.focus.isNumber "1")
    (h : c.oneEdit = some e) : c.Calls e := by
  -- as for a zero, each guard that fails is kept for the rules behind it
  unfold oneEdit at h
  split at h
  case isTrue hop =>
    obtain rfl := Option.some.inj h
    exact .exponentOne hone hop
  case isFalse hexponent =>
  split at h
  case isTrue hop =>
    obtain ⟨n, hatom, rfl⟩ := Option.map_eq_some_iff.1 h
    exact .powerOfOne hone hexponent hop hatom
  case isFalse hbase =>
  split at h
  case isTrue hop =>
    obtain rfl := Option.some.inj h
    exact .factorRight hone hbase hop
  case isFalse hfactor =>
  split at h
  case isTrue hop =>
    obtain rfl := Option.some.inj h
    exact .factorLeft hone hexponent hfactor hop
  case isFalse => simp at h

/-- **Each edit** is one of those. -/
theorem calls_of_edit? {c : Cursor} {e : Edit} (h : c.edit? = some e) : c.Calls e := by
  unfold edit? at h
  split at h
  case h_1 =>
    unfold signEdit at h
    split at h
    case isTrue hboth =>
      obtain ⟨hsign, hlead⟩ := Bool.and_eq_true_iff.1 hboth
      obtain rfl := Option.some.inj h
      exact .unarySign hsign hlead
    case isFalse => simp at h
  case h_2 hkind =>
    split at h
    case isTrue htext => exact calls_of_zeroEdit (by simp [Token.isNumber, hkind, htext]) h
    split at h
    case isTrue htext => exact calls_of_oneEdit (by simp [Token.isNumber, hkind, htext]) h
    case isFalse => simp at h
  case h_3 => simp at h

/-- An edit is one for a sign, or else for a number. -/
theorem Calls.sign_or_number {c : Cursor} {e : Edit} (h : c.Calls e) :
    (c.focus.isSign ∧ c.isLeading ∧ e = ⟨.unarySign, 0, 0, some (c.literal "0")⟩) ∨
      (c.focus.kind = .number ∧ e.rule ≠ .unarySign) := by
  cases h with
  | unarySign hsign hlead => exact .inl ⟨hsign, hlead, rfl⟩
  | zeroFactor h => exact .inr ⟨Token.kind_of_isNumber h, by dsimp only; split <;> decide⟩
  | zeroExponent h | zeroPower h | summandRight h | summandLeft h | exponentOne h | powerOfOne h
  | factorRight h | factorLeft h => exact .inr ⟨Token.kind_of_isNumber h, by simp⟩

/-! ### The shape of an edit -/

/-- An edit that takes away at least two tokens more than it puts in, all of them within the list,
and that puts in nothing but a number. -/
structure Shortens (c : Cursor) (e : Edit) : Prop where
  back_le : e.back ≤ c.before.length
  ahead_le : e.ahead ≤ c.after.length + 1
  shorter : e.insert.toList.length + 2 ≤ e.back + e.ahead
  number : ∀ t ∈ e.insert, t.kind = .number

theorem length_pos_of_isPrecededBy {c : Cursor} {ops : List String} (h : c.isPrecededBy ops) :
    0 < c.before.length := by
  cases hb : c.before <;> simp_all [isPrecededBy]

theorem length_pos_of_isFollowedBy {c : Cursor} {ops : List String} (h : c.isFollowedBy ops) :
    0 < c.after.length := by
  cases ha : c.after <;> simp_all [isFollowedBy]

/-- A run of links that starts with an operator of `ops` takes at least that operator and the piece
behind it. -/
theorem two_le_of_links {ops : List String} {piece : Scan} {t : Token} {tokens : List Token}
    {n : Nat} (hpiece : ∀ {tokens n}, piece tokens = some n → 0 < n) (hop : t.isOperatorIn ops)
    (h : Scan.links ops piece (t :: tokens) = some n) : 2 ≤ n := by
  rw [Scan.links, if_pos hop] at h
  split at h
  case h_1 => simp at h
  case h_2 k hk =>
    obtain ⟨m, -, rfl⟩ := Option.map_eq_some_iff.1 h
    have := hpiece hk
    omega

theorem power_pos {d : Direction} {tokens : List Token} {n : Nat}
    (h : Extent.power d tokens = some n) : 0 < n := by
  unfold Extent.power Scan.andThen at h
  split at h
  case h_1 => simp at h
  case h_2 k hk =>
    obtain ⟨m, -, rfl⟩ := Option.map_eq_some_iff.1 h
    have := Extent.atom_pos hk
    omega

/-- A term that goes on with `*` or `/` takes at least that operator and a factor. -/
theorem two_le_of_termTail {d : Direction} {ops : List String} (hops : ops ⊆ ["*", "/"])
    {t : Token} {tokens : List Token} {n : Nat} (hop : t.isOperatorIn ops)
    (h : Extent.termTail d (t :: tokens) = some n) : 2 ≤ n := by
  have hfactor : t.isOperatorIn ["*", "/"] := by
    simp only [Token.isOperatorIn, Bool.and_eq_true, List.contains_iff_mem] at hop ⊢
    exact ⟨hop.1, hops hop.2⟩
  have hpower : t.isOperatorIn ["^"] = false := by
    simp only [Token.isOperatorIn, Bool.and_eq_true, List.contains_iff_mem] at hfactor
    rcases List.mem_cons.1 hfactor.2 with h | h <;> simp_all [Token.isOperatorIn]
  have hnone : Extent.powerTail d (t :: tokens) = some 0 := by
    simp [Extent.powerTail, Scan.links, hpower]
  simp only [Extent.termTail, Scan.andThen, hnone, List.drop_zero, Nat.zero_add, Option.map_id_fun',
    id_eq] at h
  exact two_le_of_links power_pos hfactor h

theorem two_le_of_isPrecededBy {c : Cursor} {ops : List String} {scan : Scan} {n : Nat}
    (hscan : ∀ {t tokens n}, t.isOperatorIn ops → scan (t :: tokens) = some n → 2 ≤ n)
    (h : c.isPrecededBy ops) (hn : scan c.before = some n) : 2 ≤ n := by
  cases hb : c.before with
  | nil => simp [isPrecededBy, hb] at h
  | cons t tokens =>
    rw [hb] at hn
    exact hscan (by simpa [isPrecededBy, hb] using h) hn

theorem two_le_of_isFollowedBy {c : Cursor} {ops : List String} {scan : Scan} {n : Nat}
    (hscan : ∀ {t tokens n}, t.isOperatorIn ops → scan (t :: tokens) = some n → 2 ≤ n)
    (h : c.isFollowedBy ops) (hn : scan c.after = some n) : 2 ≤ n := by
  cases ha : c.after with
  | nil => simp [isFollowedBy, ha] at h
  | cons t tokens =>
    rw [ha] at hn
    exact hscan (by simpa [isFollowedBy, ha] using h) hn

theorem Calls.shortens {c : Cursor} {e : Edit} (h : c.Calls e)
    (hnumber : c.focus.kind = .number) : Shortens c e := by
  cases h with
  | unarySign hsign => simp [Token.isSign, Token.isOperatorIn, hnumber] at hsign
  | zeroExponent _ hop hback =>
    -- the power and the exponent make way for a one
    have hle := Extent.powerTail_within _ hback
    have hpos := two_le_of_isPrecededBy (fun hop => two_le_of_links Extent.atom_pos hop) hop hback
    exact ⟨hle, by simp, by simp; omega, by simp [literal]⟩
  | zeroPower _ _ _ hliteral =>
    refine ⟨by simp, ?_, by simp, by simp [hnumber]⟩
    rcases hafter : c.after with _ | ⟨o, _ | ⟨n, ts⟩⟩
    · simp [hafter] at hliteral
    · simp [hafter] at hliteral
    · simp
  | zeroFactor _ _ _ hop hterm =>
    -- the whole term makes way for the zero
    obtain ⟨hback, hahead⟩ := term_eq_some_iff.1 hterm
    have hble := Extent.termTail_within _ hback
    have hale := Extent.termTail_within _ hahead
    refine ⟨hble, by simp; omega, ?_, by simp [hnumber]⟩
    simp only [Option.toList_some, List.length_singleton]
    rcases hop with hpre | hfol
    · have := two_le_of_isPrecededBy (fun hop => two_le_of_termTail (by simp) hop) hpre hback
      omega
    · have := two_le_of_isFollowedBy (fun hop => two_le_of_termTail (by simp) hop) hfol hahead
      omega
  | powerOfOne _ _ hop hatom =>
    -- the exponent goes
    have hpos := Extent.atom_pos hatom
    have hle := Extent.atom_within _ hatom
    have hafter := length_pos_of_isFollowedBy hop
    simp only [List.length_drop] at hle
    exact ⟨by simp, by simp; omega, by simp; omega, by simp [hnumber]⟩
  | summandRight _ _ _ hop | exponentOne _ hop | factorRight _ _ hop =>
    exact ⟨length_pos_of_isPrecededBy hop, by simp, by simp, by simp⟩
  | summandLeft _ _ _ _ hop | factorLeft _ _ _ hop =>
    have := length_pos_of_isFollowedBy hop
    exact ⟨by simp, by simp; omega, by simp, by simp⟩

/-- **The shape of an edit.** It puts a zero in front of a leading sign, or it makes the list
shorter by at least two tokens. -/
theorem edit?_shape {c : Cursor} {e : Edit} (h : c.edit? = some e) :
    (c.focus.isSign ∧ c.isLeading ∧ e = ⟨.unarySign, 0, 0, some (c.literal "0")⟩) ∨
      Shortens c e := by
  have hcalls := calls_of_edit? h
  exact hcalls.sign_or_number.imp_right fun ⟨hnumber, _⟩ => hcalls.shortens hnumber

end Cursor

end Formula
