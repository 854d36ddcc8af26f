import Formula.Proofs.Separation
import Formula.Proofs.Stability

/-!
# Putting a formula in brackets

Each stage treats the start of a list and what follows an opening bracket in one way, and so the end
of a list and what a closing bracket follows. So a formula in brackets, or behind the name of a
function, is analyzed as it is by itself, and what is written around it stays around it.

* `Scan.StopsAtBrackets` — what has been measured in a formula measures the same in the brackets;
* `Cursor.edit?_enclose` — the same edit is called for at the same token;
* `simplify_enclose`, `normalize_enclose`, `toRpn_enclose` — the stages, on a list with a reading;
* `analyze_enclosed` — the analysis of the text.
-/

namespace Formula

variable {b : Bounds}

/-! ### Scans -/

/-- A span of brackets ends where it does, whatever stands behind. -/
theorem bracketSpan_append {d : Direction} {depth n : Nat} {ts : List Token}
    (h : bracketSpan d depth ts = some n) (rest : List Token) :
    bracketSpan d depth (ts ++ rest) = some n := by
  -- the walk takes the same steps, and it ends before it comes to what is behind
  fun_induction bracketSpan d depth ts generalizing n with
  | case1 => simp at h
  | case2 depth t ts henters ih =>
    obtain ⟨m, hm, rfl⟩ := Option.map_eq_some_iff.1 h
    rw [List.cons_append, bracketSpan_of_enters henters, ih hm, Option.map_some]
  | case3 => simp at h
  | case4 t ts henters hleaves =>
    rw [List.cons_append, bracketSpan_one_of_leaves henters hleaves]
    exact h
  | case5 t ts henters hleaves depth ih =>
    obtain ⟨m, hm, rfl⟩ := Option.map_eq_some_iff.1 h
    rw [List.cons_append, bracketSpan_of_leaves henters hleaves, ih hm, Option.map_some]
  | case6 depth t ts henters hleaves ih =>
    obtain ⟨m, hm, rfl⟩ := Option.map_eq_some_iff.1 h
    rw [List.cons_append, bracketSpan_of_not_bracket henters hleaves, ih hm, Option.map_some]

/-- The list goes on with a bracket, if at all. -/
def StartsWithBracket (rest : List Token) : Prop :=
  ∀ t ∈ rest.head?, t.isOpen ∨ t.isClose

theorem StartsWithBracket.kind_ne {rest : List Token} (h : StartsWithBracket rest) {t : Token}
    (ht : t ∈ rest.head?) : t.kind ≠ .function ∧ t.kind ≠ .operator ∧ t.kind ≠ .number := by
  rcases h t ht with ht | ht
  · simp [Token.kind_of_isOpen ht]
  · simp [Token.kind_of_isClose ht]

theorem StartsWithBracket.not_isOperatorIn {rest : List Token} (h : StartsWithBracket rest)
    (ops : List String) : ∀ t ∈ rest.head?, t.isOperatorIn ops = false := by
  intro t ht
  simp [Token.isOperatorIn, (h.kind_ne ht).2.1]

/-- **A scan that stops at brackets**: what it counts is the same if a bracket follows. -/
def Scan.StopsAtBrackets (scan : Scan) : Prop :=
  ∀ {ts rest : List Token} {n : Nat}, scan ts = some n → StartsWithBracket rest →
    scan (ts ++ rest) = some n

namespace Scan.StopsAtBrackets

theorem links {piece : Scan} (hwithin : piece.Within) (h : piece.StopsAtBrackets)
    (ops : List String) : (Scan.links ops piece).StopsAtBrackets := by
  intro ts rest n hn hrest
  fun_induction Scan.links ops piece ts generalizing n with
  | case1 =>
    -- the links end here in both lists: what comes next is a bracket, and no operator
    obtain rfl : 0 = n := by simpa using hn
    rw [List.nil_append]
    cases rest with
    | nil => rw [Scan.links]
    | cons t rest => rw [Scan.links, hrest.not_isOperatorIn ops t rfl, if_neg Bool.false_ne_true]
  | case2 => simp at hn
  | case3 t ts hop k hk ih =>
    obtain ⟨m, hm, rfl⟩ := Option.map_eq_some_iff.1 hn
    rw [List.cons_append, Scan.links, if_pos hop, h hk hrest]
    -- the operand of this link ends in front of the bracket, and so do the links behind it
    simp only
    rw [List.drop_append_of_le_length (hwithin hk), ih hm, Option.map_some]
  | case4 t ts hop =>
    obtain rfl : 0 = n := by simpa using hn
    rw [List.cons_append, Scan.links, if_neg hop]

theorem andThen {first second : Scan} (hwithin : first.Within) (hfirst : first.StopsAtBrackets)
    (hsecond : second.StopsAtBrackets) : (first.andThen second).StopsAtBrackets := by
  intro ts rest n hn hrest
  unfold Scan.andThen at hn ⊢
  cases hk : first ts with
  | none => simp [hk] at hn
  | some k =>
    rw [hk] at hn
    obtain ⟨m, hm, rfl⟩ := Option.map_eq_some_iff.1 hn
    rw [hfirst hk hrest]
    simp only
    rw [List.drop_append_of_le_length (hwithin hk), hsecond hm hrest, Option.map_some]

/-- Leftward the scan of an atom looks one token behind the span, for the name of a function. -/
theorem atom (d : Direction) : (Extent.atom d).StopsAtBrackets := by
  intro ts rest n hn hrest
  cases ts with
  | nil => simp [Extent.atom] at hn
  | cons t ts =>
    rw [List.cons_append]
    -- an operand is an atom of one token, whatever is behind it
    by_cases hoperand : t.isOperand
    · simp only [Extent.atom, if_pos hoperand] at hn ⊢
      exact hn
    cases d with
    | rightward =>
      simp only [Extent.atom, if_neg hoperand] at hn ⊢
      split at hn
      case isTrue hstarts =>
        rw [if_pos hstarts]
        exact bracketSpan_append hn rest
      case isFalse => simp at hn
    | leftward =>
      simp only [Extent.atom, if_neg hoperand] at hn ⊢
      split at hn
      case isFalse => simp at hn
      case isTrue hcloses =>
        obtain ⟨k, hk, rfl⟩ := Option.map_eq_some_iff.1 hn
        -- the only token looked at behind the span is one that may name it, and a bracket names
        -- nothing
        have hname : (t :: (ts ++ rest))[k]?.any (·.kind == .function) =
            (t :: ts)[k]?.any (·.kind == .function) := by
          rw [← List.cons_append]
          rcases (bracketSpan_bounds hk).2.lt_or_eq with hlt | heq
          · rw [List.getElem?_append_left hlt]
          · rw [List.getElem?_append_right heq.ge, heq, Nat.sub_self, ← List.head?_eq_getElem?,
              List.getElem?_eq_none le_rfl, Option.any_none]
            cases hhead : rest.head? with
            | none => rfl
            | some u => simpa using (hrest.kind_ne hhead).1
        have hspan : bracketSpan .leftward 0 (t :: (ts ++ rest)) = some k :=
          bracketSpan_append hk rest
        rw [if_pos hcloses, hspan, Option.map_some, hname]

theorem powerTail (d : Direction) : (Extent.powerTail d).StopsAtBrackets :=
  links (Extent.atom_within d) (atom d) ["^"]

theorem power (d : Direction) : (Extent.power d).StopsAtBrackets :=
  andThen (Extent.atom_within d) (atom d) (powerTail d)

theorem termTail (d : Direction) : (Extent.termTail d).StopsAtBrackets :=
  andThen (Extent.powerTail_within d) (powerTail d)
    (links (Extent.power_within d) (power d) ["*", "/"])

end Scan.StopsAtBrackets

/-! ### Edits -/

/-- The same place when the list stands in the bounds. -/
def Cursor.enclose (b : Bounds) (c : Cursor) : Cursor :=
  ⟨c.before ++ b.front.reverse, c.focus, c.after ++ b.back⟩

theorem Bounds.Written.startsWithBracket_front (hb : b.Written) :
    StartsWithBracket b.front.reverse := by
  obtain ⟨fs, o, hfront, ho⟩ := hb.exists_front
  intro t ht
  obtain rfl : o = t := by simpa [hfront] using ht
  exact .inl ho

theorem Bounds.Written.startsWithBracket_back (hb : b.Written) : StartsWithBracket b.back := by
  obtain ⟨c, hback, hc⟩ := hb.exists_back
  intro t ht
  obtain rfl : c = t := by simpa [hback] using ht
  exact .inr hc

/-- A question that no bracket answers with yes has the same answer in front of one. -/
theorem any_head?_append {rest : List Token} {p : Token → Bool}
    (hp : ∀ t ∈ rest.head?, p t = false) (ts : List Token) :
    (ts ++ rest).head?.any p = ts.head?.any p := by
  cases ts with
  | cons t ts => rfl
  | nil =>
    cases rest with
    | nil => rfl
    | cons t rest => simpa using hp t rfl

namespace Cursor

variable {c : Cursor}

section Written

variable (hb : b.Written)

include hb

theorem isPrecededBy_enclose (c : Cursor) (ops : List String) :
    (c.enclose b).isPrecededBy ops = c.isPrecededBy ops :=
  any_head?_append (hb.startsWithBracket_front.not_isOperatorIn ops) c.before

theorem isFollowedBy_enclose (c : Cursor) (ops : List String) :
    (c.enclose b).isFollowedBy ops = c.isFollowedBy ops :=
  any_head?_append (hb.startsWithBracket_back.not_isOperatorIn ops) c.after

theorem isLeading_enclose (c : Cursor) : (c.enclose b).isLeading = c.isLeading := by
  obtain ⟨fs, o, hfront, ho⟩ := hb.exists_front
  cases hbefore : c.before with
  | nil => simp [isLeading, enclose, hbefore, hfront, ho]
  | cons t ts => simp [isLeading, enclose, hbefore]

end Written

/-- What stands behind the token that follows. -/
theorem drop_after_enclose (b : Bounds) {ops : List String} (hfol : c.isFollowedBy ops) :
    (c.enclose b).after.drop 1 = c.after.drop 1 ++ b.back :=
  List.drop_append_of_le_length (length_pos_of_isFollowedBy hfol)

/-- The exponent behind a base can be measured. -/
theorem StandsIn.exists_atom {C : Context} (h : c.StandsIn C) (hpre : ¬ c.isPrecededBy ["^"])
    (hfol : c.isFollowedBy ["^"]) : ∃ n, Extent.atom .rightward (c.after.drop 1) = some n := by
  have hedit := oneEdit_ne_none h (.inr (.inl hfol))
  rw [oneEdit, if_neg hpre, if_pos hfol, Ne, Option.map_eq_none_iff] at hedit
  exact Option.ne_none_iff_exists'.1 hedit

section Edits

variable {C : Context} (hb : b.Written) (h : c.StandsIn C)

include hb

theorem signEdit_enclose (c : Cursor) : (c.enclose b).signEdit = c.signEdit := by
  rw [signEdit, isLeading_enclose hb]
  rfl

include h

theorem term_enclose : (c.enclose b).term = c.term := by
  obtain ⟨⟨back, ahead⟩, hterm⟩ := h.exists_term
  obtain ⟨hleft, hright⟩ := term_eq_some_iff.1 hterm
  rw [hterm, term_eq_some_iff]
  exact ⟨Scan.StopsAtBrackets.termTail .leftward hleft hb.startsWithBracket_front,
    Scan.StopsAtBrackets.termTail .rightward hright hb.startsWithBracket_back⟩

theorem zeroEdit_enclose : (c.enclose b).zeroEdit = c.zeroEdit := by
  -- what is measured to the left of the zero ends at the bracket
  obtain ⟨back, hback⟩ := h.exists_powerTail
  have hback' : Extent.powerTail .leftward (c.enclose b).before = some back :=
    Scan.StopsAtBrackets.powerTail .leftward hback hb.startsWithBracket_front
  -- only a number can be a positive literal, so none appears behind the last token
  have hexponent (hfol : c.isFollowedBy ["^"]) :
      ((c.enclose b).after.drop 1).head?.any Token.isPositiveLiteral =
        (c.after.drop 1).head?.any Token.isPositiveLiteral := by
    rw [drop_after_enclose b hfol]
    refine any_head?_append (fun t ht => ?_) _
    simp [Token.isPositiveLiteral, (hb.startsWithBracket_back.kind_ne ht).2.2]
  rw [zeroEdit, zeroEdit]
  simp only [isPrecededBy_enclose hb, isFollowedBy_enclose hb, term_enclose hb h, hback, hback']
  by_cases hfol : c.isFollowedBy ["^"]
  · rw [hexponent hfol]
    rfl
  · simp only [if_neg hfol]
    rfl

theorem oneEdit_enclose : (c.enclose b).oneEdit = c.oneEdit := by
  rw [oneEdit, oneEdit]
  simp only [isPrecededBy_enclose hb, isFollowedBy_enclose hb]
  by_cases hpre : c.isPrecededBy ["^"]
  · rw [if_pos hpre, if_pos hpre]
  rw [if_neg hpre, if_neg hpre]
  by_cases hfol : c.isFollowedBy ["^"]
  · -- the exponent is measured in front of the bracket
    obtain ⟨n, hn⟩ := h.exists_atom hpre hfol
    have hn' : Extent.atom .rightward ((c.enclose b).after.drop 1) = some n := by
      rw [drop_after_enclose b hfol]
      exact Scan.StopsAtBrackets.atom .rightward hn hb.startsWithBracket_back
    rw [if_pos hfol, if_pos hfol, hn, hn']
    rfl
  · rw [if_neg hfol, if_neg hfol]

end Edits

/-- **The same edit** is called for in the bounds. -/
theorem edit?_enclose {p : Phrase} (hb : b.Written) (hp : p.Reads c.toList) :
    (c.enclose b).edit? = c.edit? := by
  rw [edit?, edit?, show (c.enclose b).focus = c.focus from rfl]
  split
  case h_1 => exact signEdit_enclose hb c
  case h_2 hkind =>
    obtain ⟨C, hC, -⟩ := exists_standsIn hp (by simp [Token.isOperand, hkind])
    rw [zeroEdit_enclose hb hC, oneEdit_enclose hb hC]
  case h_3 => rfl

/-- An edit reaches no further than the list. -/
theorem apply_enclose {e : Edit} (he : c.edit? = some e) :
    (c.enclose b).apply e = b.front ++ c.apply e ++ b.back := by
  obtain ⟨hback, hahead⟩ : e.back ≤ c.before.length ∧ e.ahead ≤ (c.focus :: c.after).length := by
    rcases edit?_shape he with ⟨-, -, rfl⟩ | hshort
    · simp
    · exact ⟨hshort.back_le, hshort.ahead_le⟩
  simp only [apply, enclose]
  rw [List.drop_append_of_le_length hback, ← List.cons_append,
    List.drop_append_of_le_length hahead]
  simp

end Cursor

/-! ### Simplification -/

/-- What is written around a region is neither an operator nor a number. -/
theorem Bounds.Written.kind_ne (hb : b.Written) {t : Token} (ht : t ∈ b.front ∨ t ∈ b.back) :
    t.kind ≠ .operator ∧ t.kind ≠ .number := by
  rcases hb.kind_of_mem ht with hkind | hkind | hkind <;> simp [hkind]

/-- No edit is called for at tokens that are neither operators nor numbers. -/
theorem nextEditFrom_append {xs : List Token} (h : ∀ t ∈ xs, t.kind ≠ .operator ∧ t.kind ≠ .number)
    (before ts : List Token) :
    nextEditFrom before (xs ++ ts) = nextEditFrom (xs.reverse ++ before) ts := by
  induction xs generalizing before with
  | nil => rfl
  | cons t xs ih =>
    obtain ⟨ht, hxs⟩ := List.forall_mem_cons.1 h
    have hnone : (Cursor.mk before t (xs ++ ts)).edit? = none := by
      unfold Cursor.edit?
      split <;> simp_all
    rw [List.cons_append, nextEditFrom, hnone]
    simp only
    rw [ih hxs, List.reverse_cons, List.append_assoc, List.singleton_append]

theorem nextEditFrom_enclose {p : Phrase} (hb : b.Written) {before ts : List Token}
    (hp : p.Reads (before.reverse ++ ts)) :
    nextEditFrom (before ++ b.front.reverse) (ts ++ b.back) =
      (nextEditFrom before ts).map fun (c, e) => (c.enclose b, e) := by
  induction ts generalizing before with
  | nil =>
    -- the closing bracket calls for no edit
    have hback := nextEditFrom_append (fun t ht => hb.kind_ne (.inr ht))
      (before ++ b.front.reverse) []
    rw [List.append_nil] at hback
    rw [List.nil_append, hback]
    rfl
  | cons t ts ih =>
    -- the first token that calls for an edit is the same in both lists
    have hedit := Cursor.edit?_enclose (c := ⟨before, t, ts⟩) hb hp
    rw [Cursor.enclose] at hedit
    rw [List.cons_append, nextEditFrom, hedit, nextEditFrom]
    cases (Cursor.mk before t ts).edit? with
    | none =>
      have hbehind : p.Reads ((t :: before).reverse ++ ts) := by simpa using hp
      exact ih hbehind
    | some e => rfl

/-- **The next edit** is the same in the bounds. -/
theorem nextEdit_enclose {p : Phrase} (hb : b.Written) {ts : List Token} (hp : p.Reads ts) :
    nextEdit (b.front ++ ts ++ b.back) = (nextEdit ts).map fun (c, e) => (c.enclose b, e) := by
  have hstart : p.Reads ([].reverse ++ ts) := hp
  have hinside := nextEditFrom_enclose hb hstart
  rw [nextEdit, List.append_assoc, nextEditFrom_append fun t ht => hb.kind_ne (.inl ht),
    List.append_nil]
  exact hinside

/-- Divisions by zero are found between the bounds. -/
theorem findDivisionByZero_enclose (hb : b.Written) (ts : List Token) :
    findDivisionByZero (b.front ++ ts ++ b.back) = findDivisionByZero ts := by
  -- a bracket or a name in front is neither a slash nor a zero
  have hfront {xs : List Token} (h : ∀ t ∈ xs, t.kind ≠ .operator ∧ t.kind ≠ .number)
      (ts : List Token) : findDivisionByZero (xs ++ ts) = findDivisionByZero ts := by
    induction xs with
    | nil => rfl
    | cons t xs ih =>
      obtain ⟨ht, hxs⟩ := List.forall_mem_cons.1 h
      rw [← ih hxs, List.cons_append]
      cases xs ++ ts with
      | nil => rfl
      | cons u us => simp [findDivisionByZero, Token.isOperator, ht.1]
  rw [List.append_assoc, hfront fun t ht => hb.kind_ne (.inl ht)]
  obtain ⟨c, hback, hc⟩ := hb.exists_back
  rw [hback]
  -- nor does the closing bracket make a zero of what stands in front of it
  have hnumber : c.isNumber "0" = false := by simp [Token.isNumber, Token.kind_of_isClose hc]
  fun_induction findDivisionByZero ts with
  | case1 first second ts hzero => simp [findDivisionByZero, hzero]
  | case2 first second ts hnot ih =>
    rw [List.cons_append, List.cons_append, findDivisionByZero, if_neg hnot, ← List.cons_append, ih]
  | case3 ts hshort =>
    rcases ts with _ | ⟨t, _ | ⟨u, ts⟩⟩
    · rfl
    · simp [findDivisionByZero, hnumber]
    · exact (hshort t u ts rfl).elim

/-- **Simplification** does between the bounds what it does without them. -/
theorem simplify_enclose {p : Phrase} (hb : b.Written) {ts : List Token} (hp : p.Reads ts) :
    simplify (b.front ++ ts ++ b.back) = (simplify ts).map fun out => b.front ++ out ++ b.back := by
  change _ = (run ts).outcome.map _
  -- the two runs make the same edits, so they are followed together
  fun_induction run ts generalizing p with
  | case1 ts error hdivision =>
    exact simplify_of_division ((findDivisionByZero_enclose hb ts).trans hdivision)
  | case2 ts hdivision hnone =>
    refine simplify_of_nextEdit_eq_none ((findDivisionByZero_enclose hb ts).trans hdivision) ?_
    rw [nextEdit_enclose hb hp, hnone, Option.map_none]
  | case3 ts hdivision c e hnext later =>
    rename_i ih
    obtain ⟨q, hq, -⟩ := step_of_nextEdit hdivision hnext hp
    have hnext' : nextEdit (b.front ++ ts ++ b.back) = some (c.enclose b, e) := by
      rw [nextEdit_enclose hb hp, hnext, Option.map_some]
    rw [simplify_of_nextEdit ((findDivisionByZero_enclose hb ts).trans hdivision) hnext',
      Cursor.apply_enclose (nextEdit_eq_some hnext).2, ih hq]

/-! ### The later stages -/

section Region

variable {p : Phrase} {ts : List Token} (hb : b.Written) (hp : p.Reads ts)

include hb hp

/-- Between bounds a formula is read as a region. -/
theorem Phrase.Reads.region : (Phrase.region b p).Reads (b.front ++ ts ++ b.back) :=
  ⟨.region hb hp.binds, by rw [Phrase.tokens, hp.tokens_eq]⟩

/-- **Chains** are bracketed between the bounds. -/
theorem normalize_enclose :
    normalize (b.front ++ ts ++ b.back) = b.front ++ normalize ts ++ b.back := by
  rw [← (hp.region hb).reads_normalize.tokens_eq, ← hp.reads_normalize.tokens_eq]
  rfl

/-- **In reverse Polish notation** the function comes last, and the brackets are gone. -/
theorem toRpn_enclose : toRpn (b.front ++ ts ++ b.back) = toRpn ts ++ b.function?.toList := by
  rw [(hp.region hb).toRpn_eq, hp.toRpn_eq, Phrase.postorder]

/-- **The tree** of a formula between bounds is the argument of their function, if they have one. -/
theorem ofRpn_enclose (hsigns : p.signs = 0) {tree : Tree}
    (htree : Tree.ofRpn (toRpn (normalize ts)) = .ok tree) :
    Tree.ofRpn (toRpn (normalize (b.front ++ ts ++ b.back))) =
      .ok (match b.function? with
        | some function => .unary function.text tree
        | none => tree) := by
  obtain rfl : p.bracketed.tree = tree := by
    rw [hp.ofRpn_normalize hsigns] at htree
    exact Except.ok.inj htree
  exact (hp.region hb).ofRpn_normalize hsigns

end Region

/-! ### Further on and between bounds -/

section Around

variable {p : Phrase} {ts : List Token}

/-- Further on a formula can be read as well, with as many signs. -/
theorem Phrase.Reads.exists_shift (hp : p.Reads ts) (d : Nat) :
    ∃ q : Phrase, q.Reads (ts.map (Token.shift d)) ∧ q.signs = p.signs := by
  have hplaces : (ts.map (Token.shift d)).map Token.bare = p.tokens.map Token.bare := by
    rw [List.map_map, hp.tokens_eq]
    rfl
  obtain ⟨q, hq, htokens, hbare⟩ := hp.binds.exists_of_map_bare hplaces
  exact ⟨q, ⟨hq, htokens⟩, by rw [← signs_bare, hbare, signs_bare]⟩

theorem normalize_shift (d : Nat) (ts : List Token) :
    normalize (ts.map (Token.shift d)) = (normalize ts).map (Token.shift d) := by
  rw [← Relabelling.token_shift, Relabelling.normalize_map]

theorem toRpn_shift (d : Nat) (ts : List Token) :
    toRpn (ts.map (Token.shift d)) = (toRpn ts).map (Token.shift d) := by
  rw [← Relabelling.token_shift, Relabelling.toRpn_map]

variable (hb : b.Written) (hp : p.Reads ts) (d : Nat)

include hb hp

theorem simplify_around :
    simplify (b.around d ts) = match simplify ts with
      | .ok out => .ok (b.around d out)
      | .error error => .error ⟨error.position + d⟩ := by
  obtain ⟨q, hq, -⟩ := hp.exists_shift d
  rw [Bounds.around, simplify_enclose hb hq, ← Relabelling.token_shift, Relabelling.simplify_map]
  cases simplify ts with
  | ok out => rw [Relabelling.outcome, Relabelling.token_shift]; rfl
  | error error => rfl

theorem normalize_around : normalize (b.around d ts) = b.around d (normalize ts) := by
  obtain ⟨q, hq, -⟩ := hp.exists_shift d
  rw [Bounds.around, normalize_enclose hb hq, normalize_shift, ← Bounds.around]

theorem toRpn_around :
    toRpn (b.around d ts) = (toRpn ts).map (Token.shift d) ++ b.function?.toList := by
  obtain ⟨q, hq, -⟩ := hp.exists_shift d
  rw [Bounds.around, toRpn_enclose hb hq, toRpn_shift]

theorem ofRpn_around (hsigns : p.signs = 0) {tree : Tree}
    (htree : Tree.ofRpn (toRpn (normalize ts)) = .ok tree) :
    Tree.ofRpn (toRpn (normalize (b.around d ts))) =
      .ok (match b.function? with
        | some function => .unary function.text tree
        | none => tree) := by
  obtain ⟨q, hq, hqsigns⟩ := hp.exists_shift d
  refine ofRpn_enclose hb hq (hqsigns.trans hsigns) ?_
  -- the tree does not hold places
  rw [normalize_shift, toRpn_shift, ← Relabelling.token_shift]
  exact (Relabelling.shift d).ofRpnFrom_map (fun _ => rfl) htree

end Around

/-! ### Texts -/

section Texts

variable {s f : String}

theorem written_enclosing (f s : String) : (enclosing f s).Written := by
  rw [enclosing]
  split
  · exact ⟨rfl, rfl⟩
  · exact ⟨rfl, rfl, rfl⟩

theorem function?_enclosing (f s : String) :
    (enclosing f s).function? = if f = "" then none else some ⟨.function, f, 0⟩ := by
  rw [enclosing]
  split <;> rfl

theorem diagnose_trimmed (s : String) : diagnose (trimmed s) = diagnose s := by
  rw [diagnose, tokenize_trimmed, ← diagnose]

/-- **An accepted text in brackets** is accepted, and its tokens are read further on. -/
theorem diagnose_enclosed (hs : (diagnose s).2.isEmpty)
    (hf : f = "" ∨ (f, Kind.function) ∈ builtinLexemes) :
    diagnose (f ++ "(" ++ s ++ ")") =
      ((enclosing f s).around (enclosedAt f s) (diagnose s).1, ⟨[], []⟩) := by
  -- the formula has a reading, and so it has one where its tokens stand between the brackets
  obtain ⟨hne, hvalid, harith⟩ := accepted_of_isEmpty hs
  obtain ⟨p, hp⟩ := exists_reads hne hvalid harith
  obtain ⟨q, hq, -⟩ := hp.exists_shift (enclosedAt f s)
  have herrors : (tokenize s).errors = [] := by
    simp only [diagnose, Diagnostics.isEmpty, Bool.and_eq_true, List.isEmpty_iff] at hs
    exact hs.1
  have hregion := hq.region (written_enclosing f s)
  -- the brackets make an atom of an accepted formula
  have hvalid' : validate ((enclosing f s).around (enclosedAt f s) (diagnose s).1) = [] := by
    rw [Bounds.around, ← hregion.tokens_eq]
    exact hregion.binds.derives_arithmetic.validate_eq_nil
  rw [diagnose, tokenize_enclosed herrors hf]
  exact Prod.ext rfl (congrArg (Diagnostics.mk []) hvalid')

/-- **The analysis of a text in brackets** or behind the name of a function. If nothing is wrong
with the text itself, both end in the same division by zero, further on in the one with brackets, or
both have results. Then the results of each stage are the same, further on and between the new
tokens. The order in reverse Polish notation has no brackets but ends with the function, if there is
one, and the tree has it on top. -/
theorem analyze_enclosed (hs : (diagnose s).2.isEmpty)
    (hf : f = "" ∨ (f, Kind.function) ∈ builtinLexemes) :
    let b := enclosing f s
    let d := enclosedAt f s
    (∃ error, analyze s = .error (.divisionByZero error) ∧
        analyze (f ++ "(" ++ s ++ ")") = .error (.divisionByZero ⟨error.position + d⟩)) ∨
      ∃ a a', analyze s = .ok a ∧ analyze (f ++ "(" ++ s ++ ")") = .ok a' ∧
        a'.simplified = b.around d a.simplified ∧ a'.normalized = b.around d a.normalized ∧
        a'.rpn = a.rpn.map (Token.shift d) ++ b.function?.toList ∧
        a'.tree = if f = "" then a.tree else .unary f a.tree := by
  intro b d
  have hb : b.Written := written_enclosing f s
  -- the tokens of the formula between the brackets are those of the formula, and are accepted too
  obtain ⟨hne, hvalid, harith⟩ := accepted_of_isEmpty hs
  obtain ⟨p, hp⟩ := exists_reads hne hvalid harith
  have hdiagnose : diagnose (trimmed (f ++ "(" ++ s ++ ")")) =
      (b.around d (diagnose s).1, ⟨[], []⟩) := by
    rw [diagnose_trimmed, diagnose_enclosed hs hf]
  have hempty : (diagnose (trimmed s)).2.isEmpty := by rwa [diagnose_trimmed]
  have hempty' : (diagnose (trimmed (f ++ "(" ++ s ++ ")"))).2.isEmpty := by
    rw [hdiagnose]
    rfl
  -- simplifying commutes with the brackets, so both runs fail or both succeed
  have hrun' := simplify_around hb hp d
  cases hrun : simplify (diagnose s).1 with
  | error error =>
    -- the position of the error is moved along with the tokens
    rw [hrun] at hrun'
    refine .inl ⟨error, analyze_of_division hempty ?_, analyze_of_division hempty' ?_⟩
    · rwa [diagnose_trimmed]
    · rwa [hdiagnose]
  | ok out =>
    rw [hrun] at hrun'
    -- the result has no signs, so it has a tree, and the brackets add no more than their name to it
    obtain ⟨q, hq, hsigns⟩ := simplify_unsigned hp hrun
    have htree := hq.ofRpn_normalize hsigns
    have htree' := ofRpn_around hb hq d hsigns htree
    refine .inr ⟨_, _, analyze_of_simplified hempty (by rwa [diagnose_trimmed]) htree,
      analyze_of_simplified hempty' (by rwa [hdiagnose]) htree', rfl, ?_, ?_, ?_⟩
    · exact normalize_around hb hq d
    · calc toRpn (normalize (b.around d out))
          = toRpn (b.around d (normalize out)) := by rw [normalize_around hb hq d]
        _ = (toRpn (normalize out)).map (Token.shift d) ++ b.function?.toList :=
            toRpn_around hb hq.reads_normalize d
    · rw [function?_enclosing]
      split_ifs <;> rfl

/-- The text `-x-0-y/2/z` behind a blank, as the argument of a function. Its sign comes to lead
behind the bracket, and its last chain ends in front of one. -/
theorem analyze_enclosed_call :
    let s := " -x-0-y/2/z"
    let b := enclosing "sin" s
    (diagnose s).2.isEmpty ∧ ("sin", Kind.function) ∈ builtinLexemes ∧ enclosedAt "sin" s = 5 ∧
      ∃ a a', analyze s = .ok a ∧ analyze ("sin" ++ "(" ++ s ++ ")") = .ok a' ∧
        a.simplifiedText = "0-x-y/2/z" ∧ a'.simplified = b.around 5 a.simplified ∧
        a'.normalized = b.around 5 a.normalized ∧
        a'.rpn = a.rpn.map (Token.shift 5) ++ [⟨.function, "sin", 0⟩] ∧
        a'.tree = .unary "sin" a.tree := by
  intro s b
  have hs : (diagnose s).2.isEmpty := by decide +kernel
  have hf : ("sin", Kind.function) ∈ builtinLexemes := by decide
  have hplace : enclosedAt "sin" s = 5 := by decide +kernel
  have htext : (analyze s).toOption.map Analysis.simplifiedText = some "0-x-y/2/z" := by
    decide +kernel
  refine ⟨hs, hf, hplace, ?_⟩
  rcases analyze_enclosed hs (.inr hf) with ⟨error, hdivision, -⟩ | ⟨a, a', ha, ha', hstages⟩
  · -- the run does not fail, as the formula has a text
    simp [hdivision, Except.toOption] at htext
  · have hsimplified : a.simplifiedText = "0-x-y/2/z" := by
      simpa [ha, Except.toOption] using htext
    rw [hplace] at hstages
    exact ⟨a, a', ha, ha', hsimplified, hstages⟩

end Texts

end Formula
