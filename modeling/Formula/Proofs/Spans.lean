import Mathlib.Data.List.TakeWhile
import Formula.Lexer
import Formula.Proofs.Firing

/-!
# Spans

The scans of a walk count tokens. In terms of indices, they give the last index of the atom that
starts at an index, the first index of the one that ends there, the two ends of the power around an
atom, and the range of the term around an operand. On an accepted formula each of them is exact:
what it gives is the span of the phrase that it is meant for in the reading of the formula
(`spans_exact`).

That phrase is found in the reading from within. Around a part there are the frames of `^`, then
those of `*` and `/`, and then the first frame that is neither, which may be a sum, a sign or a
region. The power around the part is the part in the frames of the first kind, and the term around
it is the part in those of the first two (`Context.enclosing`).
-/

namespace Formula

/-! ### Scans by index -/

/-- The last index of the atom that starts at `start`. -/
def atomEnd (tokens : List Token) (start : Nat) : Option Nat :=
  (Extent.atom .rightward (tokens.drop start)).map fun n => start + n - 1

/-- The first index of the atom that ends at `stop`. -/
def atomStart (tokens : List Token) (stop : Nat) : Option Nat :=
  if stop < tokens.length then
    (Extent.atom .leftward (tokens.take (stop + 1)).reverse).map fun n => stop + 1 - n
  else none

/-- The first index of the power whose last atom starts at `start`. -/
def powerStart (tokens : List Token) (start : Nat) : Option Nat :=
  (Extent.powerTail .leftward (tokens.take start).reverse).map fun n => start - n

/-- The last index of the power whose first atom ends at `stop`. -/
def powerEnd (tokens : List Token) (stop : Nat) : Option Nat :=
  (Extent.powerTail .rightward (tokens.drop (stop + 1))).map fun n => stop + n

/-- The range of the term around the token at index `i`: its first index, and the first one behind
it. -/
def termSpan (tokens : List Token) (i : Nat) : Option (Nat × Nat) :=
  (Cursor.ofIndex? tokens i).bind fun c =>
    c.term.map fun (back, ahead) => (i - back, i + ahead + 1)

/-! ### Phrases around a part -/

/-- The layer of the operator at a frame. Around a region and behind a sign there is none. -/
def Frame.layer : Frame → Nat
  | leftOf operator _ | rightOf _ operator => operator.precedence
  | inRegion _ | underSign _ => 0

theorem Frame.Joins.layer_eq {f : Frame} {k : Nat} (h : f.Joins k) : f.layer = k := by
  cases f with
  | inRegion | underSign => exact h.elim
  | leftOf | rightOf => exact Token.precedence_of_joins h

namespace Context

/-- The frames around a hole up to the first one whose operator binds more loosely than layer `n`,
if it has an operator at all. -/
def inner (n : Nat) (C : Context) : Context :=
  C.takeWhile fun f => n ≤ f.layer

/-- The other frames. -/
def outer (n : Nat) (C : Context) : Context :=
  C.dropWhile fun f => n ≤ f.layer

/-- **The phrase of layer `n` around a part**: the smallest one at the same depth of brackets that
is not itself an operand of an operator of layer `n` or above. -/
def enclosing (n : Nat) (C : Context) (p : Phrase) : Phrase :=
  fill (inner n C) p

/-- The range of the tokens of a phrase in its context: its first index, and the first one behind
it. -/
def span (C : Context) (p : Phrase) : Nat × Nat :=
  ((before C).length, (before C).length + p.tokens.length)

theorem fill_outer (n : Nat) (C : Context) (p : Phrase) :
    fill (outer n C) (enclosing n C p) = fill C p := by
  rw [enclosing, ← fill_append, inner, outer, List.takeWhile_append_dropWhile]

/-- Where the frames of a run end, if nothing goes on with it. -/
theorem inner_outer_append {n : Nat} {D E : Context} (hD : ∀ f ∈ D, n ≤ f.layer)
    (hE : ∀ f ∈ E.head?, f.layer < n) : inner n (D ++ E) = D ∧ outer n (D ++ E) = E := by
  have hD' : ∀ f ∈ D, decide (n ≤ f.layer) = true := by simpa using hD
  rw [inner, outer, List.takeWhile_append_of_pos hD', List.dropWhile_append_of_pos hD']
  cases E with
  | nil => simp
  | cons f E =>
    have hf : ¬ n ≤ f.layer := Nat.not_le.2 (hE f rfl)
    simp [hf]

namespace Accepts

variable {n : Nat} {C : Context}

/-- Where a run has come to an end on both sides, the frame binds more loosely. -/
theorem layer_lt (h : Accepts n C) (hn : 1 ≤ n) (hclosed : Closes .rightward n (after C)) :
    ∀ f ∈ C.head?, f.layer < n := by
  intro f hf
  cases h with
  | top => simp at hf
  | region | sign =>
    obtain rfl := Option.some.inj hf
    exact hn
  | @left _ k o r C hk ho hr hC =>
    obtain rfl := Option.some.inj hf
    -- an operand in front of an operator of its own layer would not be closed there
    have hne : k ≠ n := by
      rintro rfl
      exact (hclosed o rfl).2 k le_rfl ho
    rw [Frame.layer, Token.precedence_of_joins ho]
    omega
  | @right _ k l o C hk hl ho hC =>
    obtain rfl := Option.some.inj hf
    rw [Frame.layer, Token.precedence_of_joins ho]
    omega

end Accepts

/-- The phrase of layer `n` around an atom is one. -/
theorem binds_enclosing {n : Nat} {C : Context} {a : Phrase} (ha : a.Binds 4)
    (h : (fill C a).Binds 1) (hn : 1 ≤ n) (hn' : n ≤ 4) : (enclosing n C a).Binds n := by
  -- the phrase around the atom is made of the innermost frames, as long as they bind tightly enough
  rcases List.eq_nil_or_concat (inner n C) with hnil | ⟨D, f, hconcat⟩
  · rw [enclosing, hnil]
    exact ha.mono hn'
  · -- the outermost frame is an operator of such a layer
    have hf : n ≤ f.layer := by
      have hmem : f ∈ inner n C := by simp [hconcat]
      simpa using List.mem_takeWhile_imp hmem
    -- the outermost of these frames says what the phrase binds like
    rw [← fill_outer n] at h
    obtain ⟨m, -, hp⟩ := exists_accepts_of_fill h
    rw [enclosing, hconcat, List.concat_eq_append, fill_append] at hp ⊢
    cases f with
    | inRegion | underSign => exact absurd hf (Nat.not_le.2 hn)
    | leftOf o r =>
      cases hp with
      | @binary _ _ _ _ k hm hl ho hr =>
        rw [Frame.layer, Token.precedence_of_joins ho] at hf
        exact .binary hf hl ho hr
    | rightOf l o =>
      cases hp with
      | @binary _ _ _ _ k hm hl ho hr =>
        rw [Frame.layer, Token.precedence_of_joins ho] at hf
        exact .binary hf hl ho hr

/-! ### The scans from an atom -/

section Atom

variable {C : Context} {a : Phrase}

/-- The tokens from an atom on. -/
theorem drop_tokens_fill (C : Context) (a : Phrase) :
    (fill C a).tokens.drop (before C).length = a.tokens ++ after C := by
  rw [tokens_fill, List.append_assoc]
  exact List.drop_left' (by simp)

/-- The tokens up to the last one of an atom, the last one first. -/
theorem reverse_take_tokens_fill (C : Context) (a : Phrase) :
    ((fill C a).tokens.take (span C a).2).reverse = a.tokens.reverse ++ before C := by
  have htake : (fill C a).tokens.take (span C a).2 = (before C).reverse ++ a.tokens := by
    rw [tokens_fill]
    exact List.take_left' (by simp [span])
  rw [htake, List.reverse_append, List.reverse_reverse]

/-- **Atoms end where they start** for the walk back, and the other way round. -/
theorem atom_span (hC : Accepts 4 C) (ha : a.Binds 4) :
    atomEnd (fill C a).tokens (span C a).1 = some ((span C a).2 - 1) ∧
      atomStart (fill C a).tokens ((span C a).2 - 1) = some (span C a).1 := by
  have hpos := a.length_tokens_pos
  have hstop : (span C a).2 - 1 + 1 = (span C a).2 := by
    simp only [span]
    omega
  have hright := measures_atom .rightward ha (closes_four (after C))
  have hleft := measures_atom .leftward ha hC.closes_before
  simp only [Direction.along] at hright hleft
  refine ⟨?_, ?_⟩
  · -- the walk to the right starts at the first token of the atom
    rw [atomEnd, span, drop_tokens_fill, hright]
    rfl
  · -- the walk to the left starts at its last token, with the tokens reversed
    have hlt : (span C a).2 - 1 < (fill C a).tokens.length := by
      rw [tokens_fill]
      simp [span]
      omega
    rw [atomStart, if_pos hlt, hstop, reverse_take_tokens_fill, hleft]
    simp [span]

/-- The span of what is put together around a part, from the counts to both sides. -/
theorem span_fill (D E : Context) (a : Phrase) :
    span E (fill D a) =
      ((span (D ++ E) a).1 - (before D).length, (span (D ++ E) a).2 + (after D).length) := by
  simp only [span, tokens_fill, before_append, List.length_append, List.length_reverse,
    Prod.mk.injEq]
  omega

/-- **The power around an atom** reaches as far as the scans from there. -/
theorem power_span (hC : Accepts 4 C) (a : Phrase) :
    powerStart (fill C a).tokens (span C a).1 = some (span (outer 3 C) (enclosing 3 C a)).1 ∧
      powerEnd (fill C a).tokens ((span C a).2 - 1) =
        some ((span (outer 3 C) (enclosing 3 C a)).2 - 1) := by
  -- the frames that belong to the power are the innermost ones of the context
  obtain ⟨D, E, rfl, hrun⟩ := hC.exists_powerTail
  obtain ⟨hinner, houter⟩ := inner_outer_append
    (fun f hf => (hrun.joins f hf).layer_eq.ge)
    (hrun.accepts.layer_lt (by decide) (hrun.closes .rightward))
  -- the scan to either side is as long as what these frames hold there
  have hleft : Extent.powerTail .leftward (before (D ++ E)) = some (before D).length :=
    hrun.links .leftward
  have hright : Extent.powerTail .rightward (after (D ++ E)) = some (after D).length :=
    hrun.links .rightward
  have hpos := a.length_tokens_pos
  have hstop : (span (D ++ E) a).2 - 1 + 1 = (span (D ++ E) a).2 := by
    simp only [span]
    omega
  -- the matchers cut the list in front of the atom and behind it
  have htake : (fill (D ++ E) a).tokens.take (span (D ++ E) a).1 = (before (D ++ E)).reverse := by
    rw [tokens_fill, List.append_assoc]
    exact List.take_left' (by simp [span])
  have hdrop : (fill (D ++ E) a).tokens.drop (span (D ++ E) a).2 = after (D ++ E) := by
    rw [tokens_fill]
    exact List.drop_left' (by simp [span])
  rw [enclosing, hinner, houter, span_fill, powerStart, powerEnd, htake, List.reverse_reverse,
    hleft, hstop, hdrop, hright]
  refine ⟨rfl, ?_⟩
  rw [Option.map_some]
  congr 1
  omega

/-- **The term around an operand** reaches as far as the scans from there. -/
theorem term_span {t : Token} (hC : Accepts 4 C) :
    termSpan (fill C (.operand t)).tokens (before C).length =
      some (span (outer 2 C) (enclosing 2 C (.operand t))) := by
  -- a term is made of powers and factors, so two kinds of frames belong to it
  obtain ⟨D, E, rfl, hE, hD, hscan, hclosed⟩ := hC.termTail_side
  obtain ⟨hinner, houter⟩ := inner_outer_append
    (fun f hf => (hD f hf).elim (fun h => h.layer_eq.ge.trans' (by decide)) fun h => h.layer_eq.ge)
    (hE.layer_lt (by decide) (hclosed .rightward))
  have hcursor := Cursor.exists_ofIndex? ⟨before (D ++ E), t, after (D ++ E)⟩
  -- the span is measured with a cursor on the operand
  have hlist : (fill (D ++ E) (.operand t)).tokens =
      Cursor.toList ⟨before (D ++ E), t, after (D ++ E)⟩ := by
    simp [tokens_fill, Cursor.toList, Phrase.tokens]
  have hterm := Cursor.term_eq_some_iff (c := ⟨before (D ++ E), t, after (D ++ E)⟩).2
    ⟨hscan .leftward, hscan .rightward⟩
  simp only [Cursor.index] at hcursor
  rw [enclosing, hinner, houter, span_fill, termSpan, hlist, hcursor, Option.bind_some, hterm]
  simp [span, side, Phrase.tokens]
  omega

end Atom

end Context

open Phrase Context

/-- **The scans are exact.** An accepted formula over the operators of arithmetic has one reading.
From an operand the scans give the range of the term around it at its depth of brackets: the tokens
of the phrase of layer `2` that encloses it in the reading. From an atom they give the first and the
last index of the power around it, and its own first and last index give each other. -/
theorem spans_exact {ts : List Token} (hne : ts ≠ []) (hvalid : validate ts = [])
    (harith : Arithmetic ts) :
    ∃ p : Phrase, p.Reads ts ∧ (∀ q : Phrase, q.Reads ts → q = p) ∧
      (∀ i t, ts[i]? = some t → t.isOperand →
        ∃ C, fill C (.operand t) = p ∧ (before C).length = i ∧
          (enclosing 2 C (.operand t)).Binds 2 ∧
          termSpan ts i = some (span (outer 2 C) (enclosing 2 C (.operand t)))) ∧
      ∀ (C : Context) (a : Phrase), a.Binds 4 → fill C a = p →
        atomEnd ts (span C a).1 = some ((span C a).2 - 1) ∧
        atomStart ts ((span C a).2 - 1) = some (span C a).1 ∧
        (enclosing 3 C a).Binds 3 ∧
        powerStart ts (span C a).1 = some (span (outer 3 C) (enclosing 3 C a)).1 ∧
        powerEnd ts ((span C a).2 - 1) = some ((span (outer 3 C) (enclosing 3 C a)).2 - 1) := by
  obtain ⟨p, hp⟩ := exists_reads hne hvalid harith
  refine ⟨p, hp, fun q hq => hq.unique hp, fun i t ht hoperand => ?_, fun C a ha hfill => ?_⟩
  · -- the operand stands in a context, and the term around it is what is scanned
    obtain ⟨xs, ys, rfl, rfl⟩ := exists_append_of_getElem? ht
    have hp' := hp
    rw [← xs.reverse_reverse] at hp'
    obtain ⟨C, hC, hfill, hbefore, -⟩ := hp'.exists_context hoperand
    have hlength : (before C).length = xs.length := by rw [hbefore, List.length_reverse]
    have hspan := term_span (t := t) hC
    rw [hfill, hp.tokens_eq, hlength] at hspan
    have hbinds := hp.binds
    rw [← hfill] at hbinds
    exact ⟨C, hfill, hlength, binds_enclosing (.operand hoperand) hbinds (by decide) (by decide),
      hspan⟩
  · -- any atom stands in a context as well
    subst hfill
    obtain ⟨n, hC, -⟩ := exists_accepts_of_fill hp.binds
    obtain ⟨hend, hstart⟩ := atom_span hC.weaken ha
    obtain ⟨hfirst, hlast⟩ := power_span hC.weaken a
    rw [hp.tokens_eq] at hend hstart hfirst hlast
    exact ⟨hend, hstart, binds_enclosing ha hp.binds (by decide) (by decide), hfirst, hlast⟩

/-- In `2-sin(x)^b*c+1` the term around the exponent is `sin(x)^b*c`. -/
theorem spans_of_exponent :
    let ts := (tokenize "2-sin(x)^b*c+1").tokens
    ts ≠ [] ∧ validate ts = [] ∧ Arithmetic ts ∧
      ∃ (p : Phrase) (t : Token) (C : Context), p.Reads ts ∧ ts[7]? = some t ∧ t.text = "b" ∧
        fill C (.operand t) = p ∧ (before C).length = 7 ∧
        span (outer 2 C) (enclosing 2 C (.operand t)) = (2, 10) ∧
        span (outer 3 C) (enclosing 3 C (.operand t)) = (2, 8) := by
  have hne : (tokenize "2-sin(x)^b*c+1").tokens ≠ [] := by decide +kernel
  have hvalid : validate (tokenize "2-sin(x)^b*c+1").tokens = [] := by decide +kernel
  have harith : Arithmetic (tokenize "2-sin(x)^b*c+1").tokens := by decide +kernel
  -- the operand `b` is an exponent, so its power starts at the call in front of it
  obtain ⟨p, hp, -, hterm, hatom⟩ := spans_exact hne hvalid harith
  have hb : (tokenize "2-sin(x)^b*c+1").tokens[7]? = some ⟨.variable, "b", 9⟩ := by decide +kernel
  obtain ⟨C, hfill, hbefore, -, hspan⟩ := hterm 7 _ hb (by decide)
  obtain ⟨-, -, -, hfirst, hlast⟩ := hatom C _ (.operand (by decide)) hfill
  -- the indices themselves are computed
  have hrange : termSpan (tokenize "2-sin(x)^b*c+1").tokens 7 = some (2, 10) := by decide +kernel
  have hstart : powerStart (tokenize "2-sin(x)^b*c+1").tokens 7 = some 2 := by decide +kernel
  have hend : powerEnd (tokenize "2-sin(x)^b*c+1").tokens 7 = some 7 := by decide +kernel
  simp only [span, hbefore, Phrase.tokens, List.length_singleton, Nat.add_sub_cancel]
    at hfirst hlast
  rw [hspan, Option.some.injEq] at hrange
  rw [hfirst, Option.some.injEq] at hstart
  rw [hlast, Option.some.injEq] at hend
  refine ⟨hne, hvalid, harith, p, _, C, hp, hb, rfl, hfill, hbefore, hrange, ?_⟩
  rw [span, Prod.mk.injEq]
  omega

end Formula
