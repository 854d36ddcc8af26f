import Formula.Proofs.Reading

/-!
# Phrases in context

A place in a phrase, seen from within: the frames around it, the innermost first. What stands in
front of the place and behind it is then the token list seen from a cursor, so a rule that looks at
the neighbours of a token looks at the frames around an operand.

`Accepts n C` says that any phrase of layer `n` may be put into the hole. This is what makes a local
replacement safe: whatever binds tightly enough can take the place of what was there
(`Accepts.fill_binds`). Conversely every operand of a reading, and every sign in leading position,
is found at the hole of such a context (`Reads.exists_context`, `Reads.exists_signed`).
-/

namespace Formula

/-- A phrase with a hole at one of its immediate parts. -/
inductive Frame where
  | inRegion (bounds : Bounds)
  | underSign (sign : Token)
  /-- The hole is the left operand. -/
  | leftOf (operator : Token) (right : Phrase)
  /-- The hole is the right operand. -/
  | rightOf (left : Phrase) (operator : Token)

namespace Frame

/-- The phrase with the hole filled. -/
def plug (p : Phrase) : Frame → Phrase
  | inRegion bounds => .region bounds p
  | underSign sign => .signed sign p
  | leftOf operator right => .binary p operator right
  | rightOf left operator => .binary left operator p

/-- The tokens in front of the hole, the nearest first. -/
def before : Frame → List Token
  | inRegion bounds => bounds.front.reverse
  | underSign sign => [sign]
  | leftOf _ _ => []
  | rightOf left operator => operator :: left.tokens.reverse

/-- The tokens behind the hole, the nearest first. -/
def after : Frame → List Token
  | inRegion bounds => bounds.back
  | underSign _ => []
  | leftOf operator right => operator :: right.tokens
  | rightOf _ _ => []

theorem tokens_plug (f : Frame) (p : Phrase) :
    (f.plug p).tokens = f.before.reverse ++ p.tokens ++ f.after := by
  cases f <;> simp [plug, before, after, Phrase.tokens]

end Frame

/-- The frames around a place in a phrase, the innermost first. -/
abbrev Context : Type := List Frame

namespace Context

/-- The phrase with the hole filled. -/
def fill : Context → Phrase → Phrase
  | [], p => p
  | f :: C, p => fill C (f.plug p)

/-- The tokens in front of the hole, the nearest first. -/
def before (C : Context) : List Token :=
  C.flatMap Frame.before

/-- The tokens behind the hole, the nearest first. -/
def after (C : Context) : List Token :=
  C.flatMap Frame.after

/-- What a walk from the hole meets. -/
def side (d : Direction) (C : Context) : List Token :=
  match d with
  | .rightward => after C
  | .leftward => before C

@[simp] theorem before_nil : before [] = [] := rfl

@[simp] theorem after_nil : after [] = [] := rfl

@[simp] theorem before_cons (f : Frame) (C : Context) : before (f :: C) = f.before ++ before C :=
  List.flatMap_cons

@[simp] theorem after_cons (f : Frame) (C : Context) : after (f :: C) = f.after ++ after C :=
  List.flatMap_cons

theorem before_append (C D : Context) : before (C ++ D) = before C ++ before D :=
  List.flatMap_append

theorem after_append (C D : Context) : after (C ++ D) = after C ++ after D :=
  List.flatMap_append

theorem side_append (d : Direction) (C D : Context) : side d (C ++ D) = side d C ++ side d D := by
  cases d with
  | rightward => exact after_append C D
  | leftward => exact before_append C D

theorem fill_append (C D : Context) (p : Phrase) : fill (C ++ D) p = fill D (fill C p) := by
  induction C generalizing p with
  | nil => rfl
  | cons f C ih => exact ih (f.plug p)

theorem tokens_fill (C : Context) (p : Phrase) :
    (fill C p).tokens = (before C).reverse ++ p.tokens ++ after C := by
  induction C generalizing p with
  | nil => simp [fill]
  | cons f C ih =>
    rw [fill, ih, Frame.tokens_plug]
    simp

/-! ### What a hole accepts -/

/-- **Strength of a hole.** Any phrase of layer `n` may be put there. -/
inductive Accepts : Nat → Context → Prop
  | top {n : Nat} (hn : 1 ≤ n) : Accepts n []
  | region {n : Nat} {b : Bounds} {C : Context} (hn : 1 ≤ n) (hb : b.Written)
      (hC : Accepts 4 C) : Accepts n (.inRegion b :: C)
  | sign {n : Nat} {s : Token} {C : Context} (hn : 2 ≤ n) (hs : s.isSign) (hC : Accepts 1 C) :
      Accepts n (.underSign s :: C)
  | left {n k : Nat} {o : Token} {r : Phrase} {C : Context} (hn : k ≤ n) (ho : o.joins k)
      (hr : r.Binds (k + 1)) (hC : Accepts k C) : Accepts n (.leftOf o r :: C)
  | right {n k : Nat} {l : Phrase} {o : Token} {C : Context} (hn : k + 1 ≤ n) (hl : l.Binds k)
      (ho : o.joins k) (hC : Accepts k C) : Accepts n (.rightOf l o :: C)

namespace Accepts

variable {m n : Nat} {C : Context} {p : Phrase}

theorem mono (h : Accepts m C) (hmn : m ≤ n) : Accepts n C := by
  cases h with
  | top hn => exact .top (hn.trans hmn)
  | region hn hb hC => exact .region (hn.trans hmn) hb hC
  | sign hn hs hC => exact .sign (hn.trans hmn) hs hC
  | left hn ho hr hC => exact .left (hn.trans hmn) ho hr hC
  | right hn hl ho hC => exact .right (hn.trans hmn) hl ho hC

/-- A hole for a phrase takes an atom. -/
theorem weaken (h : Accepts n C) : Accepts 4 C := by
  cases h with
  | top _ => exact .top (by decide)
  | region _ hb hC => exact .region (by decide) hb hC
  | sign _ hs hC => exact .sign (by decide) hs hC
  -- an operator binds more loosely than an atom
  | left _ ho hr hC => exact .left (by have := Token.joins_bounds ho; omega) ho hr hC
  | right _ hl ho hC => exact .right (by have := Token.joins_bounds ho; omega) hl ho hC

/-- **A filled hole makes a phrase.** -/
theorem fill_binds (h : Accepts n C) (hp : p.Binds n) : (fill C p).Binds 1 := by
  induction h generalizing p with
  | top hn => exact hp.mono hn
  | region hn hb _ ih => exact ih (.region hb (hp.mono hn))
  | sign hn hs _ ih => exact ih (.signed le_rfl hs (hp.mono hn))
  | left hn ho hr _ ih => exact ih (.binary le_rfl (hp.mono hn) ho hr)
  | right hn hl ho _ ih => exact ih (.binary le_rfl hl ho (hp.mono hn))

/-- A filled hole reads the tokens around the hole and those put there. -/
theorem fill_reads (h : Accepts n C) (hp : p.Binds n) :
    (fill C p).Reads ((before C).reverse ++ p.tokens ++ after C) :=
  ⟨h.fill_binds hp, tokens_fill C p⟩

/-- What stands in front of a hole binds more loosely than what is put there. -/
theorem bars (h : Accepts n C) : Bars n (before C).reverse := by
  induction h with
  | top => simp [Bars]
  | @region n b C hn hb _ ih =>
    -- the opening bracket bars, whatever stands in front of it
    obtain ⟨fs, o, hfront, ho⟩ := hb.exists_front
    have hbars : Bars n (((before C).reverse ++ fs) ++ [o]) := .of_isOpen ho _
    simpa [Frame.before, hfront] using hbars
  | @sign n s C hn hs _ ih =>
    -- the sign is of layer `1`, and the hole behind it takes no sum
    have hbars : Bars n ((before C).reverse ++ [s]) := (Bars.of_joins (n := 1) hs _).mono hn
    simpa [Frame.before] using hbars
  -- nothing comes between the hole and what stands in front of the operator's left operand
  | @left n k o r C hn _ _ _ ih => simpa [Frame.before] using ih.mono hn
  | @right n k l o C hn _ ho _ ih =>
    have hbars : Bars n (((before C).reverse ++ l.tokens) ++ [o]) := (Bars.of_joins ho _).mono hn
    simpa [Frame.before] using hbars

/-- What stands behind a hole binds at most as tightly as what is put there. -/
theorem isClose_or_joins (h : Accepts n C) :
    ∀ t ∈ (after C).head?, t.isClose ∨ ∃ k, k ≤ n ∧ t.joins k := by
  induction h with
  | top => simp
  | @region n b C hn hb _ ih =>
    -- the region is over
    obtain ⟨c, hback, hc⟩ := hb.exists_back
    simpa [Frame.after, hback] using .inl hc
  | @sign n s C hn _ _ ih =>
    intro t ht
    exact (ih t ht).imp_right fun ⟨k, hk, hjoins⟩ => ⟨k, hk.trans (by omega), hjoins⟩
  | @left n k o r C hn ho _ _ ih =>
    intro t ht
    -- the operator itself is met first
    obtain rfl : o = t := by simpa [Frame.after] using ht
    exact .inr ⟨k, hn, ho⟩
  | @right n k l o C hn _ _ _ ih =>
    intro t ht
    exact (ih t ht).imp_right fun ⟨j, hj, hjoins⟩ => ⟨j, hj.trans (by omega), hjoins⟩

end Accepts

/-- **A part of a phrase** binds as its hole demands. -/
theorem exists_accepts_of_fill {C : Context} {p : Phrase} {n : Nat} (h : (fill C p).Binds n) :
    ∃ m, Accepts m C ∧ p.Binds m := by
  induction C generalizing p with
  | nil => exact ⟨1, .top le_rfl, h.binds_one⟩
  | cons f C ih =>
    obtain ⟨m, hC, hp⟩ := ih h
    cases f with
    | inRegion b =>
      cases hp with
      | region hb hp => exact ⟨1, .region le_rfl hb hC.weaken, hp⟩
    | underSign s =>
      cases hp with
      | signed hm hs hp => exact ⟨2, .sign le_rfl hs (hC.mono hm), hp⟩
    | leftOf o r =>
      cases hp with
      | binary hm hl ho hr => exact ⟨_, .left le_rfl ho hr (hC.mono hm), hl⟩
    | rightOf l o =>
      cases hp with
      | binary hm hl ho hr => exact ⟨_, .right le_rfl hl ho (hC.mono hm), hr⟩

end Context

/-! ### The context of a token -/

/-- A token of a list put together from two stands in the front one or in the back one. -/
theorem append_eq_append_cons {α : Type} {zs us xs ys : List α} {t : α}
    (h : zs ++ us = xs ++ t :: ys) :
    (∃ vs, zs = xs ++ t :: vs ∧ ys = vs ++ us) ∨ ∃ vs, xs = zs ++ vs ∧ us = vs ++ t :: ys := by
  rcases List.append_eq_append_iff.1 h with ⟨vs, hxs, hus⟩ | ⟨vs, hzs, hys⟩
  · exact .inr ⟨vs, hxs, hus⟩
  · cases vs with
    | nil => exact .inr ⟨[], by simpa using hzs.symm, by simpa using hys.symm⟩
    | cons v vs =>
      obtain ⟨rfl, rfl⟩ := List.cons.inj hys
      exact .inl ⟨vs, hzs, rfl⟩

/-- Around the contents of a region there are names and brackets. -/
theorem Bounds.Written.kind_of_mem {b : Bounds} (hb : b.Written) {t : Token}
    (ht : t ∈ b.front ∨ t ∈ b.back) :
    t.kind = .function ∨ t.kind = .openBracket ∨ t.kind = .closeBracket := by
  cases b with
  | implicit => exact hb.elim
  | brackets o c =>
    rcases ht with ht | ht
    · obtain rfl : t = o := by simpa [Bounds.front] using ht
      exact .inr (.inl (Token.kind_of_isOpen hb.1))
    · obtain rfl : t = c := by simpa [Bounds.back] using ht
      exact .inr (.inr (Token.kind_of_isClose hb.2))
  | call f o c =>
    rcases ht with ht | ht
    · rcases (by simpa [Bounds.front] using ht : t = f ∨ t = o) with rfl | rfl
      · exact .inl hb.1
      · exact .inr (.inl (Token.kind_of_isOpen hb.2.1))
    · obtain rfl : t = c := by simpa [Bounds.back] using ht
      exact .inr (.inr (Token.kind_of_isClose hb.2.2))

namespace Phrase

/-- An operand or an operator in a region stands between the brackets. -/
theorem mem_region {b : Bounds} {p : Phrase} (hb : b.Written) {t : Token} {xs ys : List Token}
    (ht : t.isOperand ∨ t.kind = .operator) (h : (region b p).tokens = xs ++ t :: ys) :
    ∃ us vs, p.tokens = us ++ t :: vs ∧ xs = b.front ++ us ∧ ys = vs ++ b.back := by
  have hnot : ¬ (t ∈ b.front ∨ t ∈ b.back) := by
    intro hmem
    rcases hb.kind_of_mem hmem with hkind | hkind | hkind <;> simp [Token.isOperand, hkind] at ht
  rw [tokens, List.append_assoc] at h
  -- of the three parts of the region only the middle one can hold the token
  rcases append_eq_append_cons h with ⟨vs, hfront, -⟩ | ⟨us, hxs, h⟩
  · exact absurd (.inl (by simp [hfront])) hnot
  rcases append_eq_append_cons h with ⟨vs, htokens, hys⟩ | ⟨vs, -, hback⟩
  · exact ⟨us, vs, htokens, hxs, hys⟩
  · exact absurd (.inr (by simp [hback])) hnot

open Context

/-- The token behind `xs` is an operand, or a sign in leading position. -/
def StartsBehind (t : Token) (xs : List Token) : Prop :=
  t.isOperand ∨ t.isSign ∧ ∀ u ∈ xs.getLast?, u.isOpen

/-- It stays so when tokens further in front are left out. -/
theorem StartsBehind.of_append {t : Token} {xs : List Token} (us : List Token)
    (h : StartsBehind t (us ++ xs)) : StartsBehind t xs := by
  refine h.imp_right fun ⟨hs, hlead⟩ => ⟨hs, fun u hu => hlead u ?_⟩
  rw [List.getLast?_append, Option.mem_def.1 hu]
  rfl

theorem StartsBehind.operand_or_operator {t : Token} {xs : List Token} (h : StartsBehind t xs) :
    t.isOperand ∨ t.kind = .operator :=
  h.imp_right fun ⟨hs, _⟩ => Token.kind_of_isSign hs

/-- A binary operator is not such a token: it stands behind its left operand. -/
theorem not_startsBehind_tokens {l : Phrase} {o : Token} {n k : Nat} (hl : l.Binds n)
    (ho : o.joins k) : ¬ StartsBehind o l.tokens := by
  rintro (hoperand | ⟨-, hlead⟩)
  · simp [Token.isOperand, Token.kind_of_joins ho] at hoperand
  · obtain ⟨us, t, hlast, ht⟩ := hl.exists_concat
    exact Token.not_isOpen_of_endsAtom ht (hlead t (by simp [hlast]))

/-- **The part that starts at a token**, and its context, built up from that of a phrase around it.
Such a token is all of an operand, or the sign of a signed product. -/
theorem Binds.exists_fill {p : Phrase} {n : Nat} {C : Context} (h : p.Binds n) (hC : Accepts n C)
    {t : Token} {xs ys : List Token} (ht : StartsBehind t xs) (htokens : p.tokens = xs ++ t :: ys) :
    ∃ (D : Context) (q : Phrase) (m : Nat), Accepts m D ∧ q.Binds m ∧
      (q = .operand t ∨ ∃ r, q = .signed t r) ∧ fill D q = fill C p ∧
      before D = xs.reverse ++ before C ∧ q.tokens ++ after D = t :: ys ++ after C := by
  induction h generalizing C xs ys with
  | @operand u n hu =>
    -- the token is the operand, and nothing is on either side
    obtain ⟨rfl, rfl, rfl⟩ : xs = [] ∧ u = t ∧ ys = [] := by
      cases xs <;> simp_all [tokens]
    exact ⟨C, .operand u, n, hC, .operand hu, .inl rfl, rfl, rfl, rfl⟩
  | @region b p n hb hp ih =>
    -- the token is between the brackets, one frame further in
    obtain ⟨us, vs, hinner, rfl, rfl⟩ := mem_region hb ht.operand_or_operator htokens
    obtain ⟨D, q, m, hD, hq, hstart, hfill, hbefore, hafter⟩ :=
      ih (C := .inRegion b :: C) (.region le_rfl hb hC.weaken) (ht.of_append b.front) hinner
    exact ⟨D, q, m, hD, hq, hstart, hfill, by simp [hbefore, Frame.before],
      by simp [hafter, Frame.after]⟩
  | @signed s p n hn hs hp ih =>
    cases xs with
    | nil =>
      -- the token is the sign
      obtain ⟨rfl, rfl⟩ : s = t ∧ p.tokens = ys := by simpa [tokens] using htokens
      exact ⟨C, .signed s p, n, hC, .signed hn hs hp, .inr ⟨p, rfl⟩, rfl, rfl, rfl⟩
    | cons x xs =>
      -- the token is in the product behind the sign
      obtain ⟨rfl, hinner⟩ : s = x ∧ p.tokens = xs ++ t :: ys := by simpa [tokens] using htokens
      obtain ⟨D, q, m, hD, hq, hstart, hfill, hbefore, hafter⟩ :=
        ih (C := .underSign s :: C) (.sign le_rfl hs (hC.mono hn)) (ht.of_append [s]) hinner
      exact ⟨D, q, m, hD, hq, hstart, hfill, by simp [hbefore, Frame.before],
        by simp [hafter, Frame.after]⟩
  | @binary l r o n k hnk hl ho hr ihl ihr =>
    rcases append_eq_append_cons htokens with ⟨vs, hleft, rfl⟩ | ⟨us, rfl, hright⟩
    · -- the token is in the left operand
      obtain ⟨D, q, m, hD, hq, hstart, hfill, hbefore, hafter⟩ :=
        ihl (C := .leftOf o r :: C) (.left le_rfl ho hr (hC.mono hnk)) ht hleft
      exact ⟨D, q, m, hD, hq, hstart, hfill, by simp [hbefore, Frame.before],
        by simp [hafter, Frame.after]⟩
    · cases us with
      | nil =>
        -- the token would be the operator
        obtain ⟨rfl, -⟩ : o = t ∧ r.tokens = ys := by simpa using hright
        exact absurd (by simpa using ht) (not_startsBehind_tokens hl ho)
      | cons u us =>
        -- the token is in the right operand
        obtain ⟨rfl, hinner⟩ : o = u ∧ r.tokens = us ++ t :: ys := by simpa using hright
        obtain ⟨D, q, m, hD, hq, hstart, hfill, hbefore, hafter⟩ :=
          ihr (C := .rightOf l o :: C) (.right le_rfl hl ho (hC.mono hnk))
            ((ht.of_append l.tokens).of_append [o]) hinner
        exact ⟨D, q, m, hD, hq, hstart, hfill, by simp [hbefore, Frame.before],
          by simp [hafter, Frame.after]⟩

/-- **Every operand of a reading** stands in a hole for atoms. -/
theorem Reads.exists_context {p : Phrase} {t : Token} {bs us : List Token}
    (h : p.Reads (bs.reverse ++ t :: us)) (ht : t.isOperand) :
    ∃ C : Context, Accepts 4 C ∧ fill C (.operand t) = p ∧ before C = bs ∧ after C = us := by
  obtain ⟨C, q, m, hC, hq, hstart, hfill, hbefore, hafter⟩ :=
    h.binds.exists_fill (C := []) (.top le_rfl) (.inl ht) h.tokens_eq
  rcases hstart with rfl | ⟨r, rfl⟩
  · exact ⟨C, hC.weaken, hfill, by simpa using hbefore, by simpa [tokens] using hafter⟩
  · -- an operand is no sign
    cases hq with
    | signed _ hs _ => simp [Token.isOperand, Token.kind_of_isSign hs] at ht

/-- **Every leading sign of a reading** stands in front of a product, in a hole for sums. -/
theorem Reads.exists_signed {p : Phrase} {s : Token} {bs us : List Token}
    (h : p.Reads (bs.reverse ++ s :: us)) (hs : s.isSign) (hlead : bs.head?.all Token.isOpen) :
    ∃ (C : Context) (q : Phrase), Accepts 1 C ∧ q.Binds 2 ∧ fill C (.signed s q) = p ∧
      before C = bs ∧ q.tokens ++ after C = us := by
  have hstarts : StartsBehind s bs.reverse := .inr ⟨hs, by simpa [Option.all_eq_true] using hlead⟩
  obtain ⟨C, q, m, hC, hq, hstart, hfill, hbefore, hafter⟩ :=
    h.binds.exists_fill (C := []) (.top le_rfl) hstarts h.tokens_eq
  rcases hstart with rfl | ⟨r, rfl⟩
  · -- a sign is no operand
    cases hq with
    | operand ht => simp [Token.isOperand, Token.kind_of_isSign hs] at ht
  · cases hq with
    | signed hm _ hr =>
      exact ⟨C, r, hC.mono hm, hr, hfill, by simpa using hbefore, by simpa [tokens] using hafter⟩

end Phrase

end Formula
