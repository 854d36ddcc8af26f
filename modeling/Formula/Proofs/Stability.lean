import Formula.Proofs.Persistence
import Formula.Proofs.Rendering

/-!
# Later stages leave earlier ones alone

Simplification leaves a finished phrase of legal tokens, and bracketing keeps it so. A list that is
read as such a phrase simplifies to itself (`Phrase.Reads.simplify_eq`), and bracketing its chains a
second time changes nothing. Written out and analyzed again, the phrase is found once more, at other
places (`Phrase.Reads.analyze_join`). Places do not show in the texts of an analysis or in its tree
(`Analysis.Shows.agree`).

This applies to what simplification leaves as well as to what is written with its chains bracketed
(`analyze_stable`).
-/

namespace Formula

open Phrase

/-! ### Places do not matter -/

theorem bare_eq_iff {t u : Token} : t.bare = u.bare ↔ t.kind = u.kind ∧ t.text = u.text := by
  simp [Token.bare]

/-- The text of a list does not depend on the places. -/
theorem join_eq_of_map_bare {ts us : List Token} (h : ts.map Token.bare = us.map Token.bare)
    (separator : String) : Token.join ts separator = Token.join us separator := by
  have htexts := congrArg (List.map Token.text) h
  simp only [List.map_map] at htexts
  exact congrArg separator.intercalate htexts

/-- The same bounds at other places. -/
theorem Bounds.Written.exists_of_map_bare {b : Bounds} (h : b.Written) {fs gs : List Token}
    (hfs : fs.map Token.bare = b.front.map Token.bare)
    (hgs : gs.map Token.bare = b.back.map Token.bare) :
    ∃ b' : Bounds, b'.Written ∧ b'.front = fs ∧ b'.back = gs ∧ b'.bare = b.bare := by
  cases b with
  | implicit => exact h.elim
  | brackets o c =>
    -- a token that agrees with a bracket up to its place is such a bracket
    obtain ⟨o', rfl, ho⟩ : ∃ o', fs = [o'] ∧ o'.bare = o.bare := by
      simpa [Bounds.front, List.map_eq_singleton_iff] using hfs
    obtain ⟨c', rfl, hc⟩ : ∃ c', gs = [c'] ∧ c'.bare = c.bare := by
      simpa [Bounds.back, List.map_eq_singleton_iff] using hgs
    refine ⟨.brackets o' c', ⟨?_, ?_⟩, rfl, rfl, by rw [bare, ho, hc, bare]⟩
    · simpa [Token.isOpen, (bare_eq_iff.1 ho).1] using h.1
    · simpa [Token.isClose, (bare_eq_iff.1 hc).1] using h.2
  | call f o c =>
    -- likewise for the name in front of them
    obtain ⟨f', o', rfl, hf, ho⟩ :
        ∃ f' o', fs = [f', o'] ∧ f'.bare = f.bare ∧ o'.bare = o.bare := by
      rcases fs with _ | ⟨f', _ | ⟨o', _ | _⟩⟩ <;> simp [Bounds.front] at hfs
      exact ⟨f', o', rfl, hfs⟩
    obtain ⟨c', rfl, hc⟩ : ∃ c', gs = [c'] ∧ c'.bare = c.bare := by
      simpa [Bounds.back, List.map_eq_singleton_iff] using hgs
    refine ⟨.call f' o' c', ⟨?_, ?_, ?_⟩, rfl, rfl, by rw [bare, hf, ho, hc, bare]⟩
    · exact (bare_eq_iff.1 hf).1.trans h.1
    · simpa [Token.isOpen, (bare_eq_iff.1 ho).1] using h.2.1
    · simpa [Token.isClose, (bare_eq_iff.1 hc).1] using h.2.2

/-- **The same tokens at other places** are read as the same phrase, but for the places. -/
theorem Phrase.Binds.exists_of_map_bare {p : Phrase} {n : Nat} (h : p.Binds n) {us : List Token}
    (hus : us.map Token.bare = p.tokens.map Token.bare) :
    ∃ q : Phrase, q.Binds n ∧ q.tokens = us ∧ q.bare = p.bare := by
  induction h generalizing us with
  | @operand t n ht =>
    obtain ⟨u, rfl, hu⟩ : ∃ u, us = [u] ∧ u.bare = t.bare := by
      simpa [tokens, List.map_eq_singleton_iff] using hus
    refine ⟨.operand u, .operand ?_, rfl, by rw [bare, hu, bare]⟩
    simpa [Token.isOperand, (bare_eq_iff.1 hu).1] using ht
  | @region b p n hb hp ih =>
    -- the contents stand between the tokens of the bounds, and each part keeps its length
    rw [tokens, List.map_append, List.map_append] at hus
    obtain ⟨vs, gs, rfl, hvs, hgs⟩ := List.map_eq_append_iff.1 hus
    obtain ⟨fs, ws, rfl, hfs, hws⟩ := List.map_eq_append_iff.1 hvs
    obtain ⟨q, hq, rfl, hqbare⟩ := ih hws
    obtain ⟨b', hb', rfl, rfl, hbbare⟩ := hb.exists_of_map_bare hfs hgs
    exact ⟨.region b' q, .region hb' hq, rfl, by rw [bare, hqbare, hbbare, bare]⟩
  | @signed s p n hn hs hp ih =>
    -- the sign is the first token
    rw [tokens, List.map_cons] at hus
    obtain ⟨u, vs, rfl, hu, hvs⟩ := List.map_eq_cons_iff.1 hus
    obtain ⟨q, hq, rfl, hqbare⟩ := ih hvs
    refine ⟨.signed u q, .signed hn ?_ hq, rfl, by rw [bare, hu, hqbare, bare]⟩
    obtain ⟨hkind, htext⟩ := bare_eq_iff.1 hu
    simpa [Token.isSign, Token.isOperatorIn, hkind, htext] using hs
  | @binary l r o n k hn hl ho hr ihl ihr =>
    rw [tokens, List.map_append, List.map_cons] at hus
    obtain ⟨vs, ws, rfl, hvs, hws⟩ := List.map_eq_append_iff.1 hus
    obtain ⟨u, ws, rfl, hu, hws⟩ := List.map_eq_cons_iff.1 hws
    obtain ⟨l', hl', rfl, hlbare⟩ := ihl hvs
    obtain ⟨r', hr', rfl, hrbare⟩ := ihr hws
    -- an operator of the same text binds as tightly
    have hjoins : u.joins k = o.joins k := by rw [← Token.joins_bare u, hu, Token.joins_bare]
    exact ⟨.binary l' u r', .binary hn hl' (hjoins ▸ ho) hr', rfl,
      by rw [bare, hu, hlbare, hrbare, bare]⟩

namespace Phrase

theorem startsWithZero_bare (p : Phrase) : p.bare.startsWithZero = p.startsWithZero := by
  induction p with
  | operand | region | signed => rfl
  | binary l o r ihl => exact ihl

theorem untouched_bare {l r : Phrase} {o : Token} :
    Untouched l.bare o.bare r.bare ↔ Untouched l o r := by
  have hcontract : contract? l.bare o.bare r.bare = none ↔ contract? l o r = none := by
    rw [contract?_bare, Option.map_eq_none_iff]
  constructor
  · intro h
    exact ⟨hcontract.1 h.contract, by simpa [startsWithZero_bare] using h.divisor⟩
  · intro h
    exact ⟨hcontract.2 h.contract, by simpa [startsWithZero_bare] using h.divisor⟩

theorem finished_bare (p : Phrase) : p.bare.Finished ↔ p.Finished := by
  induction p with
  | operand t => exact ⟨fun _ => finished_operand t, fun _ => finished_operand t.bare⟩
  | region b p ih => rw [bare, finished_region, finished_region, ih]
  | signed s p => exact iff_of_false (not_finished_signed _ _) (not_finished_signed s p)
  | binary l o r ihl ihr =>
    rw [bare, finished_binary, finished_binary, ihl, ihr, untouched_bare]

theorem function?_bare (b : Bounds) : b.bare.function? = b.function?.map Token.bare := by
  cases b <;> rfl

theorem signs_bare (p : Phrase) : p.bare.signs = p.signs := by
  induction p with
  | operand t => rfl
  | region b p ih => exact ih
  | signed s p ih => rw [bare, signs, ih, signs]
  | binary l o r ihl ihr => rw [bare, signs, ihl, ihr, signs]

theorem postorder_bare (p : Phrase) : p.bare.postorder = p.postorder.map Token.bare := by
  induction p with
  | operand t => rfl
  | region b p ih =>
    rw [bare, postorder, ih, function?_bare, postorder, List.map_append]
    cases b.function? <;> rfl
  | signed s p ih => rw [bare, postorder, ih, postorder, List.map_append]; rfl
  | binary l o r ihl ihr =>
    rw [bare, postorder, ihl, ihr, postorder, List.map_append, List.map_append]
    rfl

theorem tree_bare (p : Phrase) : p.bare.tree = p.tree := by
  induction p with
  | operand t => rfl
  | region b p ih =>
    rw [bare, tree, ih, function?_bare, tree]
    cases b.function? <;> rfl
  | signed s p ih => rw [bare, tree, ih, tree]; rfl
  | binary l o r ihl ihr => rw [bare, tree, ihl, ihr, tree]; rfl

end Phrase

/-! ### Simplification -/

/-- Nothing fires at rest. -/
theorem AtRest.eq_of_firings {ts us : List Token} (h : AtRest ts)
    (hfirings : Relation.ReflTransGen Fires ts us) : us = ts := by
  rcases hfirings.cases_head with rfl | ⟨vs, ⟨i, c, e, hc, hedit, -⟩, -⟩
  · rfl
  · simp [h i c hc] at hedit

/-- **A finished phrase** simplifies to itself. -/
theorem Phrase.Reads.simplify_eq {p : Phrase} {ts : List Token} (hp : p.Reads ts)
    (hfinished : p.Finished) : simplify ts = .ok ts := by
  obtain ⟨simplified, hok, hfirings, -⟩ := hp.exists_simplify hfinished.proper
  have hrest := (hp.atRest_iff hfinished.proper).2 hfinished.normal
  rw [hok, hrest.eq_of_firings hfirings]

/-- **What simplification leaves** is read as a finished phrase, and of legal tokens it leaves legal
ones. -/
theorem Phrase.Reads.exists_finished {p : Phrase} {ts out : List Token} (hp : p.Reads ts)
    (hlegal : p.Legal) (h : simplify ts = .ok out) :
    ∃ q : Phrase, q.Reads out ∧ q.Finished ∧ q.Legal := by
  obtain ⟨q, hq, hsteps, hend⟩ := simplify_rewrites hp h
  have hsafe := hq.findDivisionByZero_eq_none_iff.1 (findDivisionByZero_of_simplify h)
  have hsigns : q.signs = 0 := by rw [← hq.leadingSigns_eq, leadingSigns_eq_zero_of_nextEdit hend]
  have hnormal := (hq.atRest_iff ⟨hsigns, hsafe⟩).1 (atRest_of_nextEdit hend)
  exact ⟨q, hq, ⟨hnormal, hsafe⟩, legal_of_steps hsteps hlegal⟩

/-! ### Analyzing what has been written -/

/-- Behind an operand of an expression stands an operator or a closing bracket. -/
theorem Phrase.Binds.parted {p : Phrase} {n : Nat} (h : p.Binds n) : Parted p.tokens :=
  h.derives_arithmetic.wellPlaced.parted

/-- **An analysis shows a phrase**, wherever its tokens stand, if the phrase is what simplification
has left, and if the later results are those of the phrase with its chains bracketed. -/
structure Analysis.Shows (a : Analysis) (p : Phrase) : Prop where
  simplified : a.simplified.map Token.bare = p.tokens.map Token.bare
  normalized : a.normalized.map Token.bare = p.bracketed.tokens.map Token.bare
  rpn : a.rpn.map Token.bare = p.bracketed.postorder.map Token.bare
  tree : a.tree = p.bracketed.tree

/-- What is written of two phrases that are the same with their chains bracketed. -/
theorem Analysis.Shows.agree {a b : Analysis} {p q : Phrase} (ha : a.Shows p) (hb : b.Shows q)
    (h : q.bracketed = p.bracketed) :
    Token.join b.normalized "" = Token.join a.normalized "" ∧ b.rpnText = a.rpnText ∧
      b.tree = a.tree := by
  have hnormalized : b.normalized.map Token.bare = a.normalized.map Token.bare := by
    rw [hb.normalized, h, ha.normalized]
  have hrpn : b.rpn.map Token.bare = a.rpn.map Token.bare := by rw [hb.rpn, h, ha.rpn]
  exact ⟨join_eq_of_map_bare hnormalized "", join_eq_of_map_bare hrpn " ",
    by rw [hb.tree, h, ha.tree]⟩

/-- The same phrase at other places. -/
theorem Analysis.Shows.of_bare {a : Analysis} {p q : Phrase} (h : a.Shows q)
    (hbare : q.bare = p.bare) : a.Shows p := by
  have hbracketed : q.bracketed.bare = p.bracketed.bare := by
    rw [bare_bracketed, hbare, bare_bracketed]
  constructor
  · rw [h.simplified, ← tokens_bare, hbare, tokens_bare]
  · rw [h.normalized, ← tokens_bare, hbracketed, tokens_bare]
  · rw [h.rpn, ← postorder_bare, hbracketed, postorder_bare]
  · rw [h.tree, ← tree_bare, hbracketed, tree_bare]

/-- **A finished phrase written out** is analyzed to what it is. -/
theorem Phrase.Reads.analyze_join {p : Phrase} {ts : List Token} (hp : p.Reads ts)
    (hfinished : p.Finished) (hlegal : p.Legal) :
    ∃ b, analyze (Token.join ts "") = .ok b ∧ b.Shows p := by
  obtain ⟨hbinds, rfl⟩ := hp
  -- the tokens are read again at other places, as the same phrase
  obtain ⟨q, hq, htokens, hbare⟩ := hbinds.exists_of_map_bare (map_bare_placeFrom 0 p.tokens)
  have hreads : q.Reads (placeFrom 0 p.tokens) := ⟨hq, htokens⟩
  have hqfinished : q.Finished := by rwa [← finished_bare, hbare, finished_bare]
  -- joined without blanks the text has no errors, and its tokens are those of the phrase
  have hdiagnose :
      diagnose (trimmed (Token.join p.tokens "")) = (placeFrom 0 p.tokens, ⟨[], []⟩) := by
    have hne : p.tokens ≠ [] := List.ne_nil_of_length_pos p.length_tokens_pos
    have hvalid : validate (placeFrom 0 p.tokens) = [] :=
      htokens ▸ hq.derives_arithmetic.validate_eq_nil
    rw [trimmed_join hlegal, diagnose, tokenize_join hne hlegal hbinds.parted, hvalid]
  have hempty : (diagnose (trimmed (Token.join p.tokens ""))).2.isEmpty := by
    rw [hdiagnose]
    rfl
  -- the phrase is finished, so there is nothing to simplify
  have hsimplify :
      simplify (diagnose (trimmed (Token.join p.tokens ""))).1 = .ok (placeFrom 0 p.tokens) := by
    rw [hdiagnose]
    exact hreads.simplify_eq hqfinished
  have hnormalize := hreads.reads_normalize
  have htree := hreads.ofRpn_normalize hqfinished.normal.signs_eq
  refine ⟨_, analyze_of_simplified hempty hsimplify htree, Analysis.Shows.of_bare ?_ hbare⟩
  exact ⟨by rw [htokens], by rw [hnormalize.tokens_eq], by rw [hnormalize.toRpn_eq], rfl⟩

/-- **The results of an analysis** are those of one finished phrase of legal tokens. -/
theorem exists_finished_of_analyze {s : String} {a : Analysis} (h : analyze s = .ok a) :
    ∃ p : Phrase, p.Reads a.simplified ∧ p.Finished ∧ p.Legal ∧
      p.bracketed.Reads a.normalized ∧ a.Shows p := by
  -- every stage succeeded, and the reading of the first tokens is taken through them
  obtain ⟨hempty, hrun, hnormalized, hrpn, htree⟩ := stages_of_analyze h
  obtain ⟨hne, hvalid, harith⟩ := accepted_of_isEmpty hempty
  obtain ⟨p, hp⟩ := exists_reads hne hvalid harith
  -- tokens come from the text, so they are lexed again as they are
  have hlegal : p.Legal := by
    intro t ht
    rw [hp.tokens_eq] at ht
    simp only [diagnose] at ht
    exact legal_of_mem_tokenize ht
  obtain ⟨q, hq, hfinished, hqlegal⟩ := hp.exists_finished hlegal hrun
  have hreads : q.bracketed.Reads a.normalized := hnormalized ▸ hq.reads_normalize
  -- the tree is that of the bracketed phrase, which has no signs
  have hbuilt : a.tree = q.bracketed.tree := by
    have hok := hq.ofRpn_normalize hfinished.normal.signs_eq
    rw [← hnormalized, ← hrpn, htree] at hok
    exact Except.ok.inj hok
  refine ⟨q, hq, hfinished, hqlegal, hreads, ?_, ?_, ?_, hbuilt⟩
  · rw [hq.tokens_eq]
  · rw [hreads.tokens_eq]
  · rw [hrpn, hreads.toRpn_eq]

/-- **What an analysis writes** are expressions over the operators of arithmetic without signs. -/
theorem derives_of_analyze {s : String} {a : Analysis} (h : analyze s = .ok a) :
    Grammar.unsigned.Derives .expression a.simplified ∧
      Grammar.unsigned.Derives .expression a.normalized := by
  obtain ⟨p, hp, hfinished, -, hbracketed, -⟩ := exists_finished_of_analyze h
  have hunsigned {q : Phrase} {ts : List Token} (hq : q.Reads ts) (hsigns : q.signs = 0) :
      Grammar.unsigned.Derives .expression ts := by
    rw [← hq.tokens_eq]
    exact (hq.binds.derives (fun _ ht => ht) (.inl hsigns)).1
  exact ⟨hunsigned hp hfinished.normal.signs_eq,
    hunsigned hbracketed hfinished.bracketed.normal.signs_eq⟩

/-- **Later stages never reopen earlier ones.** What an analysis has written with its chains
bracketed is simplified already, and it has no chains left. If the simplified text is analyzed
again, or the text with its chains bracketed, there is nothing to simplify, and the later results
are the same as before. -/
theorem analyze_stable {s : String} {a : Analysis} (h : analyze s = .ok a) :
    simplify a.normalized = .ok a.normalized ∧ normalize a.normalized = a.normalized ∧
      (∃ b, analyze a.simplifiedText = .ok b ∧ b.simplifiedText = a.simplifiedText ∧
        Token.join b.normalized "" = Token.join a.normalized "" ∧ b.rpnText = a.rpnText ∧
        b.tree = a.tree) ∧
      ∃ b, analyze (Token.join a.normalized "") = .ok b ∧
        b.simplifiedText = Token.join a.normalized "" ∧
        Token.join b.normalized "" = Token.join a.normalized "" ∧ b.rpnText = a.rpnText ∧
        b.tree = a.tree := by
  -- all that is shown of the formula is read off one finished phrase
  obtain ⟨p, hp, hfinished, hlegal, hbracketed, hshows⟩ := exists_finished_of_analyze h
  -- and bracketing its chains a second time changes nothing
  have hagain : p.bracketed.bracketed = p.bracketed := bracketed_bracketed p
  refine ⟨hbracketed.simplify_eq hfinished.bracketed, ?_, ?_, ?_⟩
  · calc normalize a.normalized
        = p.bracketed.bracketed.tokens := hbracketed.reads_normalize.tokens_eq.symm
      _ = p.bracketed.tokens := by rw [hagain]
      _ = a.normalized := hbracketed.tokens_eq
  · obtain ⟨b, hb, hshows'⟩ := hp.analyze_join hfinished hlegal
    -- the simplified tokens are those of the phrase, up to their places
    have hsimplified := hshows'.simplified
    rw [hp.tokens_eq] at hsimplified
    exact ⟨b, hb, join_eq_of_map_bare hsimplified "", hshows.agree hshows' rfl⟩
  · obtain ⟨b, hb, hshows'⟩ := hbracketed.analyze_join hfinished.bracketed hlegal.bracketed
    -- the normalized tokens are those of the bracketed phrase
    have hsimplified := hshows'.simplified
    rw [hbracketed.tokens_eq] at hsimplified
    exact ⟨b, hb, join_eq_of_map_bare hsimplified "", hshows.agree hshows' hagain⟩

/-- The analysis of `x-0-y-z^1/u/v`, where simplification brings two chains together. -/
theorem analyze_stable_chains :
    ∃ a, analyze "x-0-y-z^1/u/v" = .ok a ∧ a.simplifiedText = "x-y-z/u/v" ∧
      Token.join a.normalized "" = "x-(y+z/(u*v))" ∧ a.rpnText = "x y z u v * / + -" ∧
      simplify a.normalized = .ok a.normalized ∧ normalize a.normalized = a.normalized ∧
      (∃ b, analyze a.simplifiedText = .ok b ∧ b.simplifiedText = a.simplifiedText ∧
        Token.join b.normalized "" = Token.join a.normalized "" ∧ b.rpnText = a.rpnText ∧
        b.tree = a.tree) ∧
      ∃ b, analyze (Token.join a.normalized "") = .ok b ∧
        b.simplifiedText = Token.join a.normalized "" ∧
        Token.join b.normalized "" = Token.join a.normalized "" ∧ b.rpnText = a.rpnText ∧
        b.tree = a.tree := by
  have htexts : (analyze "x-0-y-z^1/u/v").toOption.map (fun a =>
      (a.simplifiedText, Token.join a.normalized "", a.rpnText)) =
        some ("x-y-z/u/v", "x-(y+z/(u*v))", "x y z u v * / + -") := by
    decide +kernel
  cases hrun : analyze "x-0-y-z^1/u/v" with
  | error => simp [hrun, Except.toOption] at htexts
  | ok a =>
    obtain ⟨hsimplified, hnormalized, hrpn⟩ : a.simplifiedText = "x-y-z/u/v" ∧
        Token.join a.normalized "" = "x-(y+z/(u*v))" ∧ a.rpnText = "x y z u v * / + -" := by
      simpa [hrun, Except.toOption] using htexts
    exact ⟨a, rfl, hsimplified, hnormalized, hrpn, analyze_stable hrun⟩

end Formula
