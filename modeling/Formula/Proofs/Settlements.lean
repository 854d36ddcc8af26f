import Formula.Journal
import Formula.Proofs.Passes

/-!
# Every tier that is settled

Putting a formula together settles tiers on many levels: on that of the formula, between all pairs
of brackets, and between the brackets that chains are given. `Settlement.ofGroup` lists these
settlements in their order, each with the items that it starts from. They are those of putting the
formula together: on every level the last one leaves what the level is put together to
(`Settlement.ofGroup_endWith`, and for the levels within `Settlement.ofInside_endWith` and
`Settlement.ofSegment_endWith`). They are also what the journal reports (`filter_group`).

Without signs in leading position all of these levels are alike: operands and operators take turns
(`Item.Alternates`). Settling a tier keeps it so, and joining chains does, so it holds of every
level by induction over the nesting (`Settlement.alternates_ofGroup`), and each tier is settled as
quickly as the number of its operators allows (`Item.Alternates.quick`).

The main statement is `group_settles_quickly`.
-/

namespace Formula

open Item

/-! ### Settlements -/

/-- The layer whose operators make up a tier. -/
def Tier.layer : Tier → Nat
  | power => 3
  | product => 2
  | sum => 1

theorem Tier.ops_eq (tier : Tier) : tier.ops = layerOps tier.layer := by
  cases tier <;> rfl

/-- **A tier that is settled**, and the items of the level that it is settled on. -/
structure Settlement where
  tier : Tier
  items : List Item

namespace Settlement

/-- How many passes it takes. -/
def passes (s : Settlement) : Nat :=
  Item.passes s.tier.ops s.items

/-- The level that it leaves. -/
def result (s : Settlement) : List Item :=
  settle s.tier.ops s.items

/-- What the journal says about it. -/
def event (s : Settlement) : Event :=
  .settled s.tier s.passes

/-- The operators of the tier that stand on the level. -/
def operators (s : Settlement) : List Token :=
  (Item.operators s.items).filter fun t => t.isOperatorIn s.tier.ops

/-- **A tier that settles quickly.** Without operators a single pass is made, and otherwise no more
than the number of operators can be halved, and two. There are as many if the operators stand next
to each other and are all `+` or all `*`. None of them is left. -/
structure Quick (s : Settlement) : Prop where
  idle : s.operators = [] → s.passes = 1
  passes_le : s.operators ≠ [] → s.passes ≤ Nat.log 2 s.operators.length + 2
  passes_eq : s.operators ≠ [] → s.operators <:+: Item.operators s.items →
    (∃ op ∈ ["+", "*"], ∀ o ∈ s.operators, o.isOperator op) →
    s.passes = Nat.log 2 s.operators.length + 2
  finished : ∀ x ∈ s.result, ¬ x.isOperatorIn s.tier.ops

end Settlement

/-- The items of a row are its operands and its operators. -/
theorem Item.forall_mem_row {P : Item → Prop} {x : Item} {links : Tail Item} (hx : P x)
    (hlinks : ∀ link ∈ links, P (token link.1) ∧ P link.2) : ∀ y ∈ row (some x) links, P y := by
  intro y hy
  rw [row_some, List.mem_cons, row, Option.toList_none, List.nil_append, List.mem_flatMap] at hy
  rcases hy with rfl | ⟨link, hlink, hy⟩
  · exact hx
  · rcases (by simpa using hy : y = token link.1 ∨ y = link.2) with rfl | rfl
    · exact (hlinks link hlink).1
    · exact (hlinks link hlink).2

namespace Item.Alternates

/-- **A level without signs** is settled quickly, and has no signs then either. -/
theorem quick {items : List Item} (h : Alternates items) (tier : Tier) :
    (Settlement.mk tier items).Quick ∧ Alternates (settle tier.ops items) := by
  cases h with
  | nil =>
    -- an empty level is settled by a single pass, and has no operators to count
    have hsettle : settle tier.ops [] = [] := settle_nil
    refine ⟨⟨fun _ => passes_nil, fun hne => absurd rfl hne, fun hne => absurd rfl hne, ?_⟩, ?_⟩
    · simp [Settlement.result, hsettle]
    · rw [hsettle]
      exact .nil
  | @turns x links hx hlinks =>
    -- settling leaves operands behind operators of other tiers only
    have hruns := hlinks.inRuns hx tier.layer
    obtain ⟨z, rest, hsettle, hz, hrest, hnone⟩ := hruns.exists_settle
    have hle := hruns.passes_le
    rw [← tier.ops_eq] at hsettle hle
    -- so the operators that count are those of the layer that the tier stands for
    have hoperators : (Settlement.mk tier (row (some x) links)).operators =
        operatorsAt tier.layer links := by
      rw [Settlement.operators, operators_row hx hlinks, tier.ops_eq]
      rfl
    refine ⟨⟨fun hnil => ?_, fun hne => ?_, fun hne hadjacent hop => ?_, ?_⟩, ?_⟩
    · -- without operators the bound on the passes is one
      rw [← hoperators, hnil] at hle
      exact hle.antisymm (one_le_passes _ _)
    · rwa [← hoperators, passBound, if_neg (by simpa using hne)] at hle
    · -- operators side by side that pair up freely need as many passes as the bound allows
      obtain ⟨op, hop, hall⟩ := hop
      rw [hoperators] at hne hall hadjacent ⊢
      rw [operators_row hx hlinks] at hadjacent
      rw [Settlement.passes, tier.ops_eq]
      refine passes_eq_of_infix hx hlinks hne hadjacent fun o ho => ?_
      rw [Token.isOperatorIn_of_isOperator (hall o ho)]
      exact List.contains_iff_mem.2 hop
    · -- none of the operators left is of the tier, and an operand is no operator
      rw [Settlement.result, hsettle]
      refine forall_mem_row (by simp [not_isOperatorIn_of_isOperandOrGroup hz]) fun link hlink => ?_
      refine ⟨?_, by simp [not_isOperatorIn_of_isOperandOrGroup (hrest link hlink).2]⟩
      rw [tier.ops_eq]
      exact hnone link hlink
    · rw [hsettle]
      exact .turns hz hrest

end Item.Alternates

/-! ### The settlements of a formula -/

namespace Settlement

/-- Settling the tiers of a level one after the other. -/
def ofTiers (items : List Item) : List Settlement :=
  let powers := settle Tier.power.ops items
  let products := settle Tier.product.ops powers
  [⟨.power, items⟩, ⟨.product, powers⟩, ⟨.sum, products⟩]

/-- Settling what a chain holds. -/
def ofSegment (joiner : String) : Segment → List Settlement
  | .single _ => []
  | .chain c => ofTiers (c.joined joiner)

/-- Settling what the chains of a level hold. -/
def ofChains (op joiner : String) (items : List Item) : List Settlement :=
  (segments op items).flatMap (ofSegment joiner)

/-- Putting one level together. -/
def ofLevel (items : List Item) : List Settlement :=
  let powers := settle Tier.power.ops items
  let quotients := joinChains "/" "*" powers
  let products := settle Tier.product.ops quotients
  let differences := joinChains "-" "+" products
  ⟨.power, items⟩ :: ofChains "/" "*" powers ++
    ⟨.product, quotients⟩ :: ofChains "-" "+" products ++ [⟨.sum, differences⟩]

mutual

/-- Putting together what a group holds, the inner groups first. -/
def ofInside : Item → List Settlement
  | .token _ => []
  | .group _ items => ofEach items ++ ofLevel (arrangeEach items)

/-- Putting together what each of the groups holds. -/
def ofEach : List Item → List Settlement
  | [] => []
  | item :: items => ofInside item ++ ofEach items

end

theorem ofEach_append (xs ys : List Item) : ofEach (xs ++ ys) = ofEach xs ++ ofEach ys := by
  induction xs with
  | nil => rw [ofEach, List.nil_append, List.nil_append]
  | cons x xs ih => rw [List.cons_append, ofEach, ofEach, ih, List.append_assoc]

/-- **The settlements of a formula**, in the order in which they come about. -/
def ofGroup (tokens : List Token) : List Settlement :=
  ofEach (nest tokens) ++ ofLevel (arrangeEach (nest tokens))

/-! #### What they leave -/

/-- The last of the settlements leaves these items. -/
def EndWith (settlements : List Settlement) (items : List Item) : Prop :=
  settlements.getLast?.map result = some items

theorem EndWith.append {later : List Settlement} {items : List Item} (h : EndWith later items)
    (earlier : List Settlement) : EndWith (earlier ++ later) items := by
  obtain ⟨s, hs, hresult⟩ := Option.map_eq_some_iff.1 h
  rw [EndWith, List.getLast?_append, hs, Option.some_or, Option.map_some, hresult]

theorem ofTiers_endWith (items : List Item) : EndWith (ofTiers items) (settleTiers items) := rfl

/-- What the settlements of a chain leave stands in the brackets that take its place. -/
theorem ofSegment_endWith (joiner : String) (c : Chain) :
    ∃ items, EndWith (ofSegment joiner (.chain c)) items ∧
      (Segment.chain c).items joiner =
        [token c.operator, bracketed c.operator.position items] :=
  ⟨_, ofTiers_endWith _, rfl⟩

/-- **The settlements of a level** end with the level put together. -/
theorem ofLevel_endWith (items : List Item) : EndWith (ofLevel items) (arrange items) := by
  let products := settle Tier.product.ops (joinChains "/" "*" (settle Tier.power.ops items))
  have hlast : EndWith [⟨.sum, joinChains "-" "+" products⟩] (arrange items) := rfl
  exact hlast.append _

/-- What the settlements inside a group leave is what the group holds in the end. -/
theorem ofInside_endWith (b : Bounds) (items : List Item) :
    ∃ items', EndWith (ofInside (.group b items)) items' ∧
      arrangeInside (.group b items) = .group b items' := by
  refine ⟨arrange (arrangeEach items), ?_, by rw [arrangeInside]⟩
  rw [ofInside]
  exact (ofLevel_endWith _).append _

/-- **The settlements of a formula** end with its items. -/
theorem ofGroup_endWith (tokens : List Token) : EndWith (ofGroup tokens) (group tokens) :=
  (ofLevel_endWith _).append _

end Settlement

/-- A report about a tier. -/
def Event.isSettled : Event → Bool
  | settled _ _ => true
  | _ => false

namespace Journal

open Settlement

theorem filter_settleTiers (items : List Item) :
    (settleTiers items).filter Event.isSettled = (ofTiers items).map Settlement.event := rfl

theorem filter_joinChains (op joiner : String) (items : List Item) :
    (joinChains op joiner items).filter Event.isSettled =
      (ofChains op joiner items).map Settlement.event := by
  have hchain (segment : Segment) : (chain op joiner segment).filter Event.isSettled =
      (ofSegment joiner segment).map Settlement.event := by
    cases segment with
    | single => rfl
    | chain c => exact filter_settleTiers _
  rw [joinChains, ofChains, List.filter_flatMap, List.map_flatMap]
  exact congrArg (List.flatMap · _) (funext hchain)

theorem filter_arrange (items : List Item) :
    (arrange items).filter Event.isSettled = (ofLevel items).map Settlement.event := by
  simp only [arrange, ofLevel, List.filter_append, List.filter_cons, filter_joinChains,
    List.map_append, List.map_cons]
  rfl

mutual

theorem filter_arrangeInside (item : Item) :
    (arrangeInside item).filter Event.isSettled = (ofInside item).map Settlement.event := by
  cases item with
  | token t => rw [arrangeInside, ofInside, List.filter_nil, List.map_nil]
  | group b items =>
    rw [arrangeInside, ofInside, List.filter_append, List.map_append, filter_arrangeEach items,
      filter_arrange]

theorem filter_arrangeEach (items : List Item) :
    (arrangeEach items).filter Event.isSettled = (ofEach items).map Settlement.event := by
  cases items with
  | nil => rw [arrangeEach, ofEach, List.filter_nil, List.map_nil]
  | cons item items =>
    rw [arrangeEach, ofEach, List.filter_append, List.map_append, filter_arrangeInside item,
      filter_arrangeEach items]

end

/-- **What the journal reports** about tiers are the settlements. -/
theorem filter_group (tokens : List Token) :
    (group tokens).filter Event.isSettled = (ofGroup tokens).map Settlement.event := by
  simp only [group, ofGroup, List.filter_append, filter_arrangeEach, filter_arrange,
    List.map_append]
  simp [Event.isSettled]

end Journal

/-! ### Every level takes turns -/

namespace Item

variable {κ : Chaining} {items : List Item} {links : Tail Item}

theorem Alternates.ofTiers (h : Alternates items) :
    ∀ s ∈ Settlement.ofTiers items, Alternates s.items := by
  have hpowers := (h.quick .power).2
  have hproducts := (hpowers.quick .product).2
  simp only [Settlement.ofTiers, List.forall_mem_cons]
  exact ⟨h, hpowers, hproducts, by simp⟩

theorem TakeTurns.rejoin (h : TakeTurns links) (κ : Chaining) : TakeTurns (κ.rejoin links) := by
  refine List.forall_mem_map.2 fun link hlink => ⟨?_, (h link hlink).2⟩
  exact Token.kind_of_joins (κ.joins_join link.1)

/-- What a run of operators of a chain becomes is an operator and an operand. -/
theorem TakeTurns.closedLinks (h : TakeTurns links) : TakeTurns (closedLinks κ links) := by
  rcases links with _ | ⟨⟨o, x⟩, links⟩
  · exact h
  · obtain ⟨⟨ho, hx⟩, -⟩ := List.forall_mem_cons.1 h
    refine List.forall_mem_singleton.2 ⟨ho, ?_⟩
    cases links with
    | nil => exact hx
    | cons link links => rfl

/-- Between the brackets of a chain operands and operators take turns. -/
theorem TakeTurns.alternates_segmentsOfRun (h : TakeTurns links) :
    ∀ s ∈ (segmentsOfRun links).flatMap (Settlement.ofSegment κ.joiner), Alternates s.items := by
  rcases links with _ | ⟨⟨o, x⟩, _ | ⟨link, links⟩⟩
  · simp [segmentsOfRun]
  · simp [segmentsOfRun, Settlement.ofSegment]
  · obtain ⟨⟨-, hx⟩, hlinks⟩ := List.forall_mem_cons.1 h
    have hrow : Alternates (row (some x) (κ.rejoin (link :: links))) :=
      .turns hx (TakeTurns.rejoin hlinks κ)
    rw [segmentsOfRun, List.flatMap_singleton, Settlement.ofSegment, joined_eq_row]
    · exact hrow.ofTiers
    · simp

/-- A run of links for an operator, and what is behind it. -/
theorem exists_run_append (op : String) (links : Tail Item) :
    ∃ run rest, links = run ++ rest ∧ (∀ link ∈ run, link.1.isOperator op) ∧
      ∀ link ∈ rest.head?, ¬ link.1.isOperator op := by
  induction links with
  | nil => exact ⟨[], [], rfl, by simp, by simp⟩
  | cons link links ih =>
    by_cases hop : link.1.isOperator op
    · obtain ⟨run, rest, rfl, hrun, hrest⟩ := ih
      exact ⟨link :: run, rest, rfl, List.forall_mem_cons.2 ⟨hop, hrun⟩, hrest⟩
    · exact ⟨[], link :: links, rfl, by simp, by simpa using hop⟩

/-- **Joining chains** lets operands and operators take turns, between the brackets and around
them. -/
theorem TakeTurns.exists_joinChains (h : TakeTurns links) (κ : Chaining) :
    ∃ links', joinChains κ.op κ.joiner (row none links) = row none links' ∧ TakeTurns links' ∧
      ∀ s ∈ Settlement.ofChains κ.op κ.joiner (row none links), Alternates s.items := by
  induction hlength : links.length using Nat.strong_induction_on generalizing links with
  | _ n ih =>
  subst hlength
  rcases links with _ | ⟨⟨o, x⟩, links⟩
  · exact ⟨[], by simp [joinChains, segments], h, by simp [Settlement.ofChains, segments]⟩
  obtain ⟨⟨ho, hx⟩, hlinks⟩ := List.forall_mem_cons.1 h
  by_cases hop : o.isOperator κ.op
  · -- the run that starts here, and then what is behind it
    obtain ⟨run, rest, rfl, hrun, hrest⟩ := exists_run_append κ.op links
    obtain ⟨hturns, hturns'⟩ := List.forall_mem_append.1 hlinks
    have hall : TakeTurns ((o, x) :: run) := List.forall_mem_cons.2 ⟨⟨ho, hx⟩, hturns⟩
    have hops : ∀ link ∈ (o, x) :: run, link.1.isOperator κ.op :=
      List.forall_mem_cons.2 ⟨hop, hrun⟩
    -- the run is put into brackets, and what is behind it is shorter
    have hshorter : rest.length < ((o, x) :: (run ++ rest)).length := by
      rw [List.length_cons, List.length_append]
      omega
    obtain ⟨links', hjoin, hlinks', hchains⟩ := ih _ hshorter hturns' rfl
    refine ⟨Item.closedLinks κ ((o, x) :: run) ++ links', ?_,
      List.forall_mem_append.2 ⟨hall.closedLinks, hlinks'⟩, ?_⟩
    · rw [row_append none (Item.closedLinks κ _), ← hjoin, ← List.cons_append]
      exact joinChains_run (fun link hlink => ⟨hops link hlink, (hall link hlink).2⟩) hrest
    · rw [Settlement.ofChains, ← List.cons_append, segments_run hops hrest, List.flatMap_append]
      exact List.forall_mem_append.2 ⟨hall.alternates_segmentsOfRun, hchains⟩
  · -- another operator, and the operand behind it
    obtain ⟨links', hjoin, hlinks', hchains⟩ := ih _ (by simp) hlinks rfl
    refine ⟨(o, x) :: links', ?_, List.forall_mem_cons.2 ⟨⟨ho, hx⟩, hlinks'⟩, ?_⟩
    · rw [joinChains_of_not hop, row_some, joinChains_operand hx, hjoin]
      rfl
    · rw [Settlement.ofChains, segments_of_not hop, row_some, segments_operand hx]
      simpa [Settlement.ofChains, Settlement.ofSegment] using hchains

/-- Joining the chains of a level without signs. -/
theorem Alternates.joinChains (h : Alternates items) (κ : Chaining) :
    Alternates (joinChains κ.op κ.joiner items) ∧
      ∀ s ∈ Settlement.ofChains κ.op κ.joiner items, Alternates s.items := by
  cases h with
  | nil => exact ⟨by simpa [Item.joinChains, segments] using .nil,
      by simp [Settlement.ofChains, segments]⟩
  | @turns x links hx hlinks =>
    obtain ⟨links', hjoin, hlinks', hchains⟩ := hlinks.exists_joinChains κ
    refine ⟨?_, ?_⟩
    · rw [row_some, joinChains_operand hx, hjoin]
      exact .turns hx hlinks'
    · rw [Settlement.ofChains, row_some, segments_operand hx]
      simpa [Settlement.ofChains, Settlement.ofSegment] using hchains

/-- **A level is put together** by settlements of levels without signs, and what is left of it has
no signs either. -/
theorem Alternates.ofLevel (h : Alternates items) :
    ∀ s ∈ Settlement.ofLevel items, Alternates s.items := by
  have hpowers := (h.quick .power).2
  obtain ⟨hquotients, hdivisions⟩ := hpowers.joinChains .division
  have hproducts := (hquotients.quick .product).2
  obtain ⟨hdifferences, hsubtractions⟩ := hproducts.joinChains .subtraction
  simp only [Settlement.ofLevel, List.forall_mem_cons, List.forall_mem_append, List.cons_append]
  exact ⟨h, ⟨hdivisions, hquotients, hsubtractions⟩, hdifferences, by simp⟩

/-! ### All levels of a formula -/

/-- **Nested items without signs**: on every level operands and operators take turns. -/
inductive TurnsThroughout : List Item → Prop
  | operand {t : Token} (ht : t.isOperand) : TurnsThroughout [token t]
  | group {b : Bounds} {items : List Item} (h : TurnsThroughout items) :
      TurnsThroughout [.group b items]
  | operator {xs ys : List Item} {o : Token} (hxs : TurnsThroughout xs) (ho : o.kind = .operator)
      (hys : TurnsThroughout ys) : TurnsThroughout (xs ++ token o :: ys)

namespace TurnsThroughout

/-- The outermost level, when the groups on it are put together. -/
theorem exists_row (h : TurnsThroughout items) :
    ∃ x links, arrangeEach items = row (some x) links ∧ x.isOperandOrGroup ∧ TakeTurns links := by
  induction h with
  | @operand t ht => exact ⟨token t, [], rfl, ht, by simp [TakeTurns]⟩
  | @group b items _ _ => exact ⟨.group b (arrange (arrangeEach items)), [], rfl, rfl,
      by simp [TakeTurns]⟩
  | @operator xs ys o _ ho _ ihxs ihys =>
    obtain ⟨x, links, hxs, hx, hlinks⟩ := ihxs
    obtain ⟨y, links', hys, hy, hlinks'⟩ := ihys
    refine ⟨x, links ++ (o, y) :: links', ?_, hx,
      List.forall_mem_append.2 ⟨hlinks, List.forall_mem_cons.2 ⟨⟨ho, hy⟩, hlinks'⟩⟩⟩
    rw [arrangeEach_append, hxs, arrangeEach, hys, arrangeInside, row_append_cons]

theorem alternates (h : TurnsThroughout items) : Alternates (arrangeEach items) := by
  obtain ⟨x, links, heq, hx, hlinks⟩ := h.exists_row
  rw [heq]
  exact .turns hx hlinks

/-- **The levels within** take turns as well. -/
theorem ofEach (h : TurnsThroughout items) :
    ∀ s ∈ Settlement.ofEach items, Alternates s.items := by
  induction h with
  | operand _ => simp [Settlement.ofEach, Settlement.ofInside]
  | @group b items h ih =>
    simp only [Settlement.ofEach, Settlement.ofInside, List.append_nil, List.forall_mem_append]
    exact ⟨ih, h.alternates.ofLevel⟩
  | @operator xs ys o _ _ _ ihxs ihys =>
    rw [Settlement.ofEach_append, Settlement.ofEach, Settlement.ofInside, List.nil_append]
    exact List.forall_mem_append.2 ⟨ihxs, ihys⟩

end TurnsThroughout

end Item

/-- **The nested items of a phrase** without signs. -/
theorem Phrase.Binds.exists_turnsThroughout {p : Phrase} {n : Nat} (h : p.Binds n)
    (hsigns : p.signs = 0) :
    ∃ items, TurnsThroughout items ∧ ∀ rest, nest (p.tokens ++ rest) = items ++ nest rest := by
  induction h with
  | @operand t n ht =>
    exact ⟨[.token t], .operand ht, fun rest => nest_of_token (region?_eq_none (.inl ht) rest)⟩
  | @region b p n hb hp ih =>
    -- what is in the brackets becomes the contents of one group
    obtain ⟨items, hturns, hnest⟩ := ih hsigns
    refine ⟨[.group b items], .group hturns, fun rest => ?_⟩
    rw [Phrase.tokens, nest_of_written hb hp.balanced, nest_eq_of_forall hnest]
    rfl
  | signed => simp [Phrase.signs] at hsigns
  | @binary l r o n k hnk hl ho hr ihl ihr =>
    obtain ⟨hsigns₁, hsigns₂⟩ := Nat.add_eq_zero_iff.1 hsigns
    obtain ⟨items₁, hturns₁, hnest₁⟩ := ihl hsigns₁
    obtain ⟨items₂, hturns₂, hnest₂⟩ := ihr hsigns₂
    -- the operator stands alone between what its operands become
    refine ⟨items₁ ++ .token o :: items₂, .operator hturns₁ (Token.kind_of_joins ho) hturns₂,
      fun rest => ?_⟩
    have htoken := nest_of_token (region?_eq_none (.inr (Token.kind_of_joins ho))
      (r.tokens ++ rest))
    rw [Phrase.tokens, List.append_assoc, hnest₁, List.cons_append, htoken, hnest₂,
      List.append_assoc, List.cons_append]

/-- **Every level of a formula without signs** takes turns when a tier is settled on it. -/
theorem Settlement.alternates_ofGroup {ts : List Token} (hvalid : validate ts = [])
    (harith : Arithmetic ts) (hsigns : leadingSigns true ts = 0) :
    ∀ s ∈ ofGroup ts, Alternates s.items := by
  by_cases hne : ts = []
  · -- no tokens are a level without items
    subst hne
    have hempty : ofEach (nest []) ++ ofLevel (arrangeEach (nest [])) = ofLevel [] := by
      rw [nest_nil, ofEach, arrangeEach, List.nil_append]
    rw [ofGroup, hempty]
    exact Alternates.nil.ofLevel
  obtain ⟨p, hp⟩ := exists_reads hne hvalid harith
  rw [hp.leadingSigns_eq] at hsigns
  obtain ⟨items, hturns, hnest⟩ := hp.binds.exists_turnsThroughout hsigns
  -- nothing is behind the formula, so its items are all there are
  have hitems : nest ts = items := by
    rw [← hp.tokens_eq]
    exact nest_eq_of_forall hnest
  rw [ofGroup, hitems]
  exact List.forall_mem_append.2 ⟨hturns.ofEach, hturns.alternates.ofLevel⟩

/-- **Regrouping settles quickly.** On any list of items a tier is settled by a number of passes, at
most one more than half of the number of items. On every level of an accepted formula without signs
in leading position a tier takes no more passes than its operators on the level call for: a single
one if there are none, and otherwise no more than their number can be halved, and two. There are as
many if they stand next to each other and are all `+` or all `*`. None of them is left. The numbers
of passes are those that the journal reports. -/
theorem group_settles_quickly :
    (∀ (ops : List String) (items : List Item), passes ops items ≤ items.length / 2 + 1 ∧
      settle ops items = (pass ops)^[passes ops items] items) ∧
    ∀ ts : List Token, validate ts = [] → Arithmetic ts → leadingSigns true ts = 0 →
      (Journal.group ts).filter Event.isSettled = (Settlement.ofGroup ts).map Settlement.event ∧
      ∀ s ∈ Settlement.ofGroup ts, s.Quick := by
  refine ⟨fun ops items => ⟨passes_le ops items, settle_eq_iterate ops items⟩,
    fun ts hvalid harith hsigns => ⟨Journal.filter_group ts, fun s hs => ?_⟩⟩
  exact ((Settlement.alternates_ofGroup hvalid harith hsigns s hs).quick s.tier).1

/-- In `(a+b+c+d)*e` the three additions are settled by three passes. -/
theorem group_settles_quickly_sum :
    let ts := (tokenize "(a+b+c+d)*e").tokens
    validate ts = [] ∧ Arithmetic ts ∧ leadingSigns true ts = 0 ∧
      ∃ s ∈ Settlement.ofGroup ts, s.tier = .sum ∧ s.operators.length = 3 ∧ s.passes = 3 ∧
        ∀ x ∈ s.result, ¬ x.isOperatorIn ["+", "-"] := by
  have hvalid : validate (tokenize "(a+b+c+d)*e").tokens = [] := by decide +kernel
  have harith : Arithmetic (tokenize "(a+b+c+d)*e").tokens := by decide +kernel
  have hsigns : leadingSigns true (tokenize "(a+b+c+d)*e").tokens = 0 := by decide +kernel
  -- the three additions in the brackets are the third settlement
  obtain ⟨-, hquick⟩ := group_settles_quickly.2 _ hvalid harith hsigns
  let s := (Settlement.ofGroup (tokenize "(a+b+c+d)*e").tokens).get ⟨2, by decide +kernel⟩
  have htier : s.tier = .sum := by decide +kernel
  have hlength : s.operators.length = 3 := by decide +kernel
  have hplus : ∀ o ∈ s.operators, o.isOperator "+" := by decide +kernel
  obtain ⟨-, -, hpasses, hfinished⟩ := hquick s (List.get_mem _ _)
  have heq := hpasses (by decide +kernel) (by decide +kernel) ⟨"+", by simp, hplus⟩
  rw [hlength] at heq
  rw [htier] at hfinished
  exact ⟨hvalid, harith, hsigns, s, List.get_mem _ _, htier, hlength, heq, hfinished⟩

end Formula
