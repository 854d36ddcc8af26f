import Formula.Bracket
import Formula.Chain

/-!
# Nesting

Putting the tokens of a formula together. First every bracketed region, with the function name in
front of it if there is one, becomes a group whose contents are put together likewise (`nest`). Then
each level is arranged, the inner levels before the ones that hold them: the tiers of operators are
settled from `^` on, and the chains of division and of subtraction are replaced just before the tier
that they belong to.

A bracket without a partner, and a function name without a bracket behind it, stay as they are.
-/

namespace Formula

/-- A bracketed region at the front of a token list. -/
structure Region where
  bounds : Bounds
  contents : List Token
  /-- The tokens behind the region. -/
  rest : List Token
  deriving Repr

/-- What the pair holds whose opening bracket stands in front of the tokens: the tokens up to its
closing bracket, that bracket, and the tokens behind it. -/
def splitAtClose (tokens : List Token) : Option (List Token × Token × List Token) :=
  match bracketSpan .rightward 1 tokens with
  | none => none
  | some n =>
    match tokens.drop (n - 1) with
    | [] => none
    | closing :: rest => some (tokens.take (n - 1), closing, rest)

theorem eq_append_of_splitAtClose {tokens contents rest : List Token} {closing : Token}
    (h : splitAtClose tokens = some (contents, closing, rest)) :
    tokens = contents ++ closing :: rest := by
  unfold splitAtClose at h
  split at h
  case h_1 => simp at h
  case h_2 n _ =>
    split at h
    case h_1 => simp at h
    case h_2 closing' rest' hdrop =>
      simp only [Option.some.injEq, Prod.mk.injEq] at h
      obtain ⟨rfl, rfl, rfl⟩ := h
      rw [← hdrop, List.take_append_drop]

/-- The bracketed region or the call that starts a token list. -/
def region? : List Token → Option Region
  | [] => none
  | first :: tokens =>
    match first.kind, tokens with
    | .openBracket, tokens =>
      (splitAtClose tokens).map fun (contents, closing, rest) =>
        ⟨.brackets first closing, contents, rest⟩
    | .function, opening :: tokens =>
      if opening.isOpen then
        (splitAtClose tokens).map fun (contents, closing, rest) =>
          ⟨.call first opening closing, contents, rest⟩
      else none
    | _, _ => none

/-- A region is the tokens that it starts with: its bounds around its contents. -/
theorem eq_append_of_region? {tokens : List Token} {region : Region}
    (h : region? tokens = some region) :
    tokens = region.bounds.front ++ region.contents ++ region.bounds.back ++ region.rest := by
  unfold region? at h
  split at h
  case h_1 => simp at h
  case h_2 first tokens =>
    split at h
    case h_1 =>
      -- brackets alone
      obtain ⟨⟨contents, closing, rest⟩, hsplit, rfl⟩ := Option.map_eq_some_iff.1 h
      simp [Bounds.front, Bounds.back, eq_append_of_splitAtClose hsplit]
    case h_2 opening tokens _ =>
      split at h
      case isTrue =>
        -- a name and its brackets
        obtain ⟨⟨contents, closing, rest⟩, hsplit, rfl⟩ := Option.map_eq_some_iff.1 h
        simp [Bounds.front, Bounds.back, eq_append_of_splitAtClose hsplit]
      case isFalse => simp at h
    case h_3 => simp at h

/-- A region takes at least a bracket at either end. -/
theorem length_region? {tokens : List Token} {region : Region} (h : region? tokens = some region) :
    region.contents.length < tokens.length ∧ region.rest.length < tokens.length := by
  have hlength := congrArg List.length (eq_append_of_region? h)
  -- each kind of region is closed by one bracket
  have hback : 0 < region.bounds.back.length := by
    unfold region? at h
    split at h
    case h_1 => simp at h
    case h_2 =>
      split at h
      case h_2 =>
        split at h
        case isTrue =>
          obtain ⟨_, _, rfl⟩ := Option.map_eq_some_iff.1 h
          simp [Bounds.back]
        case isFalse => simp at h
      case h_1 =>
        obtain ⟨_, _, rfl⟩ := Option.map_eq_some_iff.1 h
        simp [Bounds.back]
      case h_3 => simp at h
  simp only [List.length_append] at hlength
  omega

/-- Makes a group of every bracketed region and every call, on all levels. -/
def nest (tokens : List Token) : List Item :=
  match _h : region? tokens with
  | some region => .group region.bounds (nest region.contents) :: nest region.rest
  | none =>
    match tokens with
    | [] => []
    | t :: tokens => .token t :: nest tokens
termination_by tokens.length
decreasing_by
  · exact (length_region? _h).1
  · exact (length_region? _h).2
  · simp

namespace Item

/-- Puts the items of one level together. -/
def arrange (items : List Item) : List Item :=
  let powers := settle Tier.power.ops items
  let products := settle Tier.product.ops (joinChains "/" "*" powers)
  settle Tier.sum.ops (joinChains "-" "+" products)

mutual

/-- Puts together what a group holds, the inner groups first. -/
def arrangeInside : Item → Item
  | token t => token t
  | group bounds items => group bounds (arrange (arrangeEach items))

/-- Puts together what each of the groups holds. -/
def arrangeEach : List Item → List Item
  | [] => []
  | item :: items => item.arrangeInside :: arrangeEach items

end

end Item

/-- The items of a formula: everything that belongs together is in one group. -/
def group (tokens : List Token) : List Item :=
  Item.arrange (Item.arrangeEach (nest tokens))

end Formula
