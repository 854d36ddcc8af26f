import Formula.Analysis

/-!
# The journal

What each stage of the analysis has to say about its work. An `Event` is one thing that happened,
with what is worth knowing about it; `Event.level` tells how important it is and `Event.message`
puts it into words. The functions in `Journal` give the events of each stage on a given input, in
the order in which they happen. They only look at the work: a stage gives the same result whether
or not anyone reads its journal.
-/

namespace Formula

/-- How important an event is. -/
inductive Level where
  /-- The outcome of a stage. -/
  | debug
  /-- A single step within a stage. -/
  | trace
  deriving DecidableEq, Repr

/-- Something that happens in the course of an analysis. -/
inductive Event where
  | lexed (tokens errors : Nat)
  | validated (tokens errors : Nat)
  | rejected (errors : Nat)
  /-- A rule was applied to the tokens from `start` on and in front of `stop`. -/
  | edited (rule : Rule) (start stop : Nat)
  | simplified (tokens : Nat)
  | divisionByZero (error : DivisionByZero)
  | settled (tier : Tier) (passes : Nat)
  /-- A chain of `operands` items behind the operator `op` was replaced. -/
  | chained (operands : Nat) (op : String) (position : Nat)
  | grouped (tokens items : Nat)
  | ordered (rpn : List Token)
  | simplifiedText (tokens : List Token)
  | normalizedText (tokens : List Token)
  deriving DecidableEq, Repr

namespace Event

def level : Event → Level
  | edited _ _ _ | settled _ _ | chained _ _ _ => .trace
  | _ => .debug

/-- The operators of a tier as a list in square brackets, each in quotes. -/
def opsText (tier : Tier) : String :=
  "[" ++ ", ".intercalate (tier.ops.map fun op => "\"" ++ op ++ "\"") ++ "]"

def message : Event → String
  | lexed tokens errors =>
    "lexed " ++ toString tokens ++ " tokens, " ++ toString errors ++ " lexical errors"
  | validated tokens errors =>
    "validated " ++ toString tokens ++ " tokens, " ++ toString errors ++ " syntax errors"
  | rejected errors => "rejected with " ++ toString errors ++ " errors"
  | edited rule start stop => rule.name ++ " at " ++ toString start ++ ".." ++ toString stop
  | simplified tokens => "simplified to " ++ toString tokens ++ " tokens"
  | divisionByZero error => error.message
  | settled tier passes =>
    "tier " ++ opsText tier ++ " settled after " ++ toString passes ++ " passes"
  | chained operands op position =>
    "normalizing " ++ toString operands ++ " chained '" ++ op ++ "' at " ++ toString position
  | grouped tokens items =>
    "grouped " ++ toString tokens ++ " tokens into " ++ toString items ++ " items"
  | ordered rpn => "postfix: " ++ Token.join rpn " "
  | simplifiedText tokens => "simplified: " ++ Token.join tokens ""
  | normalizedText tokens => "normalized: " ++ Token.join tokens ""

end Event

namespace Journal

/-- Reading a text. A text of blanks alone is not mentioned. -/
def tokenize (s : String) : List Event :=
  if Text.trim s.toList = [] then []
  else
    let lexing := Formula.tokenize s
    [.lexed lexing.tokens.length lexing.errors.length]

/-- Checking a token list. An empty one is not mentioned. -/
def validate (tokens : List Token) : List Event :=
  if tokens = [] then [] else [.validated tokens.length (Formula.validate tokens).length]

def diagnose (s : String) : List Event :=
  tokenize s ++ validate (Formula.tokenize s).tokens

/-- An edit at its place in the list that it was applied to. -/
def edited (step : Cursor × Edit) : Event :=
  let (start, stop) := step.1.span step.2
  .edited step.2.rule start stop

/-- Every edit of a run, and where the run ended. -/
def simplify (tokens : List Token) : List Event :=
  let run := Formula.run tokens
  run.edits.map edited ++
    match run.outcome with
    | .error error => [.divisionByZero error]
    | .ok simplified => [.simplified simplified.length]

/-- Settling one tier of a level. -/
def settle (tier : Tier) (items : List Item) : Event :=
  .settled tier (Item.passes tier.ops items)

/-- Settling the tiers of a level one after the other. -/
def settleTiers (items : List Item) : List Event :=
  let powers := Item.settle Tier.power.ops items
  let products := Item.settle Tier.product.ops powers
  [settle .power items, settle .product powers, settle .sum products]

/-- Replacing a chain, and then settling what it holds. -/
def chain (op joiner : String) : Segment → List Event
  | .single _ => []
  | .chain c =>
    .chained c.operands.length op c.operator.position :: settleTiers (c.joined joiner)

/-- Replacing the chains of a level. -/
def joinChains (op joiner : String) (items : List Item) : List Event :=
  (Item.segments op items).flatMap (chain op joiner)

/-- Putting one level together. -/
def arrange (items : List Item) : List Event :=
  let powers := Item.settle Tier.power.ops items
  let quotients := Item.joinChains "/" "*" powers
  let products := Item.settle Tier.product.ops quotients
  let differences := Item.joinChains "-" "+" products
  settle .power items :: joinChains "/" "*" powers ++
    settle .product quotients :: joinChains "-" "+" products ++ [settle .sum differences]

mutual

/-- Putting together what a group holds, the inner groups first. -/
def arrangeInside : Item → List Event
  | .token _ => []
  | .group _ items => arrangeEach items ++ arrange (Item.arrangeEach items)

/-- Putting together what each of the groups holds. -/
def arrangeEach : List Item → List Event
  | [] => []
  | item :: items => arrangeInside item ++ arrangeEach items

end

/-- Putting a formula together. -/
def group (tokens : List Token) : List Event :=
  let nested := nest tokens
  arrangeEach nested ++ arrange (Item.arrangeEach nested) ++
    [.grouped tokens.length (Formula.group tokens).length]

def toRpn (tokens : List Token) : List Event :=
  [.ordered (Formula.toRpn tokens)]

/-- The whole analysis, as far as it gets. -/
def analyze (s : String) : List Event :=
  let source := String.ofList (Text.trim s.toList)
  let (tokens, found) := Formula.diagnose source
  diagnose source ++
    if found.isEmpty then
      simplify tokens ++
        match Formula.simplify tokens with
        | .error _ => []
        | .ok simplified =>
          let normalized := normalize simplified
          .simplifiedText simplified :: group simplified ++
            .normalizedText normalized :: toRpn normalized
    else [.rejected found.size]

end Journal

end Formula
