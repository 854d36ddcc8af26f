import Formula.Proofs.Outcome

/-!
# Places and names do not matter

No stage of the analysis decides anything by where a token stands or by what a variable is called.
So if every token is given another place, and every variable another name, each stage does the same
to the changed tokens as to the given ones, on every token list. A `Relabelling` is such a change;
it acts on all that the stages handle (tokens, cursors, edits, items, chains), and each of the
functions that they consist of commutes with it.

Main statements, for a relabelling `m`:

* `Relabelling.simplify_map`: simplification commutes with `m`, and a division by zero is met at the
  changed place;
* `Relabelling.normalize_map`: so does putting brackets around chains;
* `Relabelling.toRpn_map`: and so does ordering in reverse Polish notation.
-/

namespace Formula

/-- Another place for every token, and another name for every variable. -/
structure Relabelling where
  place : Nat → Nat
  rename : String → String

namespace Relabelling

variable (m : Relabelling)

/-! ### Tokens -/

/-- The token at its new place, and with its new name if it is a variable. -/
def token (t : Token) : Token where
  kind := t.kind
  text := if t.kind = .variable then m.rename t.text else t.text
  position := m.place t.position

@[simp] theorem kind_token (t : Token) : (m.token t).kind = t.kind := rfl

@[simp] theorem position_token (t : Token) : (m.token t).position = m.place t.position := rfl

/-- Only variables change their texts. -/
theorem text_token {t : Token} (h : t.kind ≠ .variable) : (m.token t).text = t.text := if_neg h

@[simp] theorem isOpen_token (t : Token) : (m.token t).isOpen = t.isOpen := rfl

@[simp] theorem isClose_token (t : Token) : (m.token t).isClose = t.isClose := rfl

@[simp] theorem isOperand_token (t : Token) : (m.token t).isOperand = t.isOperand := rfl

/-- A question about the text of a token of one kind has the same answer, unless it is put to
variables. -/
theorem kind_and_text {kind : Kind} (hkind : kind ≠ .variable) (t : Token) (p : String → Bool) :
    (t.kind == kind && p (m.token t).text) = (t.kind == kind && p t.text) := by
  by_cases h : t.kind = kind
  · rw [m.text_token (h ▸ hkind)]
  · rw [beq_false_of_ne h, Bool.false_and, Bool.false_and]

@[simp] theorem isOperatorIn_token (t : Token) (ops : List String) :
    (m.token t).isOperatorIn ops = t.isOperatorIn ops :=
  m.kind_and_text (by decide) t ops.contains

@[simp] theorem isOperator_token (t : Token) (op : String) :
    (m.token t).isOperator op = t.isOperator op :=
  m.kind_and_text (by decide) t (· == op)

@[simp] theorem isSign_token (t : Token) : (m.token t).isSign = t.isSign :=
  m.isOperatorIn_token t _

@[simp] theorem isNumber_token (t : Token) (literal : String) :
    (m.token t).isNumber literal = t.isNumber literal :=
  m.kind_and_text (by decide) t (· == literal)

@[simp] theorem isPositiveLiteral_token (t : Token) :
    (m.token t).isPositiveLiteral = t.isPositiveLiteral :=
  m.kind_and_text (by decide) t fun text => text.toList.any fun c => c.isDigit && c != '0'

@[simp] theorem precedence_token (t : Token) : (m.token t).precedence = t.precedence := by
  by_cases h : t.kind = .operator
  · rw [Token.precedence, Token.precedence, m.text_token (by simp [h]), kind_token]
  · rw [Token.precedence, Token.precedence, kind_token]
    split <;> simp_all

/-- Tokens that are put in stand at the new place. -/
theorem token_mk {kind : Kind} (h : kind ≠ .variable) (text : String) (position : Nat) :
    m.token ⟨kind, text, position⟩ = ⟨kind, text, m.place position⟩ := by
  rw [token, if_neg h]

/-! ### Shifting -/

end Relabelling

/-- The token `d` bytes further on. -/
def Token.shift (d : Nat) (t : Token) : Token :=
  { t with position := t.position + d }

namespace Relabelling

/-- Everything `d` bytes further on. -/
def shift (d : Nat) : Relabelling :=
  ⟨(· + d), id⟩

theorem token_shift (d : Nat) : (shift d).token = Token.shift d := by
  funext t
  simp [token, shift, Token.shift]

variable (m : Relabelling)

/-! ### Scans -/

/-- A scan that counts the same tokens after a relabelling. -/
def Blind (scan : Scan) : Prop :=
  ∀ ts, scan (ts.map m.token) = scan ts

theorem bracketSpan_map (d : Direction) (depth : Nat) (ts : List Token) :
    bracketSpan d depth (ts.map m.token) = bracketSpan d depth ts := by
  induction ts generalizing depth with
  | nil => rfl
  | cons t ts ih =>
    have henters : d.enters (m.token t) = d.enters t := by cases d <;> rfl
    have hleaves : d.leaves (m.token t) = d.leaves t := by cases d <;> rfl
    simp only [List.map_cons, bracketSpan, henters, hleaves, ih]

variable {m}

theorem Blind.links {piece : Scan} (h : m.Blind piece) (ops : List String) :
    m.Blind (Scan.links ops piece) := by
  intro ts
  fun_induction Scan.links ops piece ts with
  | case1 => rw [List.map_nil, Scan.links]
  | case2 t ts hop hnone =>
    rw [List.map_cons, Scan.links, isOperatorIn_token, if_pos hop, h, hnone]
  | case3 t ts hop n hn ih =>
    rw [List.map_cons, Scan.links, isOperatorIn_token, if_pos hop, h, hn]
    simp only
    rw [← List.map_drop, ih]
  | case4 t ts hop => rw [List.map_cons, Scan.links, isOperatorIn_token, if_neg hop]

theorem Blind.andThen {first second : Scan} (hfirst : m.Blind first) (hsecond : m.Blind second) :
    m.Blind (first.andThen second) := by
  intro ts
  unfold Scan.andThen
  rw [hfirst]
  cases first ts with
  | none => rfl
  | some n => simp only [← List.map_drop, hsecond (ts.drop n)]

variable (m)

theorem blind_atom (d : Direction) : m.Blind (Extent.atom d) := by
  intro ts
  cases ts with
  | nil => rfl
  | cons t ts =>
    have hspan := m.bracketSpan_map d 0 (t :: ts)
    rw [List.map_cons] at hspan
    cases d with
    | rightward => simp only [List.map_cons, Extent.atom, isOperand_token, isOpen_token, kind_token,
        hspan]
    | leftward =>
      have hname (n : Nat) : (m.token t :: ts.map m.token)[n]?.any (·.kind == .function) =
          (t :: ts)[n]?.any (·.kind == .function) := by
        rw [← List.map_cons, List.getElem?_map, Option.any_map]
        rfl
      simp only [List.map_cons, Extent.atom, isOperand_token, isClose_token, hspan, hname]

theorem blind_powerTail (d : Direction) : m.Blind (Extent.powerTail d) :=
  (m.blind_atom d).links ["^"]

theorem blind_power (d : Direction) : m.Blind (Extent.power d) :=
  (m.blind_atom d).andThen (m.blind_powerTail d)

theorem blind_termTail (d : Direction) : m.Blind (Extent.termTail d) :=
  (m.blind_powerTail d).andThen ((m.blind_power d).links ["*", "/"])

/-! ### Simplification -/

/-- The same place among the relabelled tokens. -/
def cursor (c : Cursor) : Cursor :=
  ⟨c.before.map m.token, m.token c.focus, c.after.map m.token⟩

/-- The same edit, with a relabelled token put in. -/
def edit (e : Edit) : Edit :=
  { e with insert := e.insert.map m.token }

/-- The same error, at its new place. -/
def division (error : DivisionByZero) : DivisionByZero :=
  ⟨m.place error.position⟩

section Cursor

variable (c : Cursor)

@[simp] theorem isPrecededBy_cursor (ops : List String) :
    (m.cursor c).isPrecededBy ops = c.isPrecededBy ops := by
  simp [Cursor.isPrecededBy, cursor, Option.any_map]

@[simp] theorem isFollowedBy_cursor (ops : List String) :
    (m.cursor c).isFollowedBy ops = c.isFollowedBy ops := by
  simp [Cursor.isFollowedBy, cursor, Option.any_map]

@[simp] theorem isLeading_cursor : (m.cursor c).isLeading = c.isLeading := by
  simp [Cursor.isLeading, cursor, Option.all_map]

theorem literal_cursor (text : String) :
    (m.cursor c).literal text = m.token (c.literal text) :=
  (m.token_mk (by decide) text c.focus.position).symm

theorem term_cursor : (m.cursor c).term = c.term := by
  simp only [Cursor.term, cursor, m.blind_termTail .leftward c.before,
    m.blind_termTail .rightward c.after]

theorem signEdit_cursor : (m.cursor c).signEdit = c.signEdit.map m.edit := by
  simp only [Cursor.signEdit, isLeading_cursor, literal_cursor]
  rw [show (m.cursor c).focus = m.token c.focus from rfl, isSign_token]
  split <;> rfl

theorem zeroEdit_cursor : (m.cursor c).zeroEdit = c.zeroEdit.map m.edit := by
  have hpower : Extent.powerTail .leftward (m.cursor c).before =
      Extent.powerTail .leftward c.before := m.blind_powerTail .leftward c.before
  have hexponent : ((m.cursor c).after.drop 1).head?.any Token.isPositiveLiteral =
      (c.after.drop 1).head?.any Token.isPositiveLiteral := by
    simp [cursor, ← List.map_drop, Option.any_map]
  simp only [Cursor.zeroEdit, isPrecededBy_cursor, isFollowedBy_cursor, hpower, hexponent,
    literal_cursor, term_cursor]
  split_ifs <;> simp [edit, cursor, Function.comp_def]

theorem oneEdit_cursor : (m.cursor c).oneEdit = c.oneEdit.map m.edit := by
  have hatom : Extent.atom .rightward ((m.cursor c).after.drop 1) =
      Extent.atom .rightward (c.after.drop 1) := by
    rw [show (m.cursor c).after = c.after.map m.token from rfl, ← List.map_drop,
      m.blind_atom .rightward]
  simp only [Cursor.oneEdit, isPrecededBy_cursor, isFollowedBy_cursor, hatom]
  split_ifs <;> simp [edit, cursor, Function.comp_def]

/-- **The same rule** applies at the same place. -/
theorem edit?_cursor : (m.cursor c).edit? = c.edit?.map m.edit := by
  rw [Cursor.edit?, Cursor.edit?]
  rw [show (m.cursor c).focus = m.token c.focus from rfl, kind_token]
  split
  case h_1 => exact m.signEdit_cursor c
  case h_2 hkind =>
    rw [m.text_token (by simp [hkind])]
    split_ifs
    · exact m.zeroEdit_cursor c
    · exact m.oneEdit_cursor c
    · rfl
  case h_3 => rfl

theorem apply_cursor (e : Edit) : (m.cursor c).apply (m.edit e) = (c.apply e).map m.token := by
  cases hinsert : e.insert <;>
    simp [Cursor.apply, cursor, edit, hinsert, ← List.map_drop, ← List.map_cons]

end Cursor

theorem findDivisionByZero_map (ts : List Token) :
    findDivisionByZero (ts.map m.token) = (findDivisionByZero ts).map m.division := by
  fun_induction findDivisionByZero ts with
  | case1 first second ts hzero => simp [findDivisionByZero, hzero, division]
  | case2 first second ts hnot ih =>
    rw [← ih, List.map_cons, List.map_cons, findDivisionByZero, isOperator_token, isNumber_token,
      if_neg hnot]
  | case3 ts hshort =>
    rcases ts with _ | ⟨t, _ | ⟨u, ts⟩⟩
    · rfl
    · rfl
    · exact (hshort t u ts rfl).elim

theorem nextEditFrom_map (before ts : List Token) :
    nextEditFrom (before.map m.token) (ts.map m.token) =
      (nextEditFrom before ts).map fun (c, e) => (m.cursor c, m.edit e) := by
  induction ts generalizing before with
  | nil => rfl
  | cons t ts ih =>
    have hedit := m.edit?_cursor ⟨before, t, ts⟩
    rw [cursor] at hedit
    rw [List.map_cons, nextEditFrom, hedit, nextEditFrom]
    cases (Cursor.mk before t ts).edit? with
    | none => exact ih (t :: before)
    | some e => rfl

/-- The outcome of a simplification, relabelled. -/
def outcome : Except DivisionByZero (List Token) → Except DivisionByZero (List Token)
  | .ok ts => .ok (ts.map m.token)
  | .error error => .error (m.division error)

/-- **Simplification** does the same to relabelled tokens. -/
theorem simplify_map (ts : List Token) : simplify (ts.map m.token) = m.outcome (simplify ts) := by
  change _ = m.outcome (run ts).outcome
  fun_induction run ts with
  | case1 ts error hdivision =>
    refine simplify_of_division ?_
    rw [findDivisionByZero_map, hdivision]
    rfl
  | case2 ts hdivision hnone =>
    refine simplify_of_nextEdit_eq_none ?_ ?_
    · rw [findDivisionByZero_map, hdivision]
      rfl
    · exact (m.nextEditFrom_map [] ts).trans (by rw [← nextEdit, hnone]; rfl)
  | case3 ts hdivision c e hnext later ih =>
    -- the same edit is next, at the renamed place
    have hdivision' : findDivisionByZero (ts.map m.token) = none := by
      rw [findDivisionByZero_map, hdivision]
      rfl
    have hnext' : nextEdit (ts.map m.token) = some (m.cursor c, m.edit e) :=
      (m.nextEditFrom_map [] ts).trans (by rw [← nextEdit, hnext]; rfl)
    rw [simplify_of_nextEdit hdivision' hnext', apply_cursor, ih]

/-! ### Grouping -/

/-- The same bounds, relabelled. -/
def bounds : Bounds → Bounds
  | .implicit => .implicit
  | .brackets opening closing => .brackets (m.token opening) (m.token closing)
  | .call function opening closing =>
    .call (m.token function) (m.token opening) (m.token closing)

theorem front_bounds (b : Bounds) : (m.bounds b).front = b.front.map m.token := by
  cases b <;> rfl

theorem back_bounds (b : Bounds) : (m.bounds b).back = b.back.map m.token := by
  cases b <;> rfl

mutual

/-- The same item, relabelled at every depth. -/
def item (m : Relabelling) : Item → Item
  | .token t => .token (m.token t)
  | .group b is => .group (m.bounds b) (items m is)

/-- The same items, relabelled at every depth. -/
def items (m : Relabelling) : List Item → List Item
  | [] => []
  | i :: is => item m i :: items m is

end

theorem items_eq_map (is : List Item) : m.items is = is.map m.item := by
  induction is with
  | nil => rw [items, List.map_nil]
  | cons i is ih => rw [items, ih, List.map_cons]

theorem item_token (t : Token) : m.item (.token t) = .token (m.token t) := by
  rw [item]

theorem item_group (b : Bounds) (is : List Item) :
    m.item (.group b is) = .group (m.bounds b) (is.map m.item) := by
  rw [item, items_eq_map]

theorem flatten_map (is : List Item) :
    Item.flatten (is.map m.item) = (Item.flatten is).map m.token := by
  fun_induction Item.flatten is with
  | case1 => simp
  | case2 t is ih => rw [List.map_cons, item_token, Item.flatten_token, ih, List.map_cons]
  | case3 b contents is ih =>
    have hback : (m.bounds b).back.map Item.token = (b.back.map Item.token).map m.item := by
      rw [back_bounds, List.map_map, List.map_map]
      exact List.map_congr_left fun t _ => (m.item_token t).symm
    rw [List.map_cons, item_group, Item.flatten_group, front_bounds, hback, ← List.map_append,
      ← List.map_append, ih, List.map_append]

/-! #### Nesting -/

theorem splitAtClose_map (ts : List Token) :
    splitAtClose (ts.map m.token) = (splitAtClose ts).map fun (contents, closing, rest) =>
      (contents.map m.token, m.token closing, rest.map m.token) := by
  unfold splitAtClose
  rw [bracketSpan_map]
  cases bracketSpan .rightward 1 ts with
  | none => rfl
  | some n =>
    simp only [← List.map_drop, ← List.map_take]
    cases ts.drop (n - 1) <;> rfl

/-- The same region, relabelled. -/
def region (r : Region) : Region :=
  ⟨m.bounds r.bounds, r.contents.map m.token, r.rest.map m.token⟩

theorem region?_map (ts : List Token) :
    region? (ts.map m.token) = (region? ts).map m.region := by
  cases ts with
  | nil => rfl
  | cons first ts =>
    cases ts with
    | nil =>
      -- one token alone opens no region, whatever its kind
      cases hkind : first.kind <;> simp [region?, hkind, splitAtClose, bracketSpan]
    | cons second ts =>
      -- a bracket is closed behind itself, a name behind the bracket that follows it
      have hopening := m.splitAtClose_map (second :: ts)
      have hname := m.splitAtClose_map ts
      rw [List.map_cons] at hopening
      rw [List.map_cons, List.map_cons]
      cases hkind : first.kind
      case openBracket =>
        simp only [region?, kind_token, hkind, hopening]
        cases splitAtClose (second :: ts) <;> rfl
      case function =>
        simp only [region?, kind_token, hkind, isOpen_token, hname]
        cases second.isOpen <;> cases splitAtClose ts <;> rfl
      all_goals simp [region?, hkind]

theorem nest_map (ts : List Token) : nest (ts.map m.token) = (nest ts).map m.item := by
  fun_induction nest ts with
  | case1 ts r hregion ihc ihr =>
    have hregion' : region? (ts.map m.token) = some (m.region r) := by
      rw [region?_map, hregion]
      rfl
    rw [nest_of_region hregion', List.map_cons, item_group, ← ihc, ← ihr]
    rfl
  | case2 => simp
  | case3 t ts hregion ih =>
    have hregion' : region? (m.token t :: ts.map m.token) = none := by
      rw [← List.map_cons, region?_map, hregion]
      rfl
    rw [List.map_cons, nest_of_token hregion', List.map_cons, item_token, ih]

/-! #### Tiers -/

@[simp] theorem isOperandOrGroup_item (i : Item) :
    (m.item i).isOperandOrGroup = i.isOperandOrGroup := by
  cases i <;> rw [item] <;> rfl

@[simp] theorem isOperatorIn_item (i : Item) (ops : List String) :
    (m.item i).isOperatorIn ops = i.isOperatorIn ops := by
  cases i with
  | token t => simp [item_token, Item.isOperatorIn, Item.token?]
  | group b is => simp [item_group, Item.isOperatorIn, Item.token?]

theorem item_operation (left operator right : Item) :
    m.item (.operation left operator right) =
      .operation (m.item left) (m.item operator) (m.item right) := by
  rw [Item.operation, item_group]
  rfl

/-- The same item behind, relabelled. -/
def passed (p : Item.Passed) : Item.Passed :=
  ⟨m.item p.item, p.fresh⟩

theorem passed_operation (left : Item.Passed) (operator right : Item) :
    m.passed ⟨.operation left.item operator right, true⟩ =
      ⟨.operation (m.passed left).item (m.item operator) (m.item right), true⟩ := by
  rw [passed, item_operation]
  rfl

theorem passFrom_map (ops : List String) (behind : List Item.Passed) (is : List Item) :
    Item.passFrom ops (behind.map m.passed) (is.map m.item) =
      (Item.passFrom ops behind is).map m.item := by
  have htakes (operator : Item) (left : Item.Passed) :
      (m.item operator).takesLeft (m.passed left) = operator.takesLeft left := by
    simp [Item.takesLeft, passed]
  fun_induction Item.passFrom ops behind is with
  | case1 left behind operator right is hjoin ih =>
    rw [List.map_cons, List.map_cons, List.map_cons, Item.passFrom, isOperatorIn_item, htakes,
      isOperandOrGroup_item, if_pos hjoin, ← ih, List.map_cons, passed_operation]
  | case2 left behind operator right is hjoin ih =>
    rw [List.map_cons, List.map_cons, List.map_cons, Item.passFrom, isOperatorIn_item, htakes,
      isOperandOrGroup_item, if_neg hjoin, ← ih]
    rfl
  | case3 behind i is hshort ih =>
    rw [← ih, List.map_cons]
    -- there is nothing behind, or nothing more to come
    cases behind with
    | nil => simp [Item.passFrom, passed]
    | cons left behind =>
      cases is with
      | nil => simp [Item.passFrom, passed]
      | cons right is => exact (hshort left behind right is rfl rfl).elim
  | case4 behind =>
    rw [List.map_nil, Item.passFrom, List.map_reverse, List.map_map, List.map_map]
    rfl

theorem pass_map (ops : List String) (is : List Item) :
    Item.pass ops (is.map m.item) = (Item.pass ops is).map m.item :=
  m.passFrom_map ops [] is

theorem settle_map (ops : List String) (is : List Item) :
    Item.settle ops (is.map m.item) = (Item.settle ops is).map m.item := by
  fun_induction Item.settle ops is with
  | case1 is next hshorter ih =>
    rw [Item.settle, pass_map, List.length_map, List.length_map, if_pos hshorter, ih]
  | case2 is next hsame =>
    rw [Item.settle, pass_map, List.length_map, List.length_map, if_neg hsame]

theorem settleTiers_map (is : List Item) :
    Item.settleTiers (is.map m.item) = (Item.settleTiers is).map m.item := by
  simp only [Item.settleTiers, settle_map]

/-! #### Chains -/

/-- The same link, relabelled. -/
def link (l : Link) : Link :=
  ⟨m.token l.operator, l.operand.map m.item⟩

/-- The same chain, relabelled. -/
def chain (c : Chain) : Chain :=
  ⟨m.token c.operator, m.item c.operand, c.links.map m.link⟩

/-- The same piece of a level, relabelled. -/
def segment : Segment → Segment
  | .single i => .single (m.item i)
  | .chain c => .chain (m.chain c)

theorem links_map (op : String) (is : List Item) :
    Item.links op (is.map m.item) =
      ((Item.links op is).1.map m.link, (Item.links op is).2.map m.item) := by
  fun_induction Item.links op is with
  | case1 t operand is hop later rest hlinks ih =>
    rw [hlinks] at ih
    simp [item_token, Item.links, hop, ih, link]
  | case2 t operand is hop => simp [item_token, Item.links, hop]
  | case3 t hop => simp [item_token, Item.links, hop, link]
  | case4 t hop => simp [item_token, Item.links, hop]
  | case5 is hpair hsingle =>
    -- the level is empty or starts with a group
    rcases is with _ | ⟨t | ⟨b, contents⟩, is⟩
    · simp [Item.links]
    · rcases is with _ | ⟨operand, is⟩
      · exact (hsingle t rfl).elim
      · exact (hpair t operand is rfl).elim
    · simp [item_group, Item.links]

theorem segments_map (op : String) (is : List Item) :
    Item.segments op (is.map m.item) = (Item.segments op is).map m.segment := by
  fun_induction Item.segments op is with
  | case1 t operand is hop hnone ih =>
    simp [item_token, Item.segments, hop, links_map, hnone, ih, segment]
  | case2 t operand is hop hsome ih =>
    simp [item_token, Item.segments, hop, links_map, hsome, ih, segment, chain]
  | case3 t operand is hop ih =>
    rw [List.map_cons] at ih
    simp [item_token, Item.segments, hop, ih, segment]
  | case4 i is hpair ih =>
    cases i with
    | token t =>
      cases is with
      | nil => simp [item_token, Item.segments, segment]
      | cons operand is => exact (hpair t operand is rfl rfl).elim
    | group b contents => simp [item_group, Item.segments, ih, segment]
  | case5 => simp [Item.segments]

theorem item_bracketed (position : Nat) (is : List Item) :
    m.item (.bracketed position is) = .bracketed (m.place position) (is.map m.item) := by
  rw [Item.bracketed, item_group, bounds, m.token_mk (by decide), m.token_mk (by decide),
    Item.bracketed]

theorem joined_chain (c : Chain) (joiner : String) :
    (m.chain c).joined joiner = (c.joined joiner).map m.item := by
  simp only [Chain.joined, chain, List.map_cons, List.flatMap_map, List.map_flatMap]
  congr 1
  refine List.flatMap_congr fun l _ => ?_
  rcases l with ⟨operator, _ | operand⟩
  · rfl
  · simp [link, item_token, m.token_mk]

theorem items_segment (joiner : String) (s : Segment) :
    (m.segment s).items joiner = (s.items joiner).map m.item := by
  cases s with
  | single i => rfl
  | chain c =>
    simp only [segment, Segment.items, joined_chain, settleTiers_map, List.map_cons, List.map_nil,
      item_token, item_bracketed]
    rfl

theorem joinChains_map (op joiner : String) (is : List Item) :
    Item.joinChains op joiner (is.map m.item) = (Item.joinChains op joiner is).map m.item := by
  simp only [Item.joinChains, segments_map, List.flatMap_map, List.map_flatMap, items_segment]

/-! #### Whole formulas -/

theorem arrange_map (is : List Item) :
    Item.arrange (is.map m.item) = (Item.arrange is).map m.item := by
  simp only [Item.arrange, settle_map, joinChains_map]

mutual

theorem arrangeInside_item (i : Item) : (m.item i).arrangeInside = m.item i.arrangeInside := by
  cases i with
  | token t => rw [item_token, Item.arrangeInside, Item.arrangeInside, item_token]
  | group b is =>
    rw [item_group, Item.arrangeInside, arrangeEach_map is, arrange_map, Item.arrangeInside,
      item_group]

theorem arrangeEach_map (is : List Item) :
    Item.arrangeEach (is.map m.item) = (Item.arrangeEach is).map m.item := by
  cases is with
  | nil => rw [List.map_nil, Item.arrangeEach, List.map_nil]
  | cons i is =>
    rw [List.map_cons, Item.arrangeEach, arrangeInside_item i, arrangeEach_map is,
      Item.arrangeEach, List.map_cons]

end

/-- **Putting brackets around chains** does the same to relabelled tokens. -/
theorem normalize_map (ts : List Token) :
    normalize (ts.map m.token) = (normalize ts).map m.token := by
  rw [normalize, group, nest_map, arrangeEach_map, arrange_map, flatten_map, ← group, ← normalize]

/-! ### Reverse Polish notation -/

/-- A list is split at the same token after a relabelling that the question does not depend on. -/
theorem takeWhile_dropWhile_map {p q : Token → Bool} (h : ∀ t, p (m.token t) = q t)
    (ts : List Token) :
    (ts.map m.token).takeWhile p = (ts.takeWhile q).map m.token ∧
      (ts.map m.token).dropWhile p = (ts.dropWhile q).map m.token := by
  have hcomp : p ∘ m.token = q := funext h
  rw [List.takeWhile_map, List.dropWhile_map, hcomp]
  exact ⟨rfl, rfl⟩

theorem toRpnFrom_map (waiting ts : List Token) :
    toRpnFrom (waiting.map m.token) (ts.map m.token) = (toRpnFrom waiting ts).map m.token := by
  fun_induction toRpnFrom waiting ts with
  | case1 waiting =>
    -- at the end the waiting operators come out
    rw [List.map_nil, toRpnFrom, List.filter_map]
    rfl
  | case2 waiting t ts hkind ih | case3 waiting t ts hkind ih => simp [toRpnFrom, hkind, ih]
  | case4 waiting t ts hkind ih =>
    rw [← ih]
    simp [toRpnFrom, hkind]
  | case5 waiting t ts hkind ih =>
    -- a closing bracket takes them down to its partner
    obtain ⟨htake, hdrop⟩ := m.takeWhile_dropWhile_map (p := fun u => !u.isOpen)
      (q := fun u => !u.isOpen) (fun _ => rfl) waiting
    rw [List.map_cons, toRpnFrom, kind_token, hkind]
    simp only
    rw [htake, hdrop, ← List.map_tail, ih, List.map_append]
  | case6 waiting t ts hkind goesFirst ih | case7 waiting t ts hkind goesFirst ih =>
    -- an operator takes those down that bind at least as tightly
    obtain ⟨htake, hdrop⟩ := m.takeWhile_dropWhile_map
      (p := fun u => decide ((m.token t).precedence ≤ u.precedence)) (q := goesFirst)
      (fun u => by rw [precedence_token, precedence_token]) waiting
    rw [List.map_cons, toRpnFrom, kind_token, hkind]
    simp only
    rw [htake, hdrop, ← List.map_cons, ih, List.map_append]

/-- **The order of tokens** is the same after a relabelling. -/
theorem toRpn_map (ts : List Token) : toRpn (ts.map m.token) = (toRpn ts).map m.token :=
  m.toRpnFrom_map [] ts

/-! ### Trees -/

/-- **A tree** does not hold places. If no variable is renamed, it is the same. -/
theorem ofRpnFrom_map (hrename : ∀ text, m.rename text = text) {operands : List Tree}
    {ts : List Token} {tree : Tree} (h : Tree.ofRpnFrom operands ts = .ok tree) :
    Tree.ofRpnFrom operands (ts.map m.token) = .ok tree := by
  have htext (t : Token) : (m.token t).text = t.text := by
    rw [token, hrename, ite_self]
  fun_induction Tree.ofRpnFrom operands ts with
  | case1 => simp at h
  | case2 t => exact h
  | case3 => simp at h
  | case4 t ts operands hkind ih | case5 t ts operands hkind ih =>
    simp [Tree.ofRpnFrom, hkind, htext, ih h]
  | case6 t ts arg operands hkind ih => simp [Tree.ofRpnFrom, hkind, htext, ih h]
  | case7 t ts right left operands hkind ih => simp [Tree.ofRpnFrom, hkind, htext, ih h]
  | _ => simp at h

end Relabelling

end Formula
