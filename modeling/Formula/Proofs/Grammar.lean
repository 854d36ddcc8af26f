import Formula.Proofs.Balance

/-!
# The grammar of expressions

An expression is an optional sign and atoms with operators between them; an atom is an operand, an
expression in brackets, or a function name in front of such brackets:

* `expression ::= [sign] chain`
* `chain ::= atom | chain operator atom`
* `atom ::= operand | ( expression ) | function ( expression )`

The grammar is flat: it says where operators stand and nothing about how tightly they bind. Which
tokens may be signs and which ones operators is left to a `Grammar`, since the stages of the
analysis differ in that: the check of the structure takes any operator (`Grammar.full`), the other
stages know the five of arithmetic (`Grammar.arithmetic`), and the later ones see no sign any more
(`Grammar.unsigned`).

A derived list starts and ends as an atom does, but for a sign in front (`Derives.head?`,
`Derives.getLast?`), and its brackets nest (`Derives.balanced`).
-/

namespace Formula

namespace Token

/-- A token that an atom can start with. -/
def startsAtom (t : Token) : Bool :=
  t.isOperandLike || t.isOpen

/-- A token that an atom can end with. -/
def endsAtom (t : Token) : Bool :=
  t.isOperand || t.isClose

/-- One of the five operators of arithmetic. -/
def isArithmetic (t : Token) : Bool :=
  t.isOperatorIn ["+", "-", "*", "/", "^"]

theorem kind_of_isOperatorIn {t : Token} {ops : List String} (h : t.isOperatorIn ops) :
    t.kind = .operator := by
  simp only [isOperatorIn, Bool.and_eq_true, beq_iff_eq] at h
  exact h.1

theorem kind_of_isSign {t : Token} (h : t.isSign) : t.kind = .operator :=
  kind_of_isOperatorIn h

theorem kind_of_isOpen {t : Token} (h : t.isOpen) : t.kind = .openBracket := by
  simpa [isOpen] using h

theorem kind_of_isClose {t : Token} (h : t.isClose) : t.kind = .closeBracket := by
  simpa [isClose] using h

theorem kind_of_isOperand {t : Token} (h : t.isOperand) :
    t.kind = .number ∨ t.kind = .variable := by
  simpa [isOperand] using h

theorem not_isOpen_of_isOperand {t : Token} (h : t.isOperand) : ¬ t.isOpen := by
  rcases kind_of_isOperand h with h | h <;> simp [isOpen, h]

theorem not_isClose_of_isOperand {t : Token} (h : t.isOperand) : ¬ t.isClose := by
  rcases kind_of_isOperand h with h | h <;> simp [isClose, h]

/-- An operator stands between atoms and ends none. -/
theorem not_endsAtom_of_operator {t : Token} (h : t.kind = .operator) : ¬ t.endsAtom := by
  simp [endsAtom, isOperand, isClose, h]

/-- What ends an atom does not open a bracket. -/
theorem not_isOpen_of_endsAtom {t : Token} (h : t.endsAtom) : ¬ t.isOpen := by
  intro hopen
  simp [endsAtom, isOperand, isClose, kind_of_isOpen hopen] at h

theorem not_isOpen_of_operator {t : Token} (h : t.kind = .operator) : ¬ t.isOpen := by
  simp [isOpen, h]

theorem not_isClose_of_operator {t : Token} (h : t.kind = .operator) : ¬ t.isClose := by
  simp [isClose, h]

end Token

/-! ### Derivations -/

/-- Which tokens may stand as a sign, and which ones join atoms. -/
structure Grammar where
  sign : Token → Prop
  operator : Token → Prop
  isSign_of_sign : ∀ {t : Token}, sign t → t.isSign
  kind_of_operator : ∀ {t : Token}, operator t → t.kind = .operator

namespace Grammar

/-- Any operator joins atoms, and `+` and `-` may stand as a sign. -/
def full : Grammar where
  sign t := t.isSign
  operator t := t.kind = .operator
  isSign_of_sign h := h
  kind_of_operator h := h

/-- The operators of arithmetic join atoms, and `+` and `-` may stand as a sign. -/
def arithmetic : Grammar where
  sign t := t.isSign
  operator t := t.isArithmetic
  isSign_of_sign h := h
  kind_of_operator h := Token.kind_of_isOperatorIn h

/-- The operators of arithmetic join atoms, and there are no signs. -/
def unsigned : Grammar where
  sign _ := False
  operator t := t.isArithmetic
  isSign_of_sign h := h.elim
  kind_of_operator h := Token.kind_of_isOperatorIn h

end Grammar

/-- The parts of an expression that the grammar has rules for. -/
inductive Nonterminal where
  | atom
  | chain
  | expression
  deriving DecidableEq, Repr

/-- **The rules.** Tokens are told apart by their kind alone, but for signs and operators. -/
inductive Grammar.Derives (G : Grammar) : Nonterminal → List Token → Prop
  | operand {t : Token} (ht : t.isOperand) : G.Derives .atom [t]
  | brackets {o c : Token} {ts : List Token} (ho : o.isOpen) (hts : G.Derives .expression ts)
      (hc : c.isClose) : G.Derives .atom (o :: ts ++ [c])
  | call {f o c : Token} {ts : List Token} (hf : f.kind = .function) (ho : o.isOpen)
      (hts : G.Derives .expression ts) (hc : c.isClose) : G.Derives .atom (f :: o :: ts ++ [c])
  | single {ts : List Token} (hts : G.Derives .atom ts) : G.Derives .chain ts
  | link {xs ys : List Token} {t : Token} (hxs : G.Derives .chain xs) (ht : G.operator t)
      (hys : G.Derives .atom ys) : G.Derives .chain (xs ++ t :: ys)
  | bare {ts : List Token} (hts : G.Derives .chain ts) : G.Derives .expression ts
  | signed {s : Token} {ts : List Token} (hs : G.sign s) (hts : G.Derives .chain ts) :
      G.Derives .expression (s :: ts)

namespace Grammar.Derives

variable {G H : Grammar} {n : Nonterminal} {ts : List Token}

/-- Two chains with an operator between them are a chain. -/
theorem join {xs ys : List Token} {t : Token} (hxs : G.Derives .chain xs) (ht : G.operator t)
    (hys : G.Derives .chain ys) : G.Derives .chain (xs ++ t :: ys) := by
  generalize hn : Nonterminal.chain = n at hys
  induction hys with
  | single hatom => exact .link hxs ht hatom
  | link _ hu hatom ih =>
    -- the first chain is joined to all but the last atom of the second one
    have h := (ih hn).link hu hatom
    rwa [List.append_assoc, List.cons_append] at h
  -- the other rules derive no chain
  | operand | brackets | call | bare | signed => cases hn

/-- A grammar with more signs and more operators derives more. -/
theorem mono (h : G.Derives n ts) (hsign : ∀ t ∈ ts, G.sign t → H.sign t)
    (hoperator : ∀ t ∈ ts, G.operator t → H.operator t) : H.Derives n ts := by
  induction h with
  | operand ht => exact .operand ht
  | brackets ho _ hc ih =>
    exact .brackets ho (ih (fun t ht => hsign t (by simp [ht]))
      fun t ht => hoperator t (by simp [ht])) hc
  | call hf ho _ hc ih =>
    exact .call hf ho (ih (fun t ht => hsign t (by simp [ht]))
      fun t ht => hoperator t (by simp [ht])) hc
  | single _ ih => exact .single (ih hsign hoperator)
  | link _ ht _ ihxs ihys =>
    refine .link (ihxs ?_ ?_) (hoperator _ (by simp) ht) (ihys ?_ ?_)
    · exact fun t ht => hsign t (by simp [ht])
    · exact fun t ht => hoperator t (by simp [ht])
    · exact fun t ht => hsign t (by simp [ht])
    · exact fun t ht => hoperator t (by simp [ht])
  | bare _ ih => exact .bare (ih hsign hoperator)
  | signed hs _ ih =>
    exact .signed (hsign _ (by simp) hs) (ih (fun t ht => hsign t (by simp [ht]))
      fun t ht => hoperator t (by simp [ht]))

/-! ### The ends of a derived list -/

/-- **The first token** starts an atom, unless it is the sign of an expression. -/
theorem exists_cons (h : G.Derives n ts) :
    ∃ t us, ts = t :: us ∧ (t.startsAtom ∨ n = .expression ∧ G.sign t) := by
  induction h with
  | @operand t ht =>
    -- an atom starts with its own first token
    exact ⟨t, [], rfl, .inl (by simp [Token.startsAtom, Token.isOperandLike, ht])⟩
  | @brackets o c ts ho _ _ _ =>
    exact ⟨o, ts ++ [c], rfl, .inl (by simp [Token.startsAtom, ho])⟩
  | @call f o c ts hf _ _ _ _ =>
    exact ⟨f, o :: ts ++ [c], rfl, .inl (by simp [Token.startsAtom, Token.isOperandLike, hf])⟩
  | single _ ih =>
    -- only an expression has a sign in front, so a chain starts with an atom
    obtain ⟨t, us, rfl, ht | ⟨hn, -⟩⟩ := ih
    · exact ⟨t, us, rfl, .inl ht⟩
    · cases hn
  | link _ _ _ ih _ =>
    obtain ⟨t, us, rfl, ht | ⟨hn, -⟩⟩ := ih
    · exact ⟨t, _, rfl, .inl ht⟩
    · cases hn
  | bare _ ih =>
    obtain ⟨t, us, rfl, ht | ⟨hn, -⟩⟩ := ih
    · exact ⟨t, us, rfl, .inl ht⟩
    · cases hn
  | @signed s ts hs _ _ => exact ⟨s, ts, rfl, .inr ⟨rfl, hs⟩⟩

/-- **The last token** ends an atom. -/
theorem exists_concat (h : G.Derives n ts) : ∃ us t, ts = us ++ [t] ∧ t.endsAtom := by
  induction h with
  | @operand t ht => exact ⟨[], t, rfl, by simp [Token.endsAtom, ht]⟩
  | @brackets o c ts _ _ hc _ => exact ⟨o :: ts, c, rfl, by simp [Token.endsAtom, hc]⟩
  | @call f o c ts _ _ _ hc _ => exact ⟨f :: o :: ts, c, rfl, by simp [Token.endsAtom, hc]⟩
  | single _ ih => exact ih
  | @link xs ys t _ _ _ _ ih =>
    obtain ⟨us, u, rfl, hu⟩ := ih
    exact ⟨xs ++ t :: us, u, by simp, hu⟩
  | bare _ ih => exact ih
  | @signed s ts _ _ ih =>
    obtain ⟨us, u, rfl, hu⟩ := ih
    exact ⟨s :: us, u, rfl, hu⟩

/-! ### Brackets -/

theorem balanced_of_operator {t : Token} (h : t.kind = .operator) : Balanced [t] :=
  .token (Token.not_isOpen_of_operator h) (Token.not_isClose_of_operator h)

/-- **The brackets of a derived list nest.** -/
theorem balanced (h : G.Derives n ts) : Balanced ts := by
  induction h with
  | operand ht =>
    exact .token (Token.not_isOpen_of_isOperand ht) (Token.not_isClose_of_isOperand ht)
  | brackets ho _ hc ih => exact .pair ho ih hc
  | @call f o c ts hf ho _ hc ih =>
    have hname : Balanced [f] := by
      refine .token ?_ ?_ <;> simp [Token.isOpen, Token.isClose, hf]
    -- the name is no bracket and stands in front of a pair
    show Balanced ([f] ++ (o :: ts ++ [c]))
    exact hname.append (.pair ho ih hc)
  | single _ ih => exact ih
  | link _ ht _ ihxs ihys =>
    exact .append ihxs (.append (balanced_of_operator (G.kind_of_operator ht)) ihys)
  | bare _ ih => exact ih
  | signed hs _ ih =>
    exact .append (balanced_of_operator (Token.kind_of_isSign (G.isSign_of_sign hs))) ih

end Grammar.Derives

end Formula
