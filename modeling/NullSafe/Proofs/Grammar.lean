import NullSafe.Surface.Parser

/-! # The grammar of expressions

    assign      := conditional [ "=" assign ]
    conditional := operation6 [ "?" assign ":" assign ]
    operation   := operation { operator operation }*      one level for each precedence, tightest first
    operation0  := unary
    unary       := ("!" | "-" | "+" | "typeof") unary | primary { link }*
    link        := "." name | "[" assign "]" | "(" items ")"
    primary     := number | string | pattern | name | "(" assign ")" | "[" items "]" | "{" properties "}"
    items       := [ assign { "," assign }* [ "," ] ]
    properties  := [ property { "," property }* [ "," ] ]
    property    := name [ ":" assign ] | string ":" assign | number ":" assign

A derivation is a tree of these rules. It yields the tokens at its leaves, and it means the expression that
it is written for. In an assignment the left side has to mean something that can be assigned to.
-/

namespace NullSafe.Surface

inductive Category where
  | assign
  | conditional
  | operation (level : Nat)
  /-- The operators of a level, with the operands to their right. -/
  | joins (level : Nat)
  | unary
  | links
  | primary
  | items
  | properties
  | property

inductive Operator where
  | binary (op : BinaryOp)
  | logical (op : LogicalOp)
  deriving DecidableEq, Repr

namespace Operator

def symbol : Operator → Symbol
  | binary op => op.symbol
  | logical op => op.symbol

def level : Operator → Nat
  | binary .multiply | binary .divide | binary .remainder => 1
  | binary .add | binary .subtract => 2
  | binary .below | binary .above | binary .atMost | binary .atLeast => 3
  | binary .equal | binary .differ | binary .strictEqual | binary .strictDiffer => 4
  | logical .both => 5
  | logical .either => 6

def apply : Operator → Expr Placeholder → Expr Placeholder → Expr Placeholder
  | binary op => .binary op
  | logical op => .logical op

end Operator

def UnaryOp.lexeme : UnaryOp → Lexeme
  | not => .symbol .bang
  | negate => .symbol .minus
  | plus => .symbol .plus
  | typeof => .name "typeof".toList

def Lexeme.ofPlaceholder : Placeholder → Lexeme
  | .string q => .string q
  | .pattern => .pattern

inductive Derivation : Category → Type where
  | unassigned (value : Derivation .conditional) : Derivation .assign
  | assign (target : Derivation .conditional) (value : Derivation .assign) : Derivation .assign
  | unconditional (value : Derivation (.operation 6)) : Derivation .conditional
  | conditional (test : Derivation (.operation 6)) (yes no : Derivation .assign) : Derivation .conditional
  | operand (value : Derivation .unary) : Derivation (.operation 0)
  | operation {level : Nat} (first : Derivation (.operation level))
      (rest : Derivation (.joins level)) : Derivation (.operation (level + 1))
  | joined {level : Nat} : Derivation (.joins level)
  | join {level : Nat} (op : Operator) (h : op.level = level + 1)
      (right : Derivation (.operation level)) (rest : Derivation (.joins level)) :
      Derivation (.joins level)
  | unary (op : UnaryOp) (value : Derivation .unary) : Derivation .unary
  | chain (root : Derivation .primary) (rest : Derivation .links) : Derivation .unary
  | linked : Derivation .links
  | member (text : List Char) (rest : Derivation .links) : Derivation .links
  | index (key : Derivation .assign) (rest : Derivation .links) : Derivation .links
  | call (arguments : Derivation .items) (rest : Derivation .links) : Derivation .links
  | number (digits : List Char) : Derivation .primary
  | literal (p : Placeholder) : Derivation .primary
  /-- The word `typeof` is an operator where an operand can stand. -/
  | name (text : List Char) (h : text ≠ "typeof".toList) : Derivation .primary
  | group (inner : Derivation .assign) : Derivation .primary
  | array (elements : Derivation .items) : Derivation .primary
  | object (entries : Derivation .properties) : Derivation .primary
  | noItem : Derivation .items
  | lastItem (value : Derivation .assign) : Derivation .items
  | item (value : Derivation .assign) (rest : Derivation .items) : Derivation .items
  | noProperty : Derivation .properties
  | lastProperty (entry : Derivation .property) : Derivation .properties
  | property (entry : Derivation .property) (rest : Derivation .properties) : Derivation .properties
  /-- A name that stands for itself. -/
  | shorthand (text : List Char) : Derivation .property
  | named (text : List Char) (value : Derivation .assign) : Derivation .property
  | quoted (q : Quote) (value : Derivation .assign) : Derivation .property
  | numbered (digits : List Char) (value : Derivation .assign) : Derivation .property

def Category.Meaning : Category → Type
  | assign | conditional | operation _ | unary | primary => Expr Placeholder
  | joins _ | links => Expr Placeholder → Expr Placeholder
  | items => List (Expr Placeholder)
  | properties => List (Key Placeholder × Expr Placeholder)
  | property => Key Placeholder × Expr Placeholder

namespace Derivation

@[simp] def yield : {c : Category} → Derivation c → List Lexeme
  | _, unassigned value => value.yield
  | _, assign target value => target.yield ++ Lexeme.symbol .assign :: value.yield
  | _, unconditional value => value.yield
  | _, conditional test yes no =>
    test.yield ++ Lexeme.symbol .question :: (yes.yield ++ Lexeme.symbol .colon :: no.yield)
  | _, operand value => value.yield
  | _, operation first rest => first.yield ++ rest.yield
  | _, joined => []
  | _, join op _ right rest => .symbol op.symbol :: (right.yield ++ rest.yield)
  | _, unary op value => op.lexeme :: value.yield
  | _, chain root rest => root.yield ++ rest.yield
  | _, linked => []
  | _, member text rest => .symbol .dot :: .name text :: rest.yield
  | _, index key rest => .symbol .openBracket :: (key.yield ++ Lexeme.symbol .closeBracket :: rest.yield)
  | _, call arguments rest =>
    .symbol .openParen :: (arguments.yield ++ Lexeme.symbol .closeParen :: rest.yield)
  | _, number digits => [.number digits]
  | _, literal p => [.ofPlaceholder p]
  | _, name text _ => [.name text]
  | _, group inner => .symbol .openParen :: (inner.yield ++ [Lexeme.symbol .closeParen])
  | _, array elements => .symbol .openBracket :: (elements.yield ++ [Lexeme.symbol .closeBracket])
  | _, object entries => .symbol .openBrace :: (entries.yield ++ [Lexeme.symbol .closeBrace])
  | _, noItem => []
  | _, lastItem value => value.yield
  | _, item value rest => value.yield ++ Lexeme.symbol .comma :: rest.yield
  | _, noProperty => []
  | _, lastProperty entry => entry.yield
  | _, property entry rest => entry.yield ++ Lexeme.symbol .comma :: rest.yield
  | _, shorthand text => [.name text]
  | _, named text value => .name text :: .symbol .colon :: value.yield
  | _, quoted q value => .string q :: .symbol .colon :: value.yield
  | _, numbered digits value => .number digits :: .symbol .colon :: value.yield

/-- The expression that a derivation is written for. Parentheses leave nothing; the operators of a level
associate to the left, assignments and conditionals to the right. -/
def meaning : {c : Category} → Derivation c → c.Meaning
  | _, unassigned value => value.meaning
  | _, assign target value => Expr.assign target.meaning value.meaning
  | _, unconditional value => value.meaning
  | _, conditional test yes no => Expr.conditional test.meaning yes.meaning no.meaning
  | _, operand value => value.meaning
  | _, operation first rest => rest.meaning first.meaning
  | _, joined => id
  | _, join op _ right rest => fun left => rest.meaning (op.apply left right.meaning)
  | _, unary op value => Expr.unary op value.meaning
  | _, chain root rest => rest.meaning root.meaning
  | _, linked => id
  | _, member text rest => fun target => rest.meaning (.member target (String.ofList text))
  | _, index key rest => fun target => rest.meaning (.index target key.meaning)
  | _, call arguments rest => fun callee => rest.meaning (.call callee arguments.meaning)
  | _, number digits => Expr.number (numeralText digits)
  | _, literal p => Expr.literal p
  | _, name text _ => Parser.nameTree text
  | _, group inner => inner.meaning
  | _, array elements => Expr.array elements.meaning
  | _, object entries => Expr.object entries.meaning
  | _, noItem => []
  | _, lastItem value => [value.meaning]
  | _, item value rest => List.cons value.meaning rest.meaning
  | _, noProperty => []
  | _, lastProperty entry => [entry.meaning]
  | _, property entry rest => List.cons entry.meaning rest.meaning
  | _, shorthand text => (.name (String.ofList text), .name (String.ofList text))
  | _, named text value => (.name (String.ofList text), value.meaning)
  | _, quoted q value => (.literal (.string q), value.meaning)
  | _, numbered digits value => (.number (numeralText digits), value.meaning)

/-- Every assignment in a derivation assigns to a name, a member or an index. -/
def Valid : {c : Category} → Derivation c → Prop
  | _, unassigned value => value.Valid
  | _, assign target value =>
    target.Valid ∧ Expr.isTarget (target.meaning : Expr Placeholder) = true ∧ value.Valid
  | _, unconditional value => value.Valid
  | _, conditional test yes no => test.Valid ∧ yes.Valid ∧ no.Valid
  | _, operand value => value.Valid
  | _, operation first rest => first.Valid ∧ rest.Valid
  | _, joined => True
  | _, join _ _ right rest => right.Valid ∧ rest.Valid
  | _, unary _ value => value.Valid
  | _, chain root rest => root.Valid ∧ rest.Valid
  | _, linked => True
  | _, member _ rest => rest.Valid
  | _, index key rest => key.Valid ∧ rest.Valid
  | _, call arguments rest => arguments.Valid ∧ rest.Valid
  | _, number _ | _, literal _ | _, name _ _ => True
  | _, group inner => inner.Valid
  | _, array elements => elements.Valid
  | _, object entries => entries.Valid
  | _, noItem => True
  | _, lastItem value => value.Valid
  | _, item value rest => value.Valid ∧ rest.Valid
  | _, noProperty => True
  | _, lastProperty entry => entry.Valid
  | _, property entry rest => entry.Valid ∧ rest.Valid
  | _, shorthand _ => True
  | _, named _ value | _, quoted _ value | _, numbered _ value => value.Valid

end Derivation

def lexemes (ts : List Token) : List Lexeme := ts.map Token.lexeme

def Derives (c : Category) (ls : List Lexeme) (v : c.Meaning) : Prop :=
  ∃ d : Derivation c, d.Valid ∧ d.yield = ls ∧ d.meaning = v

section Numerals

def Lexeme.fits : Lexeme → Bool
  | .number digits => numeralFits digits
  | _ => true

def Fit (ls : List Lexeme) : Prop := ∀ l ∈ ls, l.fits = true

/-- The tokens up to the first numeral that cannot be converted, with it. -/
def upToMisfit : List Lexeme → List Lexeme
  | [] => []
  | l :: rest => if l.fits then l :: upToMisfit rest else [l]

variable {xs ys : List Lexeme} {l : Lexeme}

theorem fit_nil : Fit [] := nofun

theorem fit_append : Fit (xs ++ ys) ↔ Fit xs ∧ Fit ys := List.forall_mem_append

theorem fit_cons : Fit (l :: xs) ↔ l.fits = true ∧ Fit xs := List.forall_mem_cons

theorem upToMisfit_append_of_fit (h : Fit xs) : upToMisfit (xs ++ ys) = xs ++ upToMisfit ys := by
  induction xs with
  | nil => rfl
  | cons l xs ih =>
    rw [fit_cons] at h
    rw [List.cons_append, upToMisfit, if_pos h.1, ih h.2, List.cons_append]

theorem upToMisfit_append_of_not_fit (h : ¬ Fit xs) : upToMisfit (xs ++ ys) = upToMisfit xs := by
  induction xs with
  | nil => exact absurd fit_nil h
  | cons l xs ih =>
    rw [List.cons_append, upToMisfit, upToMisfit]
    by_cases hl : l.fits = true
    · rw [if_pos hl, if_pos hl, ih fun hx => h (fit_cons.2 ⟨hl, hx⟩)]
    · rw [if_neg hl, if_neg hl]

theorem upToMisfit_cons_of_fits (h : l.fits = true) : upToMisfit (l :: xs) = l :: upToMisfit xs := by
  rw [upToMisfit, if_pos h]

/-- The tokens up to a numeral that cannot be converted start as the tokens do. -/
theorem head?_upToMisfit (xs : List Lexeme) : (upToMisfit xs).head? = xs.head? := by
  cases xs with
  | nil => rfl
  | cons l xs => rw [upToMisfit]; split <;> rfl

end Numerals

section Binding

/-- How tightly a token binds what stands before it, if it continues an expression at all: links first,
then the operators by their level, then `?` and `=`. -/
def Lexeme.binding : Lexeme → Option Nat
  | .symbol .dot | .symbol .openBracket | .symbol .openParen => some 0
  | .symbol .times | .symbol .slash | .symbol .percent => some 1
  | .symbol .plus | .symbol .minus => some 2
  | .symbol .below | .symbol .above | .symbol .atMost | .symbol .atLeast => some 3
  | .symbol .equal | .symbol .differ | .symbol .strictEqual | .symbol .strictDiffer => some 4
  | .symbol .both => some 5
  | .symbol .either => some 6
  | .symbol .question => some 7
  | .symbol .assign => some 8
  | _ => none

/-- A token that does not continue an expression of the given strength, or no token. -/
def Stops (bound : Nat) (next : Option Lexeme) : Prop :=
  ∀ l ∈ next, ∀ b ∈ l.binding, bound < b

theorem Stops.mono {m n : Nat} {next : Option Lexeme} (hmn : m ≤ n) (h : Stops n next) : Stops m next :=
  fun l hl b hb => Nat.lt_of_le_of_lt hmn (h l hl b hb)

theorem Stops.none (bound : Nat) : Stops bound none := nofun

theorem stops_some {bound : Nat} {l : Lexeme} : Stops bound (some l) ↔ ∀ b ∈ l.binding, bound < b := by
  simp [Stops]

theorem binding_operator (op : Operator) : (Lexeme.symbol op.symbol).binding = some op.level := by
  rcases op with op | op <;> cases op <;> rfl

def Lexeme.startsOperand : Lexeme → Bool
  | .number _ | .string _ | .pattern | .name _ => true
  | .symbol .bang | .symbol .minus | .symbol .plus => true
  | .symbol .openParen | .symbol .openBracket | .symbol .openBrace => true
  | .symbol _ => false

def Lexeme.startsEntry : Lexeme → Bool
  | .number _ | .string _ | .name _ => true
  | _ => false

/-- How the tokens of a category start. Where an operand has to stand there is no operator. -/
def Category.Starts : Category → Option Lexeme → Prop
  | assign, next | conditional, next | operation _, next | unary, next =>
    ∃ l, next = some l ∧ l.startsOperand = true
  | primary, next => ∃ l, next = some l ∧ l.startsOperand = true ∧ ∀ op : UnaryOp, l ≠ op.lexeme
  | property, next => ∃ l, next = some l ∧ l.startsEntry = true
  | joins _, _ | links, _ | items, _ | properties, _ => True

theorem starts_append {P : Lexeme → Prop} {xs : List Lexeme} (ys : List Lexeme)
    (h : ∃ l, xs.head? = some l ∧ P l) : ∃ l, (xs ++ ys).head? = some l ∧ P l := by
  obtain ⟨l, hl, hP⟩ := h
  exact ⟨l, by rw [List.head?_append, hl]; rfl, hP⟩

theorem Derivation.starts {c : Category} (d : Derivation c) : c.Starts d.yield.head? := by
  induction d with
  | unassigned _ ih | unconditional _ ih | operand _ ih => exact ih
  | assign _ _ ih _ | conditional _ _ _ ih _ _ | operation _ _ ih _ => exact starts_append _ ih
  | joined | join | linked | member | index | call => trivial
  | unary op _ _ => exact ⟨_, rfl, by cases op <;> rfl⟩
  | chain _ _ ih _ =>
    obtain ⟨l, hl, hs, -⟩ := ih
    exact starts_append _ ⟨l, hl, hs⟩
  | number | group | array | object =>
    exact ⟨_, rfl, rfl, fun op => by cases op <;> simp [UnaryOp.lexeme]⟩
  | literal p =>
    refine ⟨_, rfl, by cases p <;> rfl, fun op => ?_⟩
    cases p <;> cases op <;> simp [UnaryOp.lexeme, Lexeme.ofPlaceholder]
  | name text h =>
    refine ⟨_, rfl, rfl, fun op => ?_⟩
    cases op <;> simp [UnaryOp.lexeme]
    simpa using h
  | noItem | lastItem | item | noProperty | lastProperty | property => trivial
  | shorthand | named | quoted | numbered => exact ⟨_, rfl, rfl⟩

end Binding

end NullSafe.Surface
