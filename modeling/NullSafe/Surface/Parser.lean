import NullSafe.Surface.Tree

/-! # Parsing

Recursive descent over the tokens of an expression, one function per level of the grammar. Every
function returns the tokens it leaves with a proof that they are fewer, so the number of tokens bounds
the recursion.
-/

namespace NullSafe.Surface

inductive Failure where
  | fault (f : Fault)
  | oversizedNumber
  deriving DecidableEq, Repr

/-- The most digits a whole number may have when it is converted from or to decimal text. -/
def maxDigits : Nat := 4300

def hexDigits? : List Char → Option (List Char)
  | '0' :: x :: digits => if x = 'x' || x = 'X' then some digits else none
  | _ => none

/-- The generated code's spelling of a numeral: whole numbers are decimal without leading zeros, and a
final point is followed by a zero. -/
def numeralText (cs : List Char) : String :=
  match hexDigits? cs with
  | some digits => toString (Text.ofHex digits)
  | none =>
    if cs.all Text.isDecimal then toString (Text.ofDecimal cs)
    else if cs.getLast? = some '.' then String.ofList (cs ++ ['0'])
    else String.ofList cs

/-- Whether a numeral can be converted. A hexadecimal one is limited by its decimal digits. -/
def numeralFits (cs : List Char) : Bool :=
  match hexDigits? cs with
  | some digits => (toString (Text.ofHex digits)).length ≤ maxDigits
  | none => !cs.all Text.isDecimal || cs.length ≤ maxDigits

def numberText (cs : List Char) : Except Failure String :=
  if numeralFits cs then .ok (numeralText cs) else .error .oversizedNumber

namespace Parser

def refuse {α : Type} (cause : Cause) (position : Nat) : Except Failure α :=
  .error (.fault { cause, position := some position })

/-- A result and the tokens after it, which are fewer than the given ones. -/
structure Parsed (α : Type) (given : List Token) where
  value : α
  rest : List Token
  shorter : rest.length < given.length

/-- A result and the tokens after it, which are no more than the given ones. -/
structure Continued (α : Type) (given : List Token) where
  value : α
  rest : List Token
  noLonger : rest.length ≤ given.length

/-- The spelling and the position of the next token; the end of the text counts as one. -/
def next (stop : Nat) : List Token → String × Nat
  | [] => ("EOF", stop)
  | t :: _ => (t.lexeme.text, t.position)

def startsWith (s : Symbol) : List Token → Bool
  | t :: _ => t.lexeme = .symbol s
  | [] => false

def expect (stop : Nat) (s : Symbol) (ts : List Token) : Except Failure (Parsed Unit ts) :=
  match ts with
  | [] => wrong []
  | t :: rest =>
    if t.lexeme = .symbol s then .ok ⟨(), rest, Nat.lt_succ_self _⟩ else wrong (t :: rest)
where
  wrong {α : Type} (ts : List Token) : Except Failure α :=
    let (found, position) := next stop ts
    refuse (.expected (quoted (String.ofList s.chars)) found) position

def expectName (stop : Nat) (ts : List Token) : Except Failure (Parsed String ts) :=
  match ts with
  | ⟨.name cs, _⟩ :: rest => .ok ⟨String.ofList cs, rest, Nat.lt_succ_self _⟩
  | ts =>
    let (found, position) := next stop ts
    refuse (.expected "ident" found) position

/-- The operators of a level, from the tightest, level one, to the loosest, level six, and the tree
each builds. -/
def joinAt : Nat → Symbol → Option (Expr Placeholder → Expr Placeholder → Expr Placeholder)
  | 6, .either => some (.logical .either)
  | 5, .both => some (.logical .both)
  | 4, .equal => some (.binary .equal)
  | 4, .differ => some (.binary .differ)
  | 4, .strictEqual => some (.binary .strictEqual)
  | 4, .strictDiffer => some (.binary .strictDiffer)
  | 3, .below => some (.binary .below)
  | 3, .above => some (.binary .above)
  | 3, .atMost => some (.binary .atMost)
  | 3, .atLeast => some (.binary .atLeast)
  | 2, .plus => some (.binary .add)
  | 2, .minus => some (.binary .subtract)
  | 1, .times => some (.binary .multiply)
  | 1, .slash => some (.binary .divide)
  | 1, .percent => some (.binary .remainder)
  | _, _ => none

def joinOf (level : Nat) (t : Token) : Option (Expr Placeholder → Expr Placeholder → Expr Placeholder) :=
  match t.lexeme with
  | .symbol s => joinAt level s
  | _ => none

def unaryOf (t : Token) : Option UnaryOp :=
  match t.lexeme with
  | .symbol .bang => some .not
  | .symbol .minus => some .negate
  | .symbol .plus => some .plus
  | .name cs => if cs = "typeof".toList then some .typeof else none
  | _ => none

/-- The tree of a name: a constant, the binding context or a variable. -/
def nameTree (cs : List Char) : Expr Placeholder :=
  let s := String.ofList cs
  if s = "true" then .constant .yes
  else if s = "false" then .constant .no
  else if s = "null" || s = "undefined" then .constant .null
  else if s = "this" then .this
  else .name s

/-- The key that a token is, and the value it stands for when it is alone. -/
def keyOf (t : Token) : Except Failure (Key Placeholder × Option (Expr Placeholder)) :=
  match t.lexeme with
  | .name cs => .ok (.name (String.ofList cs), some (.name (String.ofList cs)))
  | .string q => .ok (.literal (.string q), none)
  | .number cs => (numberText cs).map fun text => (.number text, none)
  | l => refuse (.invalidKey l.text) t.position

mutual

/-- `conditional [ "=" assign ]`, with a name, member or index on the left. -/
def assign (stop : Nat) (ts : List Token) : Except Failure (Parsed (Expr Placeholder) ts) := do
  let ⟨node, rest, h⟩ ← conditional stop ts
  match rest, h with
  | [], h => return ⟨node, [], h⟩
  | t :: after, h =>
    if t.lexeme = .symbol .assign then
      if node.isTarget then
        let ⟨value, rest, h'⟩ ← assign stop after
        return ⟨.assign node value, rest, Nat.lt_trans h' (Nat.lt_of_succ_lt h)⟩
      else refuse .invalidTarget t.position
    else return ⟨node, t :: after, h⟩
termination_by (ts.length, 11)
decreasing_by
  · exact Prod.Lex.right _ (by decide)
  · exact Prod.Lex.left _ _ (Nat.lt_of_succ_lt h)

/-- `operation [ "?" assign ":" assign ]`. -/
def conditional (stop : Nat) (ts : List Token) : Except Failure (Parsed (Expr Placeholder) ts) := do
  let ⟨node, rest, h⟩ ← operation stop 6 ts
  match rest, h with
  | [], h => return ⟨node, [], h⟩
  | t :: after, h =>
    if t.lexeme = .symbol .question then
      let ⟨yes, rest₁, h₁⟩ ← assign stop after
      let ⟨_, rest₂, h₂⟩ ← expect stop .colon rest₁
      let ⟨no, rest₃, h₃⟩ ← assign stop rest₂
      return ⟨.conditional node yes no, rest₃, by simp only [List.length_cons] at h; omega⟩
    else return ⟨node, t :: after, h⟩
termination_by (ts.length, 10)
decreasing_by
  · exact Prod.Lex.right _ (by decide)
  · exact Prod.Lex.left _ _ (by simp only [List.length_cons] at h; omega)
  · exact Prod.Lex.left _ _ (by simp only [List.length_cons] at h; omega)

/-- Operands of the next tighter level joined by the operators of a level. -/
def operation (stop : Nat) (level : Nat) (ts : List Token) : Except Failure (Parsed (Expr Placeholder) ts) :=
  match level with
  | 0 => unary stop ts
  | level + 1 => do
    let ⟨left, rest, h⟩ ← operation stop level ts
    let ⟨node, rest', h'⟩ ← joined stop level left rest
    return ⟨node, rest', Nat.lt_of_le_of_lt h' h⟩
termination_by (ts.length, level + 3)
decreasing_by
  · exact Prod.Lex.right _ (by simp)
  · exact Prod.Lex.right _ (by simp)
  · exact Prod.Lex.left _ _ h

/-- The operators of a level and their right operands, applied to what stands on the left. -/
def joined (stop : Nat) (level : Nat) (left : Expr Placeholder) (ts : List Token) :
    Except Failure (Continued (Expr Placeholder) ts) :=
  match ts with
  | [] => .ok ⟨left, [], Nat.le_refl _⟩
  | t :: after =>
    match joinOf (level + 1) t with
    | none => .ok ⟨left, t :: after, Nat.le_refl _⟩
    | some join => do
      let ⟨right, rest, h⟩ ← operation stop level after
      let ⟨node, rest', h'⟩ ← joined stop level (join left right) rest
      return ⟨node, rest', by simp only [List.length_cons]; omega⟩
termination_by (ts.length, level + 3)
decreasing_by all_goals exact Prod.Lex.left _ _ (by simp only [List.length_cons]; omega)

/-- `operator unary | postfix`. -/
def unary (stop : Nat) (ts : List Token) : Except Failure (Parsed (Expr Placeholder) ts) :=
  match ts with
  | [] => refuse .unexpectedEnd stop
  | t :: after =>
    match unaryOf t with
    | some op => do
      let ⟨operand, rest, h⟩ ← unary stop after
      return ⟨.unary op operand, rest, Nat.lt_succ_of_lt h⟩
    | none => do
      let ⟨root, rest, h⟩ ← primary stop (t :: after)
      let ⟨node, rest', h'⟩ ← links stop root rest
      return ⟨node, rest', Nat.lt_of_le_of_lt h' h⟩
termination_by (ts.length, 2)
decreasing_by
  · exact Prod.Lex.left _ _ (by simp)
  · exact Prod.Lex.right _ (by decide)
  · exact Prod.Lex.left _ _ h

def links (stop : Nat) (node : Expr Placeholder) (ts : List Token) : Except Failure (Continued (Expr Placeholder) ts) :=
  match ts with
  | [] => .ok ⟨node, [], Nat.le_refl _⟩
  | t :: after =>
    match t.lexeme with
    | .symbol .dot => do
      let ⟨name, rest, h⟩ ← expectName stop after
      let ⟨node, rest', h'⟩ ← links stop (.member node name) rest
      return ⟨node, rest', by simp only [List.length_cons]; omega⟩
    | .symbol .openBracket => do
      let ⟨key, rest₁, h₁⟩ ← assign stop after
      let ⟨_, rest₂, h₂⟩ ← expect stop .closeBracket rest₁
      let ⟨node, rest', h'⟩ ← links stop (.index node key) rest₂
      return ⟨node, rest', by simp only [List.length_cons]; omega⟩
    | .symbol .openParen => do
      let ⟨arguments, rest, h⟩ ← items stop .closeParen after
      let ⟨node, rest', h'⟩ ← links stop (.call node arguments) rest
      return ⟨node, rest', by simp only [List.length_cons]; omega⟩
    | _ => .ok ⟨node, t :: after, Nat.le_refl _⟩
termination_by (ts.length, 0)
decreasing_by all_goals exact Prod.Lex.left _ _ (by simp only [List.length_cons]; omega)

/-- A literal, a name, a parenthesised expression, an array or an object. -/
def primary (stop : Nat) (ts : List Token) : Except Failure (Parsed (Expr Placeholder) ts) :=
  match ts with
  | [] => refuse .unexpectedEnd stop
  | t :: after =>
    match t.lexeme with
    | .number cs => do
      let text ← numberText cs
      return ⟨.number text, after, Nat.lt_succ_self _⟩
    | .string q => .ok ⟨.literal (.string q), after, Nat.lt_succ_self _⟩
    | .pattern => .ok ⟨.literal .pattern, after, Nat.lt_succ_self _⟩
    | .name cs => .ok ⟨nameTree cs, after, Nat.lt_succ_self _⟩
    | .symbol .openParen => do
      let ⟨node, rest₁, h₁⟩ ← assign stop after
      let ⟨_, rest₂, h₂⟩ ← expect stop .closeParen rest₁
      return ⟨node, rest₂, by simp only [List.length_cons]; omega⟩
    | .symbol .openBracket => do
      let ⟨elements, rest, h⟩ ← items stop .closeBracket after
      return ⟨.array elements, rest, Nat.lt_succ_of_lt h⟩
    | .symbol .openBrace => do
      let ⟨entries, rest, h⟩ ← properties stop after
      return ⟨.object entries, rest, Nat.lt_succ_of_lt h⟩
    | .symbol s => refuse (.unexpected (String.ofList s.chars)) t.position
termination_by (ts.length, 1)
decreasing_by all_goals exact Prod.Lex.left _ _ (by simp)

/-- Expressions with commas between them, up to and including the closing symbol. -/
def items (stop : Nat) (close : Symbol) (ts : List Token) : Except Failure (Parsed (List (Expr Placeholder)) ts) :=
  match ts with
  | [] => refuse .unexpectedEnd stop
  | t :: after =>
    if t.lexeme = .symbol close then .ok ⟨[], after, Nat.lt_succ_self _⟩
    else do
      let ⟨item, rest₁, h₁⟩ ← assign stop (t :: after)
      if startsWith close rest₁ then
        let ⟨_, rest₂, h₂⟩ ← expect stop close rest₁
        return ⟨[item], rest₂, Nat.lt_trans h₂ h₁⟩
      else
        let ⟨_, rest₂, h₂⟩ ← expect stop .comma rest₁
        let ⟨more, rest₃, h₃⟩ ← items stop close rest₂
        return ⟨item :: more, rest₃, by omega⟩
termination_by (ts.length, 12)
decreasing_by
  · exact Prod.Lex.right _ (by decide)
  · exact Prod.Lex.left _ _ (by omega)

def properties (stop : Nat) (ts : List Token) :
    Except Failure (Parsed (List (Key Placeholder × Expr Placeholder)) ts) :=
  match ts with
  | [] => refuse (.invalidKey "EOF") stop
  | t :: after =>
    if t.lexeme = .symbol .closeBrace then .ok ⟨[], after, Nat.lt_succ_self _⟩
    else do
      let (key, shorthand) ← keyOf t
      let ⟨value, rest₁, h₁⟩ ← property stop shorthand after
      if startsWith .closeBrace rest₁ then
        let ⟨_, rest₂, h₂⟩ ← expect stop .closeBrace rest₁
        return ⟨[(key, value)], rest₂, by simp only [List.length_cons]; omega⟩
      else
        let ⟨_, rest₂, h₂⟩ ← expect stop .comma rest₁
        let ⟨more, rest₃, h₃⟩ ← properties stop rest₂
        return ⟨(key, value) :: more, rest₃, by simp only [List.length_cons]; omega⟩
termination_by (ts.length, 12)
decreasing_by all_goals exact Prod.Lex.left _ _ (by simp only [List.length_cons]; omega)

/-- The value after a key: `":" assign`, or nothing when the key can stand alone. -/
def property (stop : Nat) (shorthand : Option (Expr Placeholder)) (ts : List Token) :
    Except Failure (Continued (Expr Placeholder) ts) :=
  if startsWith .colon ts then do
    let ⟨_, rest₁, h₁⟩ ← expect stop .colon ts
    let ⟨value, rest₂, h₂⟩ ← assign stop rest₁
    return ⟨value, rest₂, by omega⟩
  else
    match shorthand with
    | some value => .ok ⟨value, ts, Nat.le_refl _⟩
    | none => refuse .missingColon (next stop ts).2
termination_by (ts.length, 12)
decreasing_by
  · exact Prod.Lex.left _ _ h₁

end

end Parser

def ofTokens (stop : Nat) (ts : List Token) : Except Failure (Expr Placeholder) :=
  if ts.isEmpty then Parser.refuse .emptyExpression 0
  else do
    let ⟨node, rest, _⟩ ← Parser.assign stop ts
    match rest with
    | [] => return node
    | t :: _ => Parser.refuse (.unexpected t.lexeme.text) t.position

/-- The tree of an expression text whose literals are set aside and whose pipes are removed. That the nesting of an
expression is limited where recursion is, is left out. -/
def parse (cs : List Char) : Except Failure (Expr Placeholder) :=
  match tokenize cs with
  | .error f => .error (.fault f)
  | .ok ts => ofTokens cs.length ts

end NullSafe.Surface
