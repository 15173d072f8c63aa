import NullSafe.Code.Basic
import NullSafe.Scope
import NullSafe.Surface.Parser
import NullSafe.Surface.Words

/-! # Generating code

Every link of a property chain that is applied to a value that may be missing is guarded, so that a
missing value makes the whole chain missing. A value that is tested and then used is kept in a temporary,
except where it is a parameter. Values that are never missing are not tested. In an assignment the last
link is a write behind the same guards.
-/

namespace NullSafe

open Surface

variable {ι : Type}

inductive Test where
  | present
  | callable
  deriving DecidableEq, Repr

/-- A test before the rest of a chain, and the temporary that keeps the tested value. -/
structure Guard (ι : Type) where
  test : Test
  kept : Option Nat
  tested : Code ι

def Guard.wrap (g : Guard ι) (body : Code ι) : Code ι :=
  match g.test with
  | .present => .unlessNull g.kept g.tested body
  | .callable => .whenCallable g.kept g.tested body

/-- Code that may still be extended by links: the guards passed so far, outermost first, and the value
behind them. -/
structure Chain (ι : Type) where
  guards : List (Guard ι)
  head : Code ι
  present : Bool
  /-- The value can be repeated instead of kept in a temporary. -/
  repeatable : Bool

def guarded (guards : List (Guard ι)) (code : Code ι) : Code ι :=
  guards.foldr Guard.wrap code

def Chain.close (c : Chain ι) : Code ι := guarded c.guards c.head

/-- Generation numbers temporaries and may refuse an assignment. -/
abbrev Emit := StateT Nat (Except Fault)

def newTemporary : Emit Nat := do
  let n ← get
  set (n + 1)
  return n + 1

/-- The guards of a chain and a test of its value, and the tested value. -/
def Chain.guard (c : Chain ι) (test : Test) : Emit (List (Guard ι) × Code ι) := do
  if c.repeatable then return (c.guards ++ [⟨test, none, c.head⟩], c.head)
  else
    let n ← newTemporary
    return (c.guards ++ [⟨test, some n, c.head⟩], .temporary n)

/-- The guards after which the value of a chain is known to be there, and the value. -/
def Chain.demand (c : Chain ι) : Emit (List (Guard ι) × Code ι) :=
  if c.present then return (c.guards, c.head) else c.guard .present

def Chain.demandCallable (c : Chain ι) : Emit (List (Guard ι) × Code ι) := c.guard .callable

/-- A chain without guards whose value has to be tested before it is used. -/
def Chain.plain (code : Code ι) : Chain ι := ⟨[], code, false, false⟩

def Chain.known (code : Code ι) : Chain ι := ⟨[], code, true, false⟩

def keywordCode (name : String) : Code ι :=
  if name = "_globals_" then .globals else .formatters

def Scope.chain (scope : Scope) (name : String) : Chain ι :=
  match scope.classify name with
  | .argument => ⟨[], .parameter ((scope.parameter? name).getD name), false, true⟩
  | .global => .known (.global name)
  | .keyword => ⟨[], keywordCode name, true, true⟩
  | .context => .plain (.operate .get [.this, .key name])

def Scope.assign (scope : Scope) (name : String) (value : Emit (Code ι)) : Emit (Code ι) :=
  match scope.classify name with
  | .argument => do return .setParameter ((scope.parameter? name).getD name) (← value)
  | .global => do return .operate .set [.globals, .key name, ← value]
  | .keyword => throw { cause := .cannotAssign name }
  | .context => do return .operate .set [.this, .key name, ← value]

def unaryCode : UnaryOp → Code ι → Code ι
  | .not, x => .not x
  | .negate, x => .operate .negate [x]
  | .plus, x => .operate .plus [x]
  | .typeof, x => .operate .typeof [x]

def binaryCode : BinaryOp → Code ι → Code ι → Code ι
  | .equal, l, r | .strictEqual, l, r => .equal l r
  | .differ, l, r | .strictDiffer, l, r => .differ l r
  | .below, l, r => .operate .below [l, r]
  | .above, l, r => .operate .above [l, r]
  | .atMost, l, r => .operate .atMost [l, r]
  | .atLeast, l, r => .operate .atLeast [l, r]
  | .add, l, r => .operate .add [l, r]
  | .subtract, l, r => .operate .subtract [l, r]
  | .multiply, l, r => .operate .multiply [l, r]
  | .divide, l, r => .operate .divide [l, r]
  | .remainder, l, r => .operate .remainder [l, r]

def keyCode : Key ι → Code ι
  | .name text => .key text
  | .literal x => .literal x
  | .number text => .key text

mutual

def emitChain (scope : Scope) : Expr ι → Emit (Chain ι)
  | .number text => return .known (.number text)
  | .literal x => return .known (.literal x)
  | .constant c => return .plain (.constant c)
  | .this => return ⟨[], .this, true, true⟩
  | .name n => return scope.chain n
  | .array items => do return .known (.array (← emitAll scope items))
  | .object entries => do return .known (.object (← emitEntries scope entries))
  | .member target name => do
    let (guards, value) ← (← emitChain scope target).demand
    return ⟨guards, .operate .get [value, .key name], false, false⟩
  | .index target key => do
    let (guards, value) ← (← emitChain scope target).demand
    let key ← emitChain scope key
    return ⟨guards, .operate .get [value, key.close], false, false⟩
  | .call callee arguments => do
    let (guards, value) ← (← emitChain scope callee).demandCallable
    let arguments ← emitAll scope arguments
    return ⟨guards, .apply value arguments, false, false⟩
  | .unary op operand => do return .plain (unaryCode op (← emitChain scope operand).close)
  | .binary op left right => do
    let left ← emitChain scope left
    let right ← emitChain scope right
    return .plain (binaryCode op left.close right.close)
  | .logical op left right => do
    let left ← emitChain scope left
    let right ← emitChain scope right
    return .plain (.logical op left.close right.close)
  | .conditional test yes no => do
    let n ← newTemporary
    let test ← emitChain scope test
    let yes ← emitChain scope yes
    let no ← emitChain scope no
    return .plain (.choose n test.close yes.close no.close)
  | .assign (.name n) value => do
    return .plain (← scope.assign n (do return (← emitChain scope value).close))
  | .assign (.member target name) value => do
    let (guards, object) ← (← emitChain scope target).demand
    let value ← emitChain scope value
    return .plain (guarded guards (.operate .set [object, .key name, value.close]))
  | .assign (.index target key) value => do
    let (guards, object) ← (← emitChain scope target).demand
    let key ← emitChain scope key
    let value ← emitChain scope value
    return .plain (guarded guards (.operate .set [object, key.close, value.close]))
  | .assign (.call _ _) _ => throw { cause := .assignToCall }
  | .assign _ _ => throw { cause := .invalidTarget }

def emitAll (scope : Scope) : List (Expr ι) → Emit (List (Code ι))
  | [] => return []
  | t :: rest => do
    let c ← emitChain scope t
    return c.close :: (← emitAll scope rest)

def emitEntries (scope : Scope) : List (Key ι × Expr ι) → Emit (List (Code ι × Code ι))
  | [] => return []
  | (k, t) :: rest => do
    let c ← emitChain scope t
    return (keyCode k, c.close) :: (← emitEntries scope rest)

end

def emit (scope : Scope) (t : Expr ι) : Except Fault (Body ι) := do
  let (c, n) ← (emitChain scope t).run 0
  return ⟨n, c.close⟩

/-- The code of an expression text whose literals are set aside and whose pipes are removed. -/
def generate (scope : Scope) (cs : List Char) : Except Failure (Body Placeholder) := do
  let tree ← parse (replaceWords cs)
  match emit scope tree with
  | .ok body => return body
  | .error f => throw (.fault f)

section Generate

variable {scope : Scope} {cs : List Char}

theorem generate_of_unparsed {f : Failure} (h : parse (replaceWords cs) = .error f) : generate scope cs = .error f := by
  rw [generate, h]
  rfl

theorem generate_of_parse {t : Expr Placeholder} (h : parse (replaceWords cs) = .ok t) :
    generate scope cs = match emit scope t with
      | .ok body => .ok body
      | .error f => .error (.fault f) := by
  rw [generate, h]
  rfl

end Generate

end NullSafe
