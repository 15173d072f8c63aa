import NullSafe.Code.Emit
import NullSafe.Eval

/-! # Evaluating a tree directly

An expression is evaluated on its tree: every part at most once, from left to right. A chain of links
stops at the first link whose object is missing or whose callee cannot be called; nothing of the rest of
the chain is evaluated, and its value is missing. Values that are known to be there are not tested.
-/

namespace NullSafe

open Surface

/-- The variables of an expression. The extra arguments have the names that the expression uses. -/
structure Env where
  this : Value
  globals : Value
  formatters : Value
  arguments : List (String × Value)

abbrev Direct := StateT Env Run

namespace Env

def argument (e : Env) (name : String) : Value := (e.arguments.lookup name).getD .null

def setArgument (e : Env) (name : String) (v : Value) : Env :=
  { e with arguments := putAttribute e.arguments name v }

/-- The variables at the start of an evaluation. Arguments that are not given are missing. -/
def start (names : List String) (this globals formatters : Value) (extra : List Value) : Env :=
  ⟨this, globals, formatters, names.zip (extra ++ List.replicate (names.length - extra.length) Value.null)⟩

end Env

namespace Direct

def readName (s : Surroundings) (scope : Scope) (name : String) : Direct Value := do
  let e ← get
  match scope.classify name with
  | .argument => return e.argument name
  | .global => globalValue e.globals name
  | .keyword => return if name = "_globals_" then e.globals else e.formatters
  | .context => s.operate .get [e.this, .str name]

def writeName (s : Surroundings) (scope : Scope) (name : String) (value : Direct Value) : Direct Value :=
  match scope.classify name with
  | .argument => do
    let v ← value
    modify (·.setArgument name v)
    return v
  | .global => do
    let e ← get
    let v ← value
    s.operate .set [e.globals, .str name, v]
  | .keyword => throw .mistyped
  | .context => do
    let e ← get
    let v ← value
    s.operate .set [e.this, .str name, v]

/-- Whether the value of a tree is taken to be there without a test. -/
def isPresent {ι : Type} (scope : Scope) : Expr ι → Bool
  | .number _ | .literal _ | .this | .array _ | .object _ => true
  | .name n => scope.classify n = .global || scope.classify n = .keyword
  | _ => false

def isThere {ι : Type} (scope : Scope) (t : Expr ι) (v : Value) : Direct Bool :=
  return isPresent scope t || v ≠ .null

def canBeCalled (s : Surroundings) (v : Value) : Direct Bool := do
  let callable ← s.operate .callable [v]
  return (← getThe World).isTrue callable

/-- Goes on from what a chain has reached, unless it has stopped or the test stops it. -/
def onward (x : Direct (Option Value)) (test : Value → Direct Bool) (next : Value → Direct Value) :
    Direct (Option Value) := do
  match ← x with
  | none => return none
  | some v => if ← test v then some <$> next v else return none

def whole (x : Direct (Option Value)) : Direct Value := return (← x).getD .null

def unaryValue (s : Surroundings) (op : UnaryOp) (v : Value) : Direct Value := do
  match op with
  | .not => return .bool (!(← getThe World).isTrue v)
  | .negate => s.operate .negate [v]
  | .plus => s.operate .plus [v]
  | .typeof => s.operate .typeof [v]

def binaryValue (s : Surroundings) (op : BinaryOp) (a b : Value) : Direct Value := do
  match op with
  | .equal | .strictEqual => return .bool (← Run.ofExcept (·.equal a b))
  | .differ | .strictDiffer => return .bool (!(← Run.ofExcept (·.equal a b)))
  | .below => s.operate .below [a, b]
  | .above => s.operate .above [a, b]
  | .atMost => s.operate .atMost [a, b]
  | .atLeast => s.operate .atLeast [a, b]
  | .add => s.operate .add [a, b]
  | .subtract => s.operate .subtract [a, b]
  | .multiply => s.operate .multiply [a, b]
  | .divide => s.operate .divide [a, b]
  | .remainder => s.operate .remainder [a, b]

def keyValue (s : Surroundings) : Key Leaf → Direct Value
  | .name text | .number text => return .str text
  | .literal x => x.eval s

mutual

/-- What the chain of a tree reaches; nothing when it stops on the way. -/
def reach (s : Surroundings) (scope : Scope) : Expr Leaf → Direct (Option Value)
  | .number text => return some (numeralValue text)
  | .literal x => some <$> (x.eval s : Direct Value)
  | .constant c => return some c.value
  | .this => return some (← get).this
  | .name n => some <$> readName s scope n
  | .array items => do
    let vs ← values s scope items
    some <$> (Run.newList vs : Direct Value)
  | .object entries => do
    let kvs ← entryValues s scope entries
    some <$> (buildDict kvs : Direct Value)
  | .member target name =>
    onward (reach s scope target) (isThere scope target) fun v => s.operate .get [v, .str name]
  | .index target key =>
    onward (reach s scope target) (isThere scope target) fun v => do
      let k ← whole (reach s scope key)
      s.operate .get [v, k]
  | .call callee arguments =>
    onward (reach s scope callee) (canBeCalled s) fun f => do
      let vs ← values s scope arguments
      Run.callValue s.host f vs
  | .unary op operand => do
    let v ← whole (reach s scope operand)
    some <$> unaryValue s op v
  | .binary op left right => do
    let a ← whole (reach s scope left)
    let b ← whole (reach s scope right)
    some <$> binaryValue s op a b
  | .logical op left right => do
    let v ← whole (reach s scope left)
    let truth := (← getThe World).isTrue v
    match op with
    | .both => if truth then some <$> whole (reach s scope right) else return some v
    | .either => if truth then return some v else some <$> whole (reach s scope right)
  | .conditional test yes no => do
    let v ← whole (reach s scope test)
    if (← getThe World).isTrue v then some <$> whole (reach s scope yes)
    else some <$> whole (reach s scope no)
  | .assign (.name n) value => some <$> writeName s scope n (whole (reach s scope value))
  | .assign (.member target name) value =>
    some <$> whole (onward (reach s scope target) (isThere scope target) fun v => do
      let x ← whole (reach s scope value)
      s.operate .set [v, .str name, x])
  | .assign (.index target key) value =>
    some <$> whole (onward (reach s scope target) (isThere scope target) fun v => do
      let k ← whole (reach s scope key)
      let x ← whole (reach s scope value)
      s.operate .set [v, k, x])
  | .assign _ _ => throw .mistyped

def values (s : Surroundings) (scope : Scope) : List (Expr Leaf) → Direct (List Value)
  | [] => return []
  | t :: rest => do
    let v ← whole (reach s scope t)
    let vs ← values s scope rest
    return v :: vs

def entryValues (s : Surroundings) (scope : Scope) : List (Key Leaf × Expr Leaf) → Direct (List (Value × Value))
  | [] => return []
  | (k, t) :: rest => do
    let k ← keyValue s k
    let v ← whole (reach s scope t)
    let kvs ← entryValues s scope rest
    return (k, v) :: kvs

end

def eval (s : Surroundings) (scope : Scope) (t : Expr Leaf) : Direct Value := whole (reach s scope t)

end Direct

end NullSafe
