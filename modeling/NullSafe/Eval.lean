import NullSafe.Call
import NullSafe.Code.Fill

/-! # Running generated code

Generated code runs in a frame that holds the binding context, the globals, the formatters, the
parameters and the temporaries. Operands and arguments are evaluated from left to right, each once.
-/

namespace NullSafe

open Surface

structure Frame where
  this : Value
  globals : Value
  formatters : Value
  parameters : List (String × Value) := []
  temporaries : List (Nat × Value) := []
  deriving Inhabited

namespace Frame

def parameter (f : Frame) (name : String) : Value := (f.parameters.lookup name).getD .null

/-- The value of a temporary; before it is set it is missing. -/
def temporary (f : Frame) (n : Nat) : Value := (f.temporaries.lookup n).getD .null

def setParameter (f : Frame) (name : String) (v : Value) : Frame :=
  { f with parameters := putAttribute f.parameters name v }

def setTemporary (f : Frame) (n : Nat) (v : Value) : Frame :=
  { f with temporaries := (n, v) :: f.temporaries.filter (·.1 ≠ n) }

end Frame

abbrev Eval := StateT Frame Run

/-- Carries out an operation on what values hold themselves. -/
def Operation.run (op : Operation) (args : List Value) : Run Value := do
  match op, args with
  | .get, [obj, key] => Run.getProperty obj key
  | .set, [obj, key, v] => Run.setProperty obj key v
  | .add, [a, b] => Run.add a b
  | .subtract, [a, b] => Run.subtract a b
  | .multiply, [a, b] => Run.multiply a b
  | .divide, [a, b] => Run.divide a b
  | .remainder, [a, b] => Run.remainder a b
  | .negate, [v] => Run.negate v
  | .plus, [v] => Run.unaryPlus v
  | .below, [a, b] => Run.related .below a b
  | .above, [a, b] => Run.related .above a b
  | .atMost, [a, b] => Run.related .atMost a b
  | .atLeast, [a, b] => Run.related .atLeast a b
  | .callable, [v] => return .bool ((← getThe World).isCallable v)
  | .typeof, [v] => return .str (Run.typeName (← getThe World) v)
  | .pattern, [body] => Run.makePattern body (.str "")
  | .pattern, [body, flags] => Run.makePattern body flags
  | _, _ => throw .mistyped

/-- What code gives, unless it says that there is no such attribute. -/
def Run.orMissing (x : Run Value) : Run (Option Value) :=
  tryCatch (some <$> x) fun e => if e = .noAttribute then return none else throw e

/-- Reads an attribute of an object that its class computes. The one with which an object is called is read once more
when it is there. -/
def Run.readComputed (cls : HostClass) (name : String) (r : Ref) (getter : Run Value) : Run Value := do
  if name = "call" && cls.callable then
    if (← getter.orMissing).isNone then newObject ⟨.bound, [("fn", .object r)]⟩
    else return (← getter.orMissing).getD .null
  else return (← getter.orMissing).getD .null

/-- The code of the host that an operation on an object runs. -/
def Host.accessor? (host : Host) (w : World) (op : Operation) (args : List Value) : Option (Run Value) :=
  match op, args with
  | .get, [.object r, .str name] =>
    (w.computing? r name).map fun cls => Run.readComputed cls name r (host.getter cls name r)
  | .set, [.object r, .str name, v] =>
    (w.computing? r name).map fun cls => do host.setter cls name r v; return v
  | _, _ => none

/-- Carries out an operation. The attributes that classes of the host compute are read and written by the host. -/
def Host.operate (host : Host) (op : Operation) (args : List Value) : Run Value := do
  match host.accessor? (← get) op args with
  | some access => access
  | none => op.run args

/-- What generated code calls: the values of the host, and the operations by their names. -/
structure Surroundings where
  host : Host
  operate : Operation → List Value → Run Value

def numeralValue (text : String) : Value :=
  let cs := text.toList
  if cs.all Text.isDecimal then .int (Text.ofDecimal cs)
  else .float ((Number.floatOfNumeral? cs).getD 0)

def Surface.Constant.value : Constant → Value
  | .yes => .bool true
  | .no => .bool false
  | .null => .null

/-- The value of a leaf. One that found no literal is an empty text. Texts are of characters: what a literal with the
code of a surrogate denotes is left out. -/
def Leaf.eval (s : Surroundings) : Leaf → Run Value
  | .literal (.text codes) => return .str (String.ofList (codes.map Char.ofNat))
  | .literal (.pattern body flags) => s.operate .pattern [.str body, .str flags]
  | .unfilled _ => return .str ""

def globalValue (globals : Value) (name : String) : Run Value := do
  match globals with
  | .dict r =>
    match ← Run.ofExcept fun w => w.lookup (w.dict r) (.str name) with
    | some v => return v
    | none => throw .noKey
  | _ => throw .mistyped

/-- A new mapping with entries given in order; a key that comes again takes the later value. -/
def buildDict (entries : List (Value × Value)) : Run Value := do
  let entries ← entries.foldlM (fun (acc : List (Value × Value)) (kv : Value × Value) =>
    Run.ofExcept fun w => w.insert acc kv.1 kv.2) ([] : List (Value × Value))
  Run.newDict entries

namespace Code

def keep (n : Option Nat) (v : Value) : Eval Unit :=
  match n with
  | some n => modify (·.setTemporary n v)
  | none => pure ()

mutual

def eval (s : Surroundings) : Code Leaf → Eval Value
  | number text => return numeralValue text
  | literal x => x.eval s
  | constant c => return c.value
  | this => return (← get).this
  | globals => return (← get).globals
  | formatters => return (← get).formatters
  | parameter name => return (← get).parameter name
  | key text => return .str text
  | global name => do globalValue (← get).globals name
  | temporary n => return (← get).temporary n
  | setParameter name value => do
    let v ← eval s value
    modify (·.setParameter name v)
    return v
  | array items => do
    let vs ← evalAll s items
    Run.newList vs
  | object entries => do
    let vs ← evalEntries s entries
    buildDict vs
  | operate op arguments => do
    let vs ← evalAll s arguments
    s.operate op vs
  | apply callee arguments => do
    let f ← eval s callee
    let vs ← evalAll s arguments
    Run.callValue s.host f vs
  | not operand => do
    let v ← eval s operand
    return .bool (!(← getThe World).isTrue v)
  | logical op left right => do
    let v ← eval s left
    let truth := (← getThe World).isTrue v
    match op with
    | .both => if truth then eval s right else return v
    | .either => if truth then return v else eval s right
  | equal left right => do
    let a ← eval s left
    let b ← eval s right
    return .bool (← Run.ofExcept (·.equal a b))
  | differ left right => do
    let a ← eval s left
    let b ← eval s right
    return .bool (!(← Run.ofExcept (·.equal a b)))
  | choose n test yes no => do
    let v ← eval s test
    modify (·.setTemporary n v)
    if (← getThe World).isTrue v then eval s yes else eval s no
  | unlessNull n test body => do
    let v ← eval s test
    keep n v
    if v = .null then return .null else eval s body
  | whenCallable n test body => do
    let v ← eval s test
    keep n v
    let callable ← s.operate .callable [v]
    if (← getThe World).isTrue callable then eval s body else return .null

def evalAll (s : Surroundings) : List (Code Leaf) → Eval (List Value)
  | [] => return []
  | c :: rest => do
    let v ← eval s c
    let vs ← evalAll s rest
    return v :: vs

def evalEntries (s : Surroundings) : List (Code Leaf × Code Leaf) → Eval (List (Value × Value))
  | [] => return []
  | (k, v) :: rest => do
    let k ← eval s k
    let v ← eval s v
    let vs ← evalEntries s rest
    return (k, v) :: vs

end

end Code

structure Program where
  name : String
  parameters : List String
  body : Body Leaf
  setter : Bool

namespace Program

/-- The frame for a call. The first three arguments are the binding context, the globals and the formatters;
missing parameters are null. -/
def frame? (p : Program) (args : List Value) : Option Frame :=
  match args with
  | this :: globals :: formatters :: rest =>
    if rest.length ≤ p.parameters.length then
      some { this, globals, formatters, parameters :=
        p.parameters.zip (rest ++ List.replicate (p.parameters.length - rest.length) Value.null) }
    else none
  | _ => none

/-- Runs a generated function. Under its own name it hides the operation with that name. -/
def runWithin (host : Host) (p : Program) : Nat → List Value → Run Value
  | 0, _ => throw .tooDeep
  | fuel + 1, args => do
    match p.frame? args with
    | none => throw .mistyped
    | some frame =>
      let operate (op : Operation) (args : List Value) : Run Value :=
        if op.name = p.name then runWithin host p fuel args else host.operate op args
      let (v, _) ← (p.body.code.eval { host, operate }).run frame
      return if p.setter then .null else v

def maxDepth : Nat := 1000

def run (host : Host) (p : Program) (args : List Value) : Run Value := p.runWithin host maxDepth args

end Program

end NullSafe
