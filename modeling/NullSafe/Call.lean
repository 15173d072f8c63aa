import NullSafe.Native.General
import NullSafe.Native.Patterns
import NullSafe.Native.Sequences
import NullSafe.Native.Texts

/-! # Calls

Calling a value with arguments. Functions of the host, and the calls and computed attributes of the objects of its
classes, are supplied from outside; everything else is native. Classes that redefine operators, texts, truth or
equality of their objects are left out.
-/

namespace NullSafe

/-- What the host supplies: its functions by name, and which of them want the binding context as
their first argument; and of the objects of its classes, the calls and the attributes that are computed. -/
structure Host where
  call : String → List Value → Run Value
  wantsContext : String → Bool := fun _ => false
  invoke : HostClass → Ref → List Value → Run Value := fun _ _ _ => throw .mistyped
  getter : HostClass → String → Ref → Run Value := fun _ _ _ => throw .noAttribute
  setter : HostClass → String → Ref → Value → Run Unit := fun _ _ _ _ => throw .noAttribute

def contextMark : String := "__safexpr_pass_context__"

/-- Whether a value wants the binding context when it is called: its mark says so, or else the host. -/
def Host.isContextAware (host : Host) (w : World) (v : Value) : Bool :=
  let marked (attributes : List (String × Value)) : Option Bool := (attributes.lookup contextMark).map w.isTrue
  match v with
  | .object r => (marked (w.object r).attributes).getD false
  | .function (.host name) =>
    (marked (w.functionAttributes (.host name))).getD (host.wantsContext name)
  | .function f => (marked (w.functionAttributes f)).getD false
  | _ => false

namespace Run

def callMethod (call : Value → List Value → Run Value) (self : Value) (m : Method) (args : List Value) : Run Value :=
  match self with
  | .str s => Native.textMethod s m args
  | .list r => Native.listMethod r m args
  | .tuple r => Native.tupleMethod r m args
  | .float x => if args.isEmpty then return .bool (Number.isWhole x) else throw .mistyped
  | .nan _ => if args.isEmpty then return .bool false else throw .mistyped
  | .pattern body flags => Native.patternMethod call body flags m args
  | .found r => Native.foundMethod r m args
  | _ => throw .mistyped

def callObject (host : Host) (call : Value → List Value → Run Value) (r : Ref) (args : List Value) :
    Run Value := do
  let o := (← get).object r
  match o.kind with
  | .host cls => if cls.callable then host.invoke cls r args else throw .mistyped
  | .bound =>
    let f := (o.attributes.lookup "fn").getD .null
    match args with
    | [] => throw .mistyped
    | this :: rest => if host.isContextAware (← get) f then call f (this :: rest) else call f rest
  | _ => throw .mistyped

/-- Calls a value, through at most the given number of others. -/
def callWithin (host : Host) : Nat → Value → List Value → Run Value
  | 0, _, _ => throw .tooDeep
  | fuel + 1, f, args =>
    match f with
    | .function (.host name) => host.call name args
    | .function (.native f) => f.call args
    | .method self m => callMethod (callWithin host fuel) self m args
    | .object r => callObject host (callWithin host fuel) r args
    | _ => throw .mistyped

def callValue (host : Host) (f : Value) (args : List Value) : Run Value := do
  callWithin host ((← get).objects.size + 3) f args

end Run

end NullSafe
