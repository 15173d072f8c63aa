import NullSafe.Number.Basic
import NullSafe.Pattern.Matcher
import NullSafe.Value.Snapshot

/-! # Values

The values that expressions compute with. Lists, tuples, mappings and objects are references into the
world, so that a change is seen through every reference. A number that is none carries a mark: it equals
nothing, but a container that holds it equals itself.
-/

namespace NullSafe

/-- The functions that every expression can reach. -/
inductive Native where
  | parseInt | parseFloat | isNaN | array
  | round | sign | max | min
  | abs | ceil | floor | trunc | pow | sqrt | log | exp | sin | cos | tan | random
  | len | str | int | sum | bool
  deriving DecidableEq, Repr

inductive Method where
  | upper | lower | title | strip | split | replace | find | join | startsWith | endsWith | count
  | isDigit | append | pop | index | reverse | isInteger
  | match_ | search | sub | findAll | group | start
  deriving DecidableEq, Repr

/-- The place of a list, tuple, mapping, object or match in the world. -/
abbrev Ref := Nat

inductive Function where
  | host (name : String)
  | native (f : Native)
  deriving DecidableEq, Repr

inductive Value where
  | null
  | bool (b : Bool)
  | int (i : Int)
  /-- A floating-point number other than the one that is none. -/
  | float (x : Float)
  /-- The number that is none, with its mark. -/
  | nan (mark : Nat)
  | str (s : String)
  | bytes (bs : List UInt8)
  | list (r : Ref)
  | tuple (r : Ref)
  | dict (r : Ref)
  | object (r : Ref)
  | function (f : Function)
  | method (self : Value) (m : Method)
  | pattern (body : String) (flags : Pattern.Flags)
  | found (r : Ref)
  deriving DecidableEq, Inhabited

/-- A class of the host. Reading or writing an attribute that it computes runs code of the host. -/
structure HostClass where
  name : String
  callable : Bool := false
  computed : List String := []
  deriving DecidableEq, Repr, Inhabited

/-- What a value with attributes is besides them. -/
inductive ObjectKind where
  | plain
  | math
  | window
  | host (cls : HostClass)
  /-- Calls its attribute `fn` without, or where the function asks for it with, the first argument. -/
  | bound
  deriving DecidableEq, Repr, Inhabited

/-- The attributes that the class of an object computes. -/
def ObjectKind.computed : ObjectKind → List String
  | host cls => cls.computed
  | _ => []

structure Object where
  kind : ObjectKind
  attributes : List (String × Value)
  deriving DecidableEq, Inhabited

structure Found where
  text : List Char
  result : Pattern.Match
  names : List (String × Nat)
  deriving DecidableEq, Inhabited

/-- The group of a match with a name; one that took no part is missing. -/
def Found.namedGroup? (f : Found) (name : String) : Option Value := do
  let n ← f.names.lookup name
  let span ← f.result.groups[n - 1]?
  return span.elim .null fun (a, b) => .str (String.ofList (Pattern.slice f.text a b))

/-- Everything that evaluation can change. -/
structure World where
  lists : Array (List Value) := #[]
  tuples : Array (List Value) := #[]
  dicts : Array (List (Value × Value)) := #[]
  objects : Array Object := #[]
  founds : Array Found := #[]
  attributes : List (Function × List (String × Value)) := []
  /-- The next unused mark of a number that is none. -/
  marks : Nat := 1
  journal : List (List Snapshot) := []
  /-- How many items one step can make; it is the machine that sets this limit. -/
  memory : Nat := Number.wordLimit
  deriving Inhabited

inductive Raised where
  /-- An operand or argument of the wrong type, or a wrong number of arguments. -/
  | mistyped
  | invalidValue
  | divisionByZero
  | overflow
  | outOfRange
  | noAttribute
  | noKey
  | malformedPattern
  | tooDeep
  | outOfMemory
  | unknownYear
  /-- An encoding, or a way to treat bytes that it does not have, that is not known. -/
  | unknownEncoding
  | undecodable
  | host (message : String)
  deriving DecidableEq, Repr

/-- Evaluation: changes to the world stay when it raises. -/
abbrev Run := ExceptT Raised (StateM World)

def Value.missingNumber : Value := .nan 0

namespace World

def list (w : World) (r : Ref) : List Value := w.lists[r]?.getD []

def tuple (w : World) (r : Ref) : List Value := w.tuples[r]?.getD []

def dict (w : World) (r : Ref) : List (Value × Value) := w.dicts[r]?.getD []

def object (w : World) (r : Ref) : Object := w.objects[r]?.getD default

def found (w : World) (r : Ref) : Found := w.founds[r]?.getD default

def functionAttributes (w : World) (f : Function) : List (String × Value) :=
  (w.attributes.lookup f).getD []

def setList (w : World) (r : Ref) (items : List Value) : World :=
  { w with lists := w.lists.setIfInBounds r items }

def setDict (w : World) (r : Ref) (entries : List (Value × Value)) : World :=
  { w with dicts := w.dicts.setIfInBounds r entries }

def setObject (w : World) (r : Ref) (o : Object) : World :=
  { w with objects := w.objects.setIfInBounds r o }

def newList (w : World) (items : List Value) : Value × World :=
  (.list w.lists.size, { w with lists := w.lists.push items })

def newTuple (w : World) (items : List Value) : Value × World :=
  (.tuple w.tuples.size, { w with tuples := w.tuples.push items })

def newDict (w : World) (entries : List (Value × Value)) : Value × World :=
  (.dict w.dicts.size, { w with dicts := w.dicts.push entries })

def newObject (w : World) (o : Object) : Value × World :=
  (.object w.objects.size, { w with objects := w.objects.push o })

def newFound (w : World) (f : Found) : Value × World :=
  (.found w.founds.size, { w with founds := w.founds.push f })

/-- The number of places. A path through the world that is longer passes one of them twice. -/
def size (w : World) : Nat :=
  w.lists.size + w.tuples.size + w.dicts.size + w.objects.size

end World

def putAttribute {α : Type} (attributes : List (String × α)) (name : String) (v : α) : List (String × α) :=
  if attributes.any (·.1 = name) then
    attributes.map fun (n, old) => if n = name then (n, v) else (n, old)
  else attributes ++ [(name, v)]

namespace Run

def newList (items : List Value) : Run Value := modifyGet (World.newList · items)

def newTuple (items : List Value) : Run Value := modifyGet (World.newTuple · items)

def newDict (entries : List (Value × Value)) : Run Value := modifyGet (World.newDict · entries)

def newObject (o : Object) : Run Value := modifyGet (World.newObject · o)

def newFound (f : Found) : Run Value := modifyGet (World.newFound · f)

/-- The value of a floating-point result. A number that is none is a new one. -/
def ofFloat (x : Float) : Run Value := do
  if x.isNaN then
    let w ← get
    set { w with marks := w.marks + 1 }
    return .nan w.marks
  else return .float x

end Run

def mathFunctions : List (String × Native) :=
  [("abs", .abs), ("ceil", .ceil), ("floor", .floor), ("round", .round), ("trunc", .trunc),
    ("sign", .sign), ("max", .max), ("min", .min), ("pow", .pow), ("sqrt", .sqrt), ("log", .log),
    ("exp", .exp), ("sin", .sin), ("cos", .cos), ("tan", .tan), ("random", .random)]

def windowFunctions : List (String × Native) :=
  [("len", .len), ("abs", .abs), ("str", .str), ("int", .int), ("sum", .sum), ("bool", .bool)]

def functionEntries (fs : List (String × Native)) : List (String × Value) :=
  fs.map fun (name, f) => (name, .function (.native f))

/-- The world before anything happened: it holds the two namespaces. -/
def World.initial : World where
  objects := #[
    ⟨.math, [("PI", .float (Float.ofBits 0x400921FB54442D18)),
      ("E", .float (Float.ofBits 0x4005BF0A8B145769))] ++ functionEntries mathFunctions⟩,
    ⟨.window, functionEntries windowFunctions⟩]

def Value.math : Value := .object 0

def Value.window : Value := .object 1

def defaultGlobals : List (String × Value) :=
  [("window", .window), ("Math", .math), ("parseInt", .function (.native .parseInt)),
    ("parseFloat", .function (.native .parseFloat)), ("isNaN", .function (.native .isNaN)),
    ("Array", .function (.native .array))]

def Method.name : Method → String
  | upper => "upper"
  | lower => "lower"
  | title => "title"
  | strip => "strip"
  | split => "split"
  | replace => "replace"
  | find => "find"
  | join => "join"
  | startsWith => "startswith"
  | endsWith => "endswith"
  | count => "count"
  | isDigit => "isdigit"
  | append => "append"
  | pop => "pop"
  | index => "index"
  | reverse => "reverse"
  | isInteger => "is_integer"
  | match_ => "match"
  | search => "search"
  | sub => "sub"
  | findAll => "findall"
  | group => "group"
  | start => "start"

def textMethods : List Method :=
  [.upper, .lower, .title, .strip, .split, .replace, .find, .join, .startsWith, .endsWith, .count, .isDigit]

def Value.methods : Value → List Method
  | .str _ => textMethods
  | .list _ => [.append, .pop, .index, .count, .reverse]
  | .tuple _ => [.count]
  | .float _ | .nan _ => [.isInteger]
  | .pattern _ _ => [.match_, .search, .sub, .findAll]
  | .found _ => [.group, .start]
  | _ => []

end NullSafe
