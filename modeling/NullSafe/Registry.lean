import NullSafe.Name
import NullSafe.Value.Convert

/-! # Registries of globals

The globals that every expression of a compiler can use, by name. Names are checked when they are
registered; a later registration of a name replaces its value.
-/

namespace NullSafe

/-- The registered globals, in the order of their first registration. -/
structure Registry where
  entries : List (String × Value) := []
  deriving DecidableEq, Inhabited

namespace Registry

inductive Fault where
  | invalidName (written : String)
  | reservedName (name : String)
  | unknownName (text : String)
  /-- The name is no possible name at all. -/
  | raised (e : Raised)
  deriving DecidableEq, Repr

/-- The report of a refused operation; errors of evaluation have none. -/
def Fault.message? : Fault → Option String
  | invalidName written => some ("invalid global name: " ++ written)
  | reservedName name => some ("global name is reserved: " ++ quoted name)
  | unknownName text => some ("unknown global: " ++ text)
  | raised _ => none

def shown (text : Except Raised String) (report : String → Fault) : Fault :=
  match text with
  | .ok s => report s
  | .error e => .raised e

def checkName (w : World) (name : Value) : Except Fault String :=
  match name with
  | .str s =>
    if !Name.isName s then .error (.invalidName (quoted s))
    else if Name.isReserved s then .error (.reservedName s)
    else .ok s
  | v => .error (shown (w.written v) .invalidName)

def find? (r : Registry) (name : String) : Option Value := r.entries.lookup name

def register (r : Registry) (w : World) (name v : Value) : Except Fault Registry := do
  let name ← checkName w name
  return ⟨putAttribute r.entries name v⟩

/-- Registers each of several texts of two characters, the second under the first, up to the first text that has
not two. -/
def addPairs (r : Registry) : List String → Registry × Option Fault
  | [] => (r, none)
  | text :: rest =>
    match text.toList with
    | [name, v] => addPairs ⟨putAttribute r.entries name.toString (.str v.toString)⟩ rest
    | _ => (r, some (.raised .invalidValue))

/-- Registers the entries of a mapping, or pairs, after all names have been checked. Gives the registry, and what
stopped it. -/
def update (r : Registry) (w : World) (values : Value) : Registry × Option Fault :=
  let checked : Except Fault (List String) := do
    let names ← (w.items values).mapError .raised
    names.mapM (checkName w)
  match checked, values with
  | .error f, _ => (r, some f)
  | .ok names, .dict d =>
    (⟨(names.zip ((w.dict d).map (·.2))).foldl (fun es (name, v) => putAttribute es name v) r.entries⟩, none)
  | .ok names, _ => r.addPairs names

def entry (r : Registry) (w : World) (name : Value) : Except Fault (Option (String × Value)) :=
  if !w.hashable name then .error (.raised .mistyped)
  else
    match name with
    | .str s => .ok ((r.find? s).map (s, ·))
    | _ => .ok none

def unregister (r : Registry) (w : World) (name : Value) : Except Fault Registry := do
  match ← r.entry w name with
  | some (s, _) => return ⟨r.entries.filter (·.1 ≠ s)⟩
  | none => throw (shown (w.text name) .unknownName)

def get (r : Registry) (w : World) (name : Value) : Except Fault Value := do
  match ← r.entry w name with
  | some (_, v) => return v
  | none => throw (shown (w.text name) .unknownName)

def contains (r : Registry) (w : World) (name : Value) : Except Fault Bool := do
  return (← r.entry w name).isSome

def names (r : Registry) : List String := (r.entries.map (·.1)).mergeSort (· ≤ ·)

/-- The registry with the entries of a mapping, the first bad name of which is refused. What is false as a
condition has no entries. -/
def ofValue (w : World) (values : Value) : Except Fault Registry :=
  match values with
  | .dict r => (w.dict r).foldlM (fun registry (name, v) => registry.register w name v) {}
  | v => if w.isTrue v then .error (.raised .noAttribute) else .ok {}

def standard : Registry := ⟨defaultGlobals⟩

end Registry

end NullSafe
