import NullSafe.Value.Text

/-! # Reading and writing properties

One operation reads entries of mappings, items of sequences and attributes of objects; what is not there
is missing. One operation writes them: lists grow to take an item behind their end, and writes to values
that cannot change are dropped.

The attributes here are those that a value holds itself; the ones that its class computes are for the host. Of what
built-in values are born with, the methods of `Value.methods`, the parts of numbers and the texts of patterns are
there; other methods, the rest of patterns and matches, and the special attributes that every value has from its
class (two underscores before and behind) are left out, except that the class and the collection of attributes of an
object cannot be written.
-/

namespace NullSafe

/-- The position that a key stands for: a whole number, or a text of digits. A text with digits that are
not decimal ones stands for none and is refused. -/
def Value.index? : Value → Except Raised (Option Int)
  | .int i => .ok (some i)
  | .float x => .ok (if Number.isWhole x then Number.truncate? x else none)
  | .str s =>
    let cs := s.toList
    if cs.isEmpty || !cs.all Text.isDigit then .ok none
    else
      match Number.readInt? cs with
      | some i => .ok (some i)
      | none => .error .invalidValue
  | _ => .ok none

namespace World

def sequence? (w : World) : Value → Option (List Value)
  | .list r => some (w.list r)
  | .tuple r => some (w.tuple r)
  | .str s => some (s.toList.map fun c => .str c.toString)
  | .bytes bs => some (bs.map fun b => .int b.toNat)
  | _ => none

def isCallable (w : World) : Value → Bool
  | .function _ | .method _ _ => true
  | .object r =>
    match (w.object r).kind with
    | .host cls => cls.callable
    | .bound => true
    | _ => false
  | _ => false

/-- What a whole number is made of. -/
def wholeAttribute? (i : Int) : String → Option Value
  | "real" | "numerator" => some (.int i)
  | "imag" => some (.int 0)
  | "denominator" => some (.int 1)
  | _ => none

def attribute? (w : World) (v : Value) (name : String) : Option Value :=
  match v with
  | .object r => (w.object r).attributes.lookup name
  | .function f => (w.functionAttributes f).lookup name
  | v =>
    match v.methods.find? (·.name = name) with
    | some m => some (.method v m)
    | none =>
      match v, name with
      | .int i, name => wholeAttribute? i name
      | .bool b, name => wholeAttribute? (if b then 1 else 0) name
      | .float _, "real" | .nan _, "real" => some v
      | .float _, "imag" | .nan _, "imag" => some (.float 0)
      | .pattern body _, "pattern" => some (.str body)
      | _, _ => none

/-- The class that computes an attribute of an object. -/
def computing? (w : World) (r : Ref) (name : String) : Option HostClass :=
  match (w.object r).kind with
  | .host cls => if cls.computed.contains name then some cls else none
  | _ => none

end World

namespace Run

def item (items : List Value) (i : Int) : Value :=
  if 0 ≤ i then items[i.toNat]?.getD .null else .null

/-- The attribute of a value with a name. `length` and `call` are there also where the value has no such
attribute: the first on everything that has a length, the second on everything that can be called. -/
def attributeOf (obj : Value) (name : String) : Run Value := do
  let w ← get
  match w.attribute? obj name with
  | some v => return v
  | none =>
    if name = "length" then
      return (w.sequence? obj).elim .null fun items => .int items.length
    else if name = "call" && w.isCallable obj then Run.newObject ⟨.bound, [("fn", obj)]⟩
    else return .null

def getProperty (obj key : Value) : Run Value := do
  let w ← get
  match obj with
  | .null => return .null
  | .dict r =>
    if w.hashableType key then return (← Run.ofExcept (·.lookup (w.dict r) key)).getD .null
    else return .null
  | _ =>
    match w.sequence? obj, ← Run.ofExcept fun _ => if (w.sequence? obj).isSome then key.index? else .ok none with
    | some items, some i => return item items i
    | _, _ =>
      match key with
      | .str name => attributeOf obj name
      | _ => return .null

def writeItem (memory : Nat) (items : List Value) (i : Int) (v : Value) : Except Raised (List Value) :=
  let n := items.length
  if i < n then
    let j := if i < 0 then i + n else i
    if j < 0 then .error .outOfRange else .ok (items.set j.toNat v)
  else
    let gap := (i - n).toNat
    if gap ≥ Number.wordLimit then .error .overflow
    else if gap ≥ memory then .error .outOfMemory
    else .ok (items ++ List.replicate gap Value.null ++ [v])

def takesAttributes : Native → Bool
  | .parseInt | .parseFloat | .isNaN | .round | .sign | .max | .min => true
  | _ => false

def isType : Native → Bool
  | .array | .str | .int | .bool => true
  | _ => false

def setFunctionAttribute (f : Function) (name : String) (v : Value) : Run Unit :=
  modify fun w =>
    let rest := w.attributes.filter (·.1 ≠ f)
    { w with attributes := (f, putAttribute (w.functionAttributes f) name v) :: rest }

def classMark : String := "__class__"

/-- The attributes of an object that cannot be written, apart from its class: the collection of all of them, and what
does not fit a bound call. -/
def takesAttribute (name : String) : ObjectKind → Bool
  | .bound => name = "fn"
  | _ => name ≠ "__dict__"

/-- Writes an attribute. The class of a value stays what it is. -/
def setAttribute (obj : Value) (name : String) (v : Value) : Run Unit :=
  if name = classMark then throw .mistyped
  else
    match obj with
    | .object r => do
      let o := (← get).object r
      if takesAttribute name o.kind then
        modify fun w => w.setObject r { o with attributes := putAttribute o.attributes name v }
      else throw .noAttribute
    | .function (.native f) =>
      if takesAttributes f then setFunctionAttribute (.native f) name v
      else if isType f then throw .mistyped
      else throw .noAttribute
    | .function f => setFunctionAttribute f name v
    | _ => throw .noAttribute

def isFixed : Value → Bool
  | .null | .str _ | .bytes _ | .int _ | .float _ | .nan _ | .bool _ | .tuple _ => true
  | _ => false

/-- Writes a property of a value. The result is the value written. -/
def setProperty (obj key v : Value) : Run Value := do
  if isFixed obj then return v
  match obj with
  | .dict r =>
    let entries ← Run.ofExcept fun w => w.insert (w.dict r) key v
    modify (·.setDict r entries)
    return v
  | .list r =>
    match ← Run.ofExcept fun _ => key.index? with
    | some i =>
      let items ← Run.ofExcept fun w => writeItem w.memory (w.list r) i v
      modify (·.setList r items)
      return v
    | none =>
      match key with
      | .str name => setAttribute obj name v; return v
      | _ => throw .mistyped
  | _ =>
    match key with
    | .str name =>
      setAttribute obj name v
      return v
    | _ => throw .mistyped

end Run

end NullSafe
