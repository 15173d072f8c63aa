import NullSafe.Format.Fill

/-! # Arithmetic and comparison of values

Adding to a text joins texts; a missing operand gives the number that is none. The other operations take
their operands as numbers: a text is read as one, and what is no number is none. Operands that are neither
numbers nor texts keep the meaning they have by themselves: lists can be joined and repeated, and values can be
filled into bytes.
-/

namespace NullSafe.Run

/-- The value of a number. A number that is none is a new one. -/
def ofNumber (n : Number) : Run Value :=
  match n with
  | .int i => return .int i
  | .float x => return .float x
  | .nan => ofFloat Number.notANumber

def ofArithmetic : Except Number.Fault Number → Run Value
  | .ok n => ofNumber n
  | .error .divisionByZero => throw .divisionByZero
  | .error .overflow => throw .overflow

def plus (a b : Value) : Run Value := do
  let w ← get
  match a.number?, b.number? with
  | some m, some n => ofArithmetic (m.add n)
  | _, _ =>
    match a, b with
    | .list r, .list s => newList (w.list r ++ w.list s)
    | .tuple r, .tuple s => newTuple (w.tuple r ++ w.tuple s)
    | .bytes s, .bytes t => return .bytes (s ++ t)
    | _, _ => throw .mistyped

def add (a b : Value) : Run Value := do
  match a, b with
  | .str _, _ | _, .str _ =>
    let s ← ofExcept (·.display a)
    let t ← ofExcept (·.display b)
    return .str (s ++ t)
  | .null, _ | _, .null => return .missingNumber
  | a, b => plus a b

/-- A value taken as a number; one that is neither a number nor a text stays. -/
def toNumber (v : Value) : Run Value := do
  match v with
  | .null => return .missingNumber
  | .bool b => return .int (if b then 1 else 0)
  | .str s =>
    let text := Text.trim s.toList
    if text.isEmpty then return .int 0
    else
      match Number.readFloat? text with
      | some x => ofFloat x
      | none => return .missingNumber
  | v => return v

def operands (a b : Value) : Run (Value × Value) := do
  let a ← toNumber a
  let b ← toNumber b
  return (a, b)

def numeric (op : Number → Number → Except Number.Fault Number) (a b : Value) : Run Value :=
  match a.number?, b.number? with
  | some m, some n => ofArithmetic (op m n)
  | _, _ => throw .mistyped

def subtract (a b : Value) : Run Value := do
  let (a, b) ← operands a b
  numeric Number.sub a b

def divide (a b : Value) : Run Value := do
  let (a, b) ← operands a b
  numeric Number.div a b

/-- Items repeated a number of times. The number must fit a machine integer, and so must the number of items,
unless the memory ends first. -/
def repeatItems {α : Type} (memory : Nat) (items : List α) (times : Int) (tooMany : Raised) : Except Raised (List α) :=
  let n := times.toNat
  if times < -(Number.wordLimit : Int) || Number.wordLimit ≤ times then .error .overflow
  else if n * items.length ≥ Number.wordLimit then .error tooMany
  else if n * items.length ≥ memory then .error .outOfMemory
  else .ok (List.replicate (if items.isEmpty then 0 else n) items).flatten

def repeatValue (v : Value) (times : Int) : Run Value := do
  match v with
  | .list r => newList (← ofExcept fun w => repeatItems w.memory (w.list r) times .outOfMemory)
  | .tuple r => newTuple (← ofExcept fun w => repeatItems w.memory (w.tuple r) times .outOfMemory)
  | .bytes bs => return .bytes (← ofExcept fun w => repeatItems w.memory bs times .overflow)
  | _ => throw .mistyped

def multiply (a b : Value) : Run Value := do
  let (a, b) ← operands a b
  match a.number?, b.number? with
  | some m, some n => ofArithmetic (m.mul n)
  | some (.int i), none => repeatValue b i
  | none, some (.int i) => repeatValue a i
  | _, _ => throw .mistyped

def fillBytes (bs : List UInt8) (v : Value) : Run Value := do
  let cs ← ofExcept fun w => Format.fill w .bytes (Format.byteChars bs) (.ofValue w .bytes v)
  return .bytes (Format.charBytes cs)

/-- The remainder of two values. Bytes are a template that the other value is filled into. -/
def remainder (a b : Value) : Run Value := do
  let (a, b) ← operands a b
  match a with
  | .bytes bs => fillBytes bs b
  | _ => numeric Number.mod a b

def negate (v : Value) : Run Value := do
  match (← toNumber v).number? with
  | some n => ofNumber n.neg
  | none => throw .mistyped

def unaryPlus (v : Value) : Run Value := do
  let v ← toNumber v
  match v with
  | .int _ | .float _ | .nan _ => return v
  | _ => throw .mistyped

/-- Whether an order relation holds; a missing operand, or operands without order, are in none. -/
def related (rel : World.Relation) (a b : Value) : Run Value := do
  match a, b with
  | .null, _ | _, .null => return .bool false
  | a, b =>
    match (← get).relate rel a b with
    | .ok r => return .bool r
    | .error .mistyped => return .bool false
    | .error e => throw e

def typeName (w : World) : Value → String
  | .null => "undefined"
  | .bool _ => "boolean"
  | .int _ | .float _ | .nan _ => "number"
  | .str _ => "string"
  | v => if w.isCallable v then "function" else "object"

def flagLetters (w : World) (v : Value) : Except Raised (List Char) := do
  if !w.hashable v then throw .mistyped
  return (← w.items v).filterMap fun item =>
    match item with
    | .str s => if s.length = 1 then s.toList.head? else none
    | _ => none

/-- The pattern with a body and flags. A pattern is a body without flags. -/
def makePattern (body flags : Value) : Run Value := do
  let flags : Pattern.Flags := .ofLetters (← ofExcept fun w => flagLetters w flags)
  match body with
  | .str body =>
    match Pattern.compile body.toList flags with
    | .ok p => return .pattern body p.flags
    | .error .malformed => throw .malformedPattern
    | .error .tooLarge => throw .overflow
    | .error .invalid => throw .invalidValue
  | .pattern body own => if flags.letters.isEmpty then return .pattern body own else throw .invalidValue
  | _ => throw .mistyped

end NullSafe.Run
