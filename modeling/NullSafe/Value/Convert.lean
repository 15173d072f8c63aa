import NullSafe.Number.Reading
import NullSafe.Value.Access

/-! # Conversions

Values as whole numbers, floating-point numbers and sequences of items.
-/

namespace NullSafe.World

def asciiText? (bs : List UInt8) : Option (List Char) :=
  if bs.all (· < 0x80) then some (bs.map fun b => Char.ofNat b.toNat) else none

def require {α : Type} (e : Raised) : Option α → Except Raised α
  | some a => .ok a
  | none => .error e

def wholePart (x : Float) : Except Raised Int :=
  match Number.parts x with
  | .nan => .error .invalidValue
  | .infinite _ => .error .overflow
  | .finite _ _ _ => require .invalidValue (Number.truncate? x)

def toInt : Value → Except Raised Int
  | .bool b => .ok (if b then 1 else 0)
  | .int i => .ok i
  | .float x => wholePart x
  | .nan _ => .error .invalidValue
  | .str s => require .invalidValue (Number.readInt? s.toList)
  | .bytes bs => require .invalidValue ((asciiText? bs).bind Number.readInt?)
  | _ => .error .mistyped

def toFloat : Value → Except Raised Float
  | .bool b => .ok (if b then 1 else 0)
  | .int i => require .overflow (Number.ofInt? i)
  | .float x => .ok x
  | .nan _ => .ok Number.notANumber
  | .str s => require .invalidValue (Number.readFloat? s.toList)
  | .bytes bs => require .invalidValue ((asciiText? bs).bind Number.readFloat?)
  | _ => .error .mistyped

def numberToFloat (v : Value) : Except Raised Float :=
  if v.number?.isSome then toFloat v else .error .mistyped

def toIndex : Value → Except Raised Int
  | .bool b => .ok (if b then 1 else 0)
  | .int i => .ok i
  | _ => .error .mistyped

def toSize (v : Value) : Except Raised Int := do
  let i ← toIndex v
  if -(Number.wordLimit : Int) ≤ i && i < Number.wordLimit then return i else throw .overflow

def items (w : World) (v : Value) : Except Raised (List Value) :=
  match v with
  | .dict r => .ok ((w.dict r).map (·.1))
  | v => require .mistyped (w.sequence? v)

def pair (w : World) (v : Value) : Except Raised (Value × Value) := do
  match ← w.items v with
  | [k, x] => return (k, x)
  | _ => throw .invalidValue

/-- Entries with those of a value put over them: the entries of a mapping, or items that are pairs. -/
def updated (w : World) (entries : List (Value × Value)) : Value → Except Raised (List (Value × Value))
  | .dict r => (w.dict r).foldlM (fun entries (k, x) => w.insert entries k x) entries
  | v => do
    (← w.items v).foldlM (fun entries item => do
      let (k, x) ← w.pair item
      w.insert entries k x) entries

def best (w : World) (rel : Relation) (first : Value) : List Value → Except Raised Value
  | [] => .ok first
  | v :: rest => do
    let better ← w.relate rel v first
    w.best rel (if better then v else first) rest

end NullSafe.World
