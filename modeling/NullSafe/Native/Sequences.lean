import NullSafe.Value.Arithmetic

/-! # Methods of lists and tuples -/

namespace NullSafe.Native

def positionOf (w : World) (v : Value) (pos : Nat) : List Value → Except Raised (Option Nat)
  | [] => .ok none
  | a :: rest => do
    if ← w.sameItem a v then return some pos else positionOf w v (pos + 1) rest

def occurrences (w : World) (v : Value) : List Value → Except Raised Nat
  | [] => .ok 0
  | a :: rest => do
    let here ← w.sameItem a v
    let n ← occurrences w v rest
    return if here then n + 1 else n

/-- A position counted from the end when it is negative, at least zero. -/
def fromEnd (length : Nat) (i : Int) : Nat := if i < 0 then (i + length).toNat else i.toNat

def indexBound (length missing : Nat) : Option Value → Run Nat
  | some b => return fromEnd length (← Run.ofExcept fun _ => World.toIndex b)
  | none => return missing

def indexIn (items : List Value) (v : Value) (bounds : List Value) : Run Value := do
  let start ← indexBound items.length 0 bounds[0]?
  let stop ← indexBound items.length items.length bounds[1]?
  match ← Run.ofExcept fun w => positionOf w v start ((items.take stop).drop start) with
  | some i => return .int i
  | none => throw .invalidValue

def pop (r : Ref) (i : Int) : Run Value := do
  let items := (← get).list r
  let j := if i < 0 then i + items.length else i
  if 0 ≤ j then
    match items[j.toNat]? with
    | some v =>
      modify (·.setList r (items.eraseIdx j.toNat))
      return v
    | none => throw .outOfRange
  else throw .outOfRange

def listMethod (r : Ref) (m : Method) (args : List Value) : Run Value := do
  let items := (← get).list r
  match m, args with
  | .append, [v] =>
    modify (·.setList r (items ++ [v]))
    return .null
  | .pop, [] => pop r (-1)
  | .pop, [i] => pop r (← Run.ofExcept fun _ => World.toSize i)
  | .index, v :: bounds => if bounds.length ≤ 2 then indexIn items v bounds else throw .mistyped
  | .count, [v] => return .int (← Run.ofExcept fun w => occurrences w v items)
  | .reverse, [] =>
    modify (·.setList r items.reverse)
    return .null
  | _, _ => throw .mistyped

def tupleMethod (r : Ref) (m : Method) (args : List Value) : Run Value := do
  match m, args with
  | .count, [v] =>
    let items := (← get).tuple r
    return .int (← Run.ofExcept fun w => occurrences w v items)
  | _, _ => throw .mistyped

end NullSafe.Native
