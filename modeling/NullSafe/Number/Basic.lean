import NullSafe.Number.Binary64

/-! # Arithmetic

Whole numbers are exact and of any size; an operation with a floating-point number is done in floating
point. Division by zero is refused also there.
-/

namespace NullSafe

inductive Number where
  | int (i : Int)
  | float (x : Float)
  | nan
  deriving DecidableEq, Repr

namespace Number

/-- Machine integers are below this limit and not below its negative. -/
def wordLimit : Nat := 0x8000000000000000

def halfWordLimit : Nat := 0x80000000

inductive Fault where
  | divisionByZero
  | overflow
  deriving DecidableEq, Repr

def ofFloat (x : Float) : Number := if x.isNaN then .nan else .float x

def toFloat : Number → Except Fault Float
  | int i =>
    match ofInt? i with
    | some x => .ok x
    | none => .error .overflow
  | float x => .ok x
  | nan => .ok notANumber

def isNan : Number → Bool
  | nan => true
  | _ => false

def floating (f : Float → Float → Float) (a b : Number) : Except Fault Number := do
  let x ← a.toFloat
  let y ← b.toFloat
  return if a.isNan || b.isNan then .nan else ofFloat (f x y)

def add : Number → Number → Except Fault Number
  | int a, int b => .ok (int (a + b))
  | a, b => floating (· + ·) a b

def sub : Number → Number → Except Fault Number
  | int a, int b => .ok (int (a - b))
  | a, b => floating (· - ·) a b

def mul : Number → Number → Except Fault Number
  | int a, int b => .ok (int (a * b))
  | a, b => floating (· * ·) a b

/-- The quotient of two numbers, always in floating point. That of whole numbers is rounded once. -/
def div : Number → Number → Except Fault Number
  | int a, int b =>
    if b = 0 then .error .divisionByZero
    else
      let bits := quotientBits a.natAbs b.natAbs
      if bits = infinityBits then .error .overflow
      else .ok (float (signed (decide (a < 0) != decide (b < 0)) bits))
  | a, b => do
    let _ ← a.toFloat
    let y ← b.toFloat
    if y == 0 then throw .divisionByZero
    floating (· / ·) a b

/-- The remainder of a floating-point division, with the sign of the divisor. -/
def floatRemainder (x y : Float) : Float :=
  let r := truncatedRemainder x y
  if r == 0 then signed (decide (y < 0)) 0
  else if decide (y < 0) != decide (r < 0) then r + y
  else r

/-- The remainder of two numbers, with the sign of the divisor. -/
def mod : Number → Number → Except Fault Number
  | int a, int b => if b = 0 then .error .divisionByZero else .ok (int (Int.fmod a b))
  | a, b => do
    let _ ← a.toFloat
    let y ← b.toFloat
    if y == 0 then throw .divisionByZero
    floating floatRemainder a b

def neg : Number → Number
  | int a => int (-a)
  | float x => float (-x)
  | nan => nan

/-- How two numbers compare, exactly; not at all when one is none. -/
def compare? : Number → Number → Option Ordering
  | int a, int b => some (compare a b)
  | int a, float y => compareInt? a y
  | float x, int b => (compareInt? b x).map Ordering.swap
  | float x, float y => if x < y then some .lt else if x == y then some .eq else some .gt
  | _, _ => none

def equal (a b : Number) : Bool := compare? a b = some .eq

def isTrue : Number → Bool
  | int a => a != 0
  | float x => !(x == 0)
  | nan => true

end Number

end NullSafe
