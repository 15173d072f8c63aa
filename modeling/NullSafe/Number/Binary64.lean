/-! # Floating-point numbers exactly

A finite floating-point number is a whole number times a power of two. Quotients of whole numbers are
rounded to the nearest such number, ties to the even one, in exact arithmetic.
-/

namespace NullSafe.Number

inductive Parts where
  | nan
  | infinite (negative : Bool)
  /-- `mantissa * 2 ^ exponent`, with a sign. -/
  | finite (negative : Bool) (mantissa : Nat) (exponent : Int)
  deriving DecidableEq, Repr

/-- The bit of the sign. -/
def signBit : Nat := 0x8000000000000000

/-- The lowest bit of the exponent. It is also the least mantissa that uses all places. -/
def exponentBit : Nat := 0x10000000000000

def parts (x : Float) : Parts :=
  let bits := x.toBits.toNat
  let negative := bits / signBit == 1
  let field : Nat := bits / exponentBit % 2048
  let fraction := bits % exponentBit
  if field = 2047 then if fraction = 0 then .infinite negative else .nan
  else if field = 0 then .finite negative fraction (-1074)
  else .finite negative (exponentBit + fraction) ((field : Int) - 1075)

def signed (negative : Bool) (bits : Nat) : Float :=
  Float.ofBits (UInt64.ofNat (if negative then signBit + bits else bits))

def infinityBits : Nat := 2047 * exponentBit

def infinity : Float := signed false infinityBits

def notANumber : Float := Float.ofBits 0x7FF8000000000000

/-- Divides to the nearest whole number, a tie to the even one. -/
def roundDiv (n d : Nat) : Nat :=
  let q := n / d
  let twice := 2 * (n % d)
  if twice > d || (twice = d && q % 2 = 1) then q + 1 else q

def scaled (n : Nat) (exponent : Int) : Nat × Nat :=
  if 0 ≤ exponent then (n <<< exponent.toNat, 1) else (n, 1 <<< (-exponent).toNat)

def quotientBits (n d : Nat) : Nat :=
  if n = 0 || d = 0 then 0
  else
    let start : Int := max ((n.log2 : Int) - d.log2 - 53) (-1074)
    let at_ (e : Int) : Nat × Nat :=
      if 0 ≤ e then (n, d <<< e.toNat) else (n <<< (-e).toNat, d)
    let exponent := if (at_ start).1 / (at_ start).2 < 2 * exponentBit then start else start + 1
    let mantissa := roundDiv (at_ exponent).1 (at_ exponent).2
    if mantissa < exponentBit then mantissa
    else min (((exponent + 1075).toNat) * exponentBit + (mantissa - exponentBit)) infinityBits

/-- The floating-point number nearest to `n / d`, with a sign; infinity when it is too large. -/
def ofQuotient (negative : Bool) (n d : Nat) : Float := signed negative (quotientBits n d)

/-- The floating-point number nearest to a whole number, unless it is too large. -/
def ofInt? (i : Int) : Option Float :=
  let bits := quotientBits i.natAbs 1
  if bits = infinityBits then none else some (signed (i < 0) bits)

def isWhole (x : Float) : Bool :=
  match parts x with
  | .finite _ m e => let (n, d) := scaled m e; n % d = 0
  | _ => false

def truncate? (x : Float) : Option Int :=
  match parts x with
  | .finite negative m e =>
    let (n, d) := scaled m e
    let q : Int := (n / d : Nat)
    some (if negative then -q else q)
  | _ => none

def floor? (x : Float) : Option Int :=
  match parts x with
  | .finite negative m e =>
    let (n, d) := scaled m e
    some (Int.fdiv (if negative then -(n : Int) else n) d)
  | _ => none

def ceil? (x : Float) : Option Int :=
  match parts x with
  | .finite negative m e =>
    let (n, d) := scaled m e
    some (-Int.fdiv (if negative then n else -(n : Int)) d)
  | _ => none

def compareInt? (i : Int) (x : Float) : Option Ordering :=
  match parts x with
  | .nan => none
  | .infinite negative => some (if negative then .gt else .lt)
  | .finite negative m e =>
    let (n, d) := scaled m e
    some (compare (i * d) (if negative then -(n : Int) else n))

/-- The remainder of a finite number divided by another, with the sign of the first. -/
def truncatedRemainder (x y : Float) : Float :=
  match parts x, parts y with
  | .finite negative m e, .finite _ m' e' =>
    let low := min e e'
    let a := m <<< (e - low).toNat
    let b := m' <<< (e' - low).toNat
    let (n, d) := scaled (a % b) low
    ofQuotient negative n d
  | .finite _ _ _, .infinite _ => x
  | _, _ => notANumber

end NullSafe.Number
