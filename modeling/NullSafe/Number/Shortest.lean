import NullSafe.Number.Binary64

/-! # Shortest decimals

The text of a floating-point number has the fewest digits that read back as the same number, and of those
the nearest to it. It is positional where the leading digit stands for 10⁻⁴ to 10¹⁵, and always shows that
it is not a whole number's text.
-/

namespace NullSafe.Number

structure Ratio where
  num : Nat
  den : Nat

namespace Ratio

def scale (n base : Nat) (exponent : Int) : Ratio :=
  if 0 ≤ exponent then ⟨n * base.pow exponent.toNat, 1⟩ else ⟨n, base.pow (-exponent).toNat⟩

def lt (a b : Ratio) : Bool := a.num * b.den < b.num * a.den

def le (a b : Ratio) : Bool := a.num * b.den ≤ b.num * a.den

def divFloor (a b : Ratio) : Nat := a.num * b.den / (a.den * b.num)

end Ratio

structure Digits where
  digits : Nat
  exponent : Int
  deriving DecidableEq, Repr

/-- The power of ten of the leading digit of a positive quotient with the given power of two. -/
def leadingExponent (v : Ratio) (log2 : Int) : Int :=
  let guess := Int.fdiv (log2 * 30103) 100000
  if v.lt (.scale 1 10 guess) then guess - 1
  else if (Ratio.scale 1 10 (guess + 1)).le v then guess + 1
  else guess

/-- The two decimals with a given last place around `v`, those of them that lie between the bounds. -/
def candidates (v low high : Ratio) (closed : Bool) (place : Int) : List Nat :=
  let d := v.divFloor (.scale 1 10 place)
  let inside (n : Nat) : Bool :=
    let r := Ratio.scale n 10 place
    if closed then low.le r && r.le high else low.lt r && r.lt high
  [d, d + 1].filter inside

/-- The nearer of two neighbouring decimals with a given last place, the even one when both are equally
near. -/
def nearer (v : Ratio) (place : Int) (a b : Nat) : Nat :=
  let twice : Ratio := ⟨2 * v.num, v.den⟩
  let middle := Ratio.scale (a + b) 10 place
  if twice.lt middle then a
  else if middle.lt twice then b
  else if a % 2 = 0 then a else b

/-- The fewest digits that read back as `m * 2 ^ e`, which is positive. -/
def shortest (m : Nat) (e : Int) : Digits :=
  let v := Ratio.scale m 2 e
  let lead := leadingExponent v ((m.log2 : Int) + e)
  -- Below a power of two the next number is only half as far away.
  let gap := if m = exponentBit && e > -1074 then 1 else 2
  let low := Ratio.scale (4 * m - gap) 2 (e - 2)
  let high := Ratio.scale (4 * m + 2) 2 (e - 2)
  let found := (List.range 17).findSome? fun (n : Nat) =>
    let place : Int := lead - n
    match candidates v low high (m % 2 = 0) place with
    | [a] => some ⟨a, place⟩
    | [a, b] => some ⟨nearer v place a b, place⟩
    | _ => none
  found.getD ⟨m, e⟩

def trimZeros (n : Nat) : List Char × Nat :=
  let ds := Nat.toDigits 10 n
  let zeros := (ds.reverse.takeWhile (· == '0')).length
  (ds.take (ds.length - zeros), zeros)

def exponentText (e : Int) : List Char :=
  let ds := Nat.toDigits 10 e.natAbs
  (if e < 0 then '-' else '+') :: (List.replicate (2 - ds.length) '0' ++ ds)

def Digits.text (d : Digits) : List Char :=
  let (ds, zeros) := trimZeros d.digits
  let place : Int := d.exponent + zeros
  let lead : Int := place + ds.length - 1
  if -4 ≤ lead && lead < 16 then
    if 0 ≤ place then ds ++ List.replicate place.toNat '0' ++ ".0".toList
    else if 0 ≤ lead then ds.take (lead + 1).toNat ++ '.' :: ds.drop (lead + 1).toNat
    else "0.".toList ++ List.replicate (-lead - 1).toNat '0' ++ ds
  else
    ds.take 1 ++ (if ds.length = 1 then [] else '.' :: ds.drop 1) ++ 'e' :: exponentText lead

def floatText (x : Float) : String :=
  match parts x with
  | .nan => "nan"
  | .infinite negative => if negative then "-inf" else "inf"
  | .finite negative m e =>
    String.ofList ((if negative then ['-'] else []) ++ (if m = 0 then "0.0".toList else (shortest m e).text))

end NullSafe.Number
