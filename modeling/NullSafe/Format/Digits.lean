import NullSafe.Number.Binary64

/-! # Digits of numbers

The digits of whole numbers in a base and of fractions with a given number of places, fixed, with an exponent, or
in the shorter of the two forms.
-/

namespace NullSafe.Format

def atLeastDigits (n : Nat) (ds : List Char) : List Char :=
  List.replicate (n - ds.length) '0' ++ ds

/-- A fraction of whole numbers with a fixed number of places, a half going to the even digit. -/
def fixedDigits (num den places : Nat) (alternate : Bool) : List Char :=
  let unit := Nat.pow 10 places
  let n := Number.roundDiv (num * unit) den
  let whole := (toString (n / unit)).toList
  if places = 0 then whole ++ (if alternate then ['.'] else [])
  else whole ++ '.' :: atLeastDigits places (toString (n % unit)).toList

/-- The exponent of ten of the first digit of a fraction that is not zero. -/
def firstPlace (num den : Nat) : Int :=
  let guess : Int := (toString num).length - (toString den).length
  let atLeast (e : Int) : Bool :=
    if 0 ≤ e then den * Nat.pow 10 e.toNat ≤ num else den ≤ num * Nat.pow 10 (-e).toNat
  if atLeast guess then guess else guess - 1

/-- A fraction as digits and the exponent of ten of the first of them. -/
def significant (num den places : Nat) : Nat × Int :=
  if num = 0 then (0, 0)
  else
    let e := firstPlace num den
    let shift := places - e
    let n := if 0 ≤ shift then Number.roundDiv (num * Nat.pow 10 shift.toNat) den
      else Number.roundDiv num (den * Nat.pow 10 (-shift).toNat)
    if n ≥ Nat.pow 10 (places + 1) then (n / 10, e + 1) else (n, e)

def exponentChars (e : Int) : List Char :=
  ['e', if e < 0 then '-' else '+'] ++ atLeastDigits 2 (toString e.natAbs).toList

def scientificDigits (num den places : Nat) (alternate : Bool) : List Char :=
  let (n, e) := significant num den places
  let ds := atLeastDigits (places + 1) (toString n).toList
  ds.take 1 ++ (if places = 0 && !alternate then [] else '.' :: ds.drop 1) ++ exponentChars e

def dropZeros (cs : List Char) : List Char :=
  if cs.contains '.' then
    let rest := cs.reverse.dropWhile (· = '0')
    (if rest.head? = some '.' then rest.drop 1 else rest).reverse
  else cs

/-- A fraction in the shorter of the two forms. -/
def generalDigits (num den places : Nat) (alternate : Bool) : List Char :=
  let places := Nat.max places 1
  let (_, e) := significant num den (places - 1)
  let trimmed (cs : List Char) : List Char := if alternate then cs else dropZeros cs
  if e < -4 || e ≥ places then
    let all := scientificDigits num den (places - 1) alternate
    trimmed (all.takeWhile (· ≠ 'e')) ++ all.dropWhile (· ≠ 'e')
  else trimmed (fixedDigits num den (places - 1 - e).toNat alternate)

def floatDigits (conversion : Char) (m : Nat) (e : Int) (places : Nat) (alternate : Bool) : List Char :=
  let (num, den) := Number.scaled m e
  if conversion = 'f' then fixedDigits num den places alternate
  else if conversion = 'e' then scientificDigits num den places alternate
  else generalDigits num den places alternate

def floatChars (conversion : Char) (x : Float) (places : Nat) (alternate : Bool) : Bool × List Char :=
  match Number.parts x with
  | .nan => (false, "nan".toList)
  | .infinite negative => (negative, "inf".toList)
  | .finite negative m e => (negative, floatDigits conversion m e places alternate)

def basedDigits (conversion : Char) (n : Nat) : List Char × List Char :=
  match conversion with
  | 'o' => (['0', 'o'], Nat.toDigits 8 n)
  | 'x' => (['0', 'x'], Nat.toDigits 16 n)
  | 'X' => (['0', 'X'], (Nat.toDigits 16 n).map Char.toUpper)
  | _ => ([], Nat.toDigits 10 n)

end NullSafe.Format
