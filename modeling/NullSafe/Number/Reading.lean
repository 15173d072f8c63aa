import NullSafe.Number.Binary64
import NullSafe.Text.Blank
import NullSafe.Text.Digit

/-! # Reading numbers

Numbers are read from texts in decimal, with digits of any script, blanks around them and single
underscores between digits. A text that is no number reads as nothing.
-/

namespace NullSafe.Number

open Text

/-- The most digits a whole number may have when it is converted from or to decimal text. -/
def maxDigits : Nat := 4300

/-- The floating-point number nearest to `digits * 10 ^ exponent`, where `count` digits are given. -/
def ofDecimal (negative : Bool) (digits count : Nat) (exponent : Int) : Float :=
  if digits = 0 || exponent + count < -400 then signed negative 0
  else if exponent > 400 then signed negative infinityBits
  else if 0 ≤ exponent then ofQuotient negative (digits * Nat.pow 10 exponent.toNat) 1
  else ofQuotient negative digits (Nat.pow 10 (-exponent).toNat)

def readSign : List Char → Bool × List Char
  | '-' :: rest => (true, rest)
  | '+' :: rest => (false, rest)
  | cs => (false, cs)

/-- Removes single underscores that stand between digits; none elsewhere are allowed. -/
def dropUnderscores? (before : Option Char) : List Char → Option (List Char)
  | [] => some []
  | '_' :: rest =>
    if before.any isDecimal && rest.head?.any isDecimal then dropUnderscores? (some '_') rest else none
  | c :: rest => (dropUnderscores? (some c) rest).map (c :: ·)

/-- The parts of a decimal numeral without sign: whole digits, digits after the point, exponent. -/
structure Numeral where
  whole : List Char
  fraction : List Char
  exponent : Int

/-- The exponent that a text is, if it is empty or an exponent. -/
def readExponent? : List Char → Option Int
  | [] => some 0
  | e :: rest =>
    if e = 'e' || e = 'E' then
      let (negative, digits) := readSign rest
      if digits.isEmpty || !digits.all isDecimal then none
      else
        let n : Int := Text.ofDecimal digits
        some (if negative then -n else n)
    else none

def readNumeral? (cs : List Char) : Option Numeral :=
  let whole := cs.takeWhile isDecimal
  let (fraction, rest) :=
    match cs.dropWhile isDecimal with
    | '.' :: rest => (rest.takeWhile isDecimal, rest.dropWhile isDecimal)
    | rest => ([], rest)
  if whole.isEmpty && fraction.isEmpty then none
  else (readExponent? rest).map fun e => ⟨whole, fraction, e⟩

def Numeral.value (n : Numeral) (negative : Bool) : Float :=
  let digits := n.whole ++ n.fraction
  ofDecimal negative (Text.ofDecimal digits) digits.length (n.exponent - n.fraction.length)

def floatOfNumeral? (cs : List Char) : Option Float := (readNumeral? cs).map (·.value false)

def asciiLower (cs : List Char) : List Char := cs.map Char.toLower

def readFloat? (text : List Char) : Option Float :=
  let (negative, cs) := readSign (trimPadding text)
  let word := asciiLower cs
  if word = "inf".toList || word = "infinity".toList then some (signed negative infinityBits)
  else if word = "nan".toList then some notANumber
  else ((dropUnderscores? none cs).bind readNumeral?).map (·.value negative)

def readInt? (text : List Char) : Option Int :=
  let (negative, cs) := readSign (trimPadding text)
  match dropUnderscores? none cs with
  | some digits =>
    if digits.isEmpty || !digits.all isDecimal || digits.length > maxDigits then none
    else
      let n : Int := Text.ofDecimal digits
      some (if negative then -n else n)
  | none => none

end NullSafe.Number
