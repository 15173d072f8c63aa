import NullSafe.Native.Numbers
import NullSafe.Text.Encoding

/-! # General functions

Lengths, texts, truth values, whole numbers, sums and lists.
-/

namespace NullSafe.Native

open Text

def lengthOf (v : Value) : Run Value := do
  return .int (← Run.ofExcept (·.items v)).length

def namedBase? : List Char → Option (Nat × List Char)
  | '0' :: x :: rest =>
    if x = 'x' || x = 'X' then some (16, rest)
    else if x = 'o' || x = 'O' then some (8, rest)
    else if x = 'b' || x = 'B' then some (2, rest)
    else none
  | _ => none

def plainDigits (cs : List Char) : List Char :=
  cs.map fun c => (decimalValue? c).elim c fun d => Char.ofNat (d + 48)

def digitsWithUnderscores? (base : Nat) (after : Bool) : List Char → Option (List Nat)
  | [] => if after then some [] else none
  | '_' :: rest => if after then digitsWithUnderscores? base false rest else none
  | c :: rest =>
    match alphaDigitValue? c with
    | some d =>
      if d < base then (digitsWithUnderscores? base true rest).map (d :: ·) else none
    | none => none

/-- The digits of a numeral after its sign, and their base. A base of zero asks the numeral for it. -/
def numeralIn? (base : Nat) (cs : List Char) : Option (Nat × List Nat) :=
  match namedBase? cs with
  | some (named, rest) =>
    if base = 0 || base = named then
      (digitsWithUnderscores? named false (if rest.head? = some '_' then rest.drop 1 else rest)).map (named, ·)
    else (digitsWithUnderscores? base false cs).map (base, ·)
  | none =>
    if base = 0 then do
      let ds ← digitsWithUnderscores? 10 false cs
      if ds.head? = some 0 && ds.any (· ≠ 0) then none else return (10, ds)
    else (digitsWithUnderscores? base false cs).map (base, ·)

def readInBase? (base : Nat) (text : List Char) : Option Int := do
  let (negative, cs) := Number.readSign (plainDigits (trimPadding text))
  let (base, ds) ← numeralIn? base cs
  guard (unlimitedBase base || ds.length ≤ Number.maxDigits)
  let n : Int := ofDigits base ds
  return if negative then -n else n

/-- A text as a whole number in a base. The base is checked before the text. -/
def intInBase (v base : Value) : Except Raised Int := do
  let base ← World.toIndex base
  if base ≠ 0 && (base < 2 || base > 36) then throw .invalidValue
  match v with
  | .str s => World.require .invalidValue (readInBase? base.toNat s.toList)
  | .bytes bs => World.require .invalidValue ((World.asciiText? bs).bind (readInBase? base.toNat))
  | _ => throw .mistyped

def escapedBytes (bs : List UInt8) : List Char := bs.flatMap fun b => '\\' :: 'x' :: hexDigits 2 b.toNat

/-- What becomes of bytes that are no character, by the name of the way to treat them. -/
def repair (way : String) (bs : List UInt8) : Except Raised (List Char) :=
  match way with
  | "strict" | "surrogateescape" | "surrogatepass" => .error .undecodable
  | "ignore" => .ok []
  | "replace" => .ok [Char.ofNat 0xFFFD]
  | "backslashreplace" => .ok (escapedBytes bs)
  | "xmlcharrefreplace" | "namereplace" => .error .mistyped
  | _ => .error .unknownEncoding

def codecName : Value → Except Raised String
  | .str s => if s.toList.contains (Char.ofNat 0) then .error .invalidValue else .ok s
  | _ => .error .mistyped

/-- The text of bytes in an encoding. No bytes are no text in every encoding, known or not. -/
def decoded (v encoding way : Value) : Except Raised String := do
  let encoding ← codecName encoding
  let way ← codecName way
  match v with
  | .bytes [] => return ""
  | .bytes bs =>
    let e ← World.require .unknownEncoding (Encoding.ofName? encoding)
    return String.ofList (← e.decode (repair way) bs)
  | _ => throw .mistyped

def sumOf (v start : Value) : Run Value := do
  let items ← Run.ofExcept (·.items v)
  match start with
  | .str _ | .bytes _ => throw .mistyped
  | start => items.foldlM Run.plus start

def call (f : Native) (args : List Value) : Run Value := do
  match f, args with
  | .parseInt, [v] => parseIntValue v .null
  | .parseInt, [v, radix] => parseIntValue v radix
  | .parseFloat, [v] => parseFloatValue v
  | .isNaN, [v] => isNaNValue v
  | .array, [] => Run.newList []
  | .array, [v] => Run.newList (← Run.ofExcept (·.items v))
  | .round, [v] => roundHalfUp v
  | .sign, [v] => signOf v
  | .max, vs => extreme .above (-Number.infinity) vs
  | .min, vs => extreme .below Number.infinity vs
  | .abs, [v] => absolute v
  | .ceil, [v] => rounding Number.ceil? v
  | .floor, [v] => rounding Number.floor? v
  | .trunc, [v] => rounding Number.truncate? v
  | .pow, [a, b] => power a b
  | .sqrt, [v] => floatFunction Float.sqrt v
  | .exp, [v] => floatFunction Float.exp v
  | .sin, [v] => floatFunction Float.sin v
  | .cos, [v] => floatFunction Float.cos v
  | .tan, [v] => floatFunction Float.tan v
  | .log, [v] => logarithm v none
  | .log, [v, base] => logarithm v (some base)
  | .random, [] => return .float 0
  | .len, [v] => lengthOf v
  | .str, [] => return .str ""
  | .str, [v] => return .str (← Run.ofExcept (·.text v))
  | .str, [v, encoding] => return .str (← Run.ofExcept fun _ => decoded v encoding (.str "strict"))
  | .str, [v, encoding, way] => return .str (← Run.ofExcept fun _ => decoded v encoding way)
  | .int, [] => return .int 0
  | .int, [v] => return .int (← Run.ofExcept fun _ => World.toInt v)
  | .int, [v, base] => return .int (← Run.ofExcept fun _ => intInBase v base)
  | .sum, [v] => sumOf v (.int 0)
  | .sum, [v, start] => sumOf v start
  | .bool, [] => return .bool false
  | .bool, [v] => return .bool ((← get).isTrue v)
  | _, _ => throw .mistyped

end NullSafe.Native
