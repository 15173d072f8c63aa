import NullSafe.Format.Digits
import NullSafe.Format.Slot
import NullSafe.Value.Convert

/-! # Filled templates

The slots of a template are filled with arguments from left to right. A template is text or bytes; bytes show
bytes where text shows any value.
-/

namespace NullSafe.Format

def byteChars (bs : List UInt8) : List Char := bs.map fun b => Char.ofNat b.toNat

def charBytes (cs : List Char) : List UInt8 := cs.map fun c => UInt8.ofNat c.toNat

/-- What slots are filled with: values in order, or the entries of a value, by key. -/
structure Supply where
  values : List Value
  keyed : Option Value := none

def Medium.isKeyed (m : Medium) : Value → Bool
  | .list _ | .dict _ | .found _ => true
  | .bytes _ => m = .text
  | _ => false

/-- What a value supplies: a tuple its items, any other itself and its entries. -/
def Supply.ofValue (w : World) (m : Medium) : Value → Supply
  | .tuple r => { values := w.tuple r }
  | v => { values := [v], keyed := if m.isKeyed v then some v else none }

def Medium.key (m : Medium) (cs : List Char) : Value :=
  match m with
  | .text => .str (String.ofList cs)
  | .bytes => .bytes (charBytes cs)

def entry (w : World) (m : Medium) (keyed : Value) (key : List Char) : Except Raised Value := do
  match keyed with
  | .dict r => World.require .noKey (← w.lookup (w.dict r) (m.key key))
  | .found r =>
    let named := if m = .text then (w.found r).namedGroup? (String.ofList key) else none
    World.require .outOfRange named
  | _ => throw .mistyped

/-- An argument that is to be placed in its slot: text, or a number with sign, mark of its base and digits. -/
inductive Shown where
  | text (cs : List Char)
  | number (sign mark digits : List Char)

def justify (left : Bool) (width : Nat) (cs : List Char) : List Char :=
  let fill := List.replicate (width - cs.length) ' '
  if left then cs ++ fill else fill ++ cs

/-- A shown argument moved to a width. Zeros that fill it come behind the sign of a number. -/
def Shown.place (flags : List Char) (left : Bool) (width : Nat) : Shown → List Char
  | text cs => justify left width cs
  | number sign mark digits =>
    if !left && flags.contains '0' then
      let length := sign.length + mark.length + digits.length
      sign ++ mark ++ List.replicate (width - length) '0' ++ digits
    else justify left width (sign ++ mark ++ digits)

def signChars (flags : List Char) (negative : Bool) : List Char :=
  if negative then ['-'] else if flags.contains '+' then ['+'] else if flags.contains ' ' then [' ']
  else []

def maxWholeDigits : Nat := Number.halfWordLimit - 4

def wholeShown (memory : Nat) (s : Slot) (conversion : Char) (least : Nat) (i : Int) : Except Raised Shown := do
  if least > maxWholeDigits then throw .overflow
  if least > memory then throw .outOfMemory
  let (mark, ds) := basedDigits conversion i.natAbs
  return .number (signChars s.flags (i < 0)) (if s.flags.contains '#' then mark else []) (atLeastDigits least ds)

def isZero (cs : List Char) : Bool := (cs.takeWhile (· ≠ 'e')).all fun c => c = '0' || c = '.'

/-- A number in floating point as a slot shows it. A flag takes the minus from what is shown as zero. -/
def floatShown (memory : Nat) (s : Slot) (conversion : Char) (places : Nat) (x : Float) : Except Raised Shown := do
  if places > memory then throw .outOfMemory
  let (negative, cs) := floatChars conversion.toLower x places (s.flags.contains '#')
  let negative := negative && !(s.flags.contains 'z' && isZero cs)
  return .number (signChars s.flags negative) [] (if conversion.isUpper then cs.map Char.toUpper else cs)

def decimalArgument : Value → Except Raised Int
  | .bool b => .ok (if b then 1 else 0)
  | .int i => .ok i
  | .float x => World.wholePart x
  | .nan _ => .error .invalidValue
  | _ => .error .mistyped

def Medium.charArgument (m : Medium) (v : Value) : Except Raised (List Char) :=
  let limit : Int := if m = .text then 0x110000 else 0x100
  let code (i : Int) : Except Raised (List Char) :=
    if 0 ≤ i && i < limit then .ok [Char.ofNat i.toNat] else .error .overflow
  match m, v with
  | _, .int i => code i
  | _, .bool b => code (if b then 1 else 0)
  | .text, .str s => if s.length = 1 then .ok s.toList else .error .mistyped
  | .bytes, .bytes [b] => .ok (byteChars [b])
  | _, _ => .error .mistyped

/-- The number that a slot for numbers in floating point shows. One that bytes cannot show is of the wrong
type, whatever the cause. -/
def Medium.floatArgument (m : Medium) (v : Value) : Except Raised Float :=
  match m, World.numberToFloat v with
  | .bytes, .error _ => .error .mistyped
  | _, r => r

/-- The text that a slot for any value shows. In bytes it shows bytes only. -/
def Medium.textArgument (m : Medium) (w : World) (v : Value) : Except Raised (List Char) :=
  match m, v with
  | .text, v => return (← w.text v).toList
  | .bytes, .bytes bs => .ok (byteChars bs)
  | .bytes, _ => .error .mistyped

def asciiWritten (s : String) : List Char :=
  s.toList.flatMap fun c =>
    let n := c.toNat
    if n < 0x80 then [c]
    else if n < 0x100 then '\\' :: 'x' :: Text.hexDigits 2 n
    else if n < 0x10000 then '\\' :: 'u' :: Text.hexDigits 4 n
    else '\\' :: 'U' :: Text.hexDigits 8 n

/-- An argument as a slot shows it. A byte beyond ASCII does not say how: it is out of range, and an unknown
conversion only where digits come before it. -/
def Medium.shown (m : Medium) (w : World) (s : Slot) (conversion : Char) (precision : Option Nat)
    (v : Value) : Except Raised Shown := do
  let cut (cs : List Char) : Shown := .text (precision.elim cs cs.take)
  match conversion with
  | 's' => return cut (← m.textArgument w v)
  | 'b' => if m = .bytes then return cut (← m.textArgument w v) else throw .invalidValue
  | 'r' =>
    let written ← w.written v
    return cut (if m = .text then written.toList else asciiWritten written)
  | 'a' => return cut (asciiWritten (← w.written v))
  | 'c' => return .text (← m.charArgument v)
  | 'd' | 'i' | 'u' =>
    let i ← decimalArgument v
    let _ ← intText i
    wholeShown w.memory s conversion (precision.getD 0) i
  | 'o' | 'x' | 'X' => wholeShown w.memory s conversion (precision.getD 0) (← World.toIndex v)
  | 'e' | 'E' | 'f' | 'F' | 'g' | 'G' =>
    floatShown w.memory s conversion (precision.getD 6) (← m.floatArgument v)
  | c => throw (if m = .bytes && 0x80 ≤ c.toNat && !s.afterDigits then .overflow else .invalidValue)

def nextArgument : List Value → Except Raised (Value × List Value)
  | [] => .error .mistyped
  | v :: rest => .ok (v, rest)

/-- A width or precision, taken from the arguments where the slot says so, and the arguments left. A written
one beyond the limit is malformed, an argument beyond it does not fit. -/
def takeCount (limit : Nat) (c : Count) (args : List Value) : Except Raised (Int × List Value) :=
  match c with
  | .number n => if n < limit then .ok (n, args) else .error .invalidValue
  | .argument => do
    let (v, rest) ← nextArgument args
    let i ← World.toIndex v
    if -limit ≤ i && i < limit then return (i, rest) else throw .overflow

def slotArguments (w : World) (m : Medium) (supply : Supply) (key : Key) : Except Raised (List Value) :=
  match key, supply.keyed with
  | .absent, _ => .ok supply.values
  | _, none => .error .mistyped
  | .unclosed, some _ => .error .invalidValue
  | .named key, some v => do return [← entry w m v key]

def fillSlot (w : World) (m : Medium) (s : Slot) (supply : Supply) :
    Except Raised (List Char × Supply) := do
  let args ← slotArguments w m supply s.key
  let (width, args) ← takeCount Number.wordLimit s.width args
  let (precision, args) ← match s.precision with
    | none => pure (none, args)
    | some c => do
      let (n, args) ← takeCount Number.halfWordLimit c args
      pure (some n.toNat, args)
  match s.conversion with
  | none => throw .invalidValue
  | some conversion =>
    let (v, args) ← nextArgument args
    let shown ← m.shown w s conversion precision v
    if width.natAbs > w.memory then throw .outOfMemory
    return (shown.place s.flags (s.flags.contains '-' || width < 0) width.natAbs, { supply with values := args })

/-- Fills the slots of a template. Arguments that are left over are refused unless they come by key. -/
def fillPieces (w : World) (m : Medium) : List Piece → Supply → Except Raised (List Char)
  | [], supply => if supply.keyed.isNone && !supply.values.isEmpty then .error .mistyped else .ok []
  | .text c :: rest, supply => do return c :: (← fillPieces w m rest supply)
  | .slot s :: rest, supply => do
    let (cs, supply) ← fillSlot w m s supply
    return cs ++ (← fillPieces w m rest supply)

def fill (w : World) (m : Medium) (template : List Char) (supply : Supply) : Except Raised (List Char) :=
  fillPieces w m (pieces m template) supply

end NullSafe.Format
