import NullSafe.Value.Arithmetic

/-! # Functions on numbers

Reading numbers from the start of a text, and the functions of the mathematical namespace.
-/

namespace NullSafe.Native

open Text
open World (require toInt toFloat numberToFloat)

/-- The start of a text that is read as a whole number: sign, whether a hexadecimal mark follows it, and
the letters and digits after that. -/
structure IntStart where
  negative : Bool
  hexMark : Bool
  digits : List Char

def intStart (text : List Char) : IntStart :=
  let (negative, rest) := Number.readSign (trimLeft text)
  match rest with
  | '0' :: x :: after =>
    if x = 'x' || x = 'X' then ⟨negative, true, after.takeWhile Char.isAlphanum⟩
    else ⟨negative, false, rest.takeWhile Char.isAlphanum⟩
  | _ => ⟨negative, false, rest.takeWhile Char.isAlphanum⟩

def digitsBelow (base : Nat) (cs : List Char) : List Nat :=
  ((cs.map alphaDigitValue?).takeWhile fun d => d.any (· < base)).filterMap id

/-- Whether digits in a base can be converted without a limit on their number. -/
def unlimitedBase (base : Nat) : Bool := [2, 4, 8, 16, 32].contains base

/-- The base and the digits that a text has, given the base that was asked for. A hexadecimal mark chooses
base sixteen where no other base was asked for; otherwise reading stops behind its zero. -/
def baseAndDigits (start : IntStart) (radix : Option Int) : Int × List Char :=
  let base := radix.getD 10
  if start.hexMark then
    if radix.isNone || base = 16 then (16, start.digits) else (base, ['0'])
  else (base, start.digits)

def readInt (text : List Char) (radix : Option Int) : Except Raised (Option Int) :=
  let start := intStart text
  let (base, letters) := baseAndDigits start radix
  if base < 2 || base > 36 then .ok none
  else
    let ds := digitsBelow base.toNat letters
    if ds.isEmpty then .ok none
    else if !unlimitedBase base.toNat && ds.length > Number.maxDigits then .error .invalidValue
    else
      let n : Int := ofDigits base.toNat ds
      .ok (some (if start.negative then -n else n))

def numberValue (n : Option Int) : Value := n.elim .missingNumber .int

def parseIntValue (v radix : Value) : Run Value := do
  let text ← Run.ofExcept (·.text v)
  let radix ← if (← get).isTrue radix then some <$> Run.ofExcept (fun _ => toInt radix) else pure none
  return numberValue (← Run.ofExcept fun _ => readInt text.toList radix)

def exponentStart (cs : List Char) : List Char :=
  match cs with
  | e :: rest =>
    if e = 'e' || e = 'E' then
      let sign := (rest.take 1).filter fun c => c = '+' || c = '-'
      let digits := (rest.drop sign.length).takeWhile isDecimal
      if digits.isEmpty then [] else e :: sign ++ digits
    else []
  | [] => []

def decimalStart (cs : List Char) : List Char :=
  let whole := cs.takeWhile isDecimal
  let rest := cs.dropWhile isDecimal
  let fraction :=
    match rest with
    | '.' :: after =>
      let ds := after.takeWhile isDecimal
      if whole.isEmpty && ds.isEmpty then [] else '.' :: ds
    | _ => []
  if whole.isEmpty && fraction.isEmpty then []
  else whole ++ fraction ++ exponentStart (rest.drop fraction.length)

def readDecimalStart (text : List Char) : Option Float :=
  let (negative, rest) := Number.readSign (trimLeft text)
  if "Infinity".toList.isPrefixOf rest then some (Number.signed negative Number.infinityBits)
  else
    let cs := decimalStart rest
    if cs.isEmpty then none else (Number.readNumeral? cs).map (·.value negative)

def parseFloatValue (v : Value) : Run Value := do
  let text ← Run.ofExcept (·.text v)
  match readDecimalStart text.toList with
  | some x => return .float x
  | none => return .missingNumber

def isNaNValue (v : Value) : Run Value := do
  match v with
  | .null => return .bool true
  | v =>
    match toFloat v with
    | .ok x => return .bool x.isNaN
    | .error .overflow => throw .overflow
    | .error _ => return .bool true

/-- A rounding function: whole numbers stay, floating-point numbers are rounded to one. -/
def rounding (f : Float → Option Int) (v : Value) : Run Value := do
  match v.number? with
  | some (.int i) => return .int i
  | some (.float x) =>
    match f x with
    | some i => return .int i
    | none => throw .overflow
  | some .nan => throw .invalidValue
  | none => throw .mistyped

def absolute (v : Value) : Run Value := do
  match v.number? with
  | some (.int i) => return .int i.natAbs
  | some (.float x) => return .float (if x < 0 || x == 0 then 0 - x else x)
  | some .nan => Run.ofFloat Number.notANumber
  | none => throw .mistyped

def roundHalfUp (v : Value) : Run Value := do
  match v.number? with
  | some n =>
    match n.add (.float 0.5) with
    | .ok (.float x) =>
      match Number.floor? x with
      | some i => return .int i
      | none => throw .overflow
    | .ok _ => throw .invalidValue
    | .error _ => throw .overflow
  | none => throw .mistyped

def signOf (v : Value) : Run Value := do
  match v.number? with
  | some n =>
    match n.compare? (.int 0) with
    | some .lt => return .int (-1)
    | some .gt => return .int 1
    | _ => return .int 0
  | none => throw .mistyped

/-- The greatest or least of some values, or the given number when there are none. -/
def extreme (rel : World.Relation) (limit : Float) (vs : List Value) : Run Value := do
  match vs with
  | [] => return .float limit
  | v :: rest => Run.ofExcept (·.best rel v rest)

/-- A function in floating point. A result that is no number for one that is, is refused; an infinite
result for a finite argument is an overflow. -/
def floatFunction (f : Float → Float) (v : Value) : Run Value := do
  let x ← Run.ofExcept fun _ => numberToFloat v
  let y := f x
  if y.isNaN && !x.isNaN then throw .invalidValue
  else if y.isInf && x.isFinite then throw .overflow
  else Run.ofFloat y

def power (a b : Value) : Run Value := do
  let x ← Run.ofExcept fun _ => numberToFloat a
  let y ← Run.ofExcept fun _ => numberToFloat b
  let r := Float.pow x y
  if x.isFinite && y.isFinite then
    if r.isNaN then throw .invalidValue
    else if r.isInf then throw (if x == 0 then .invalidValue else .overflow)
    else return .float r
  else Run.ofFloat r

/-- The natural logarithm of a whole number beyond floating point: that of its fraction between a half and
one, and that of the power of two in front of it. -/
def logOfLarge (n : Nat) : Float :=
  let bits := n.log2 + 1
  let x := Number.ofQuotient false n (1 <<< bits)
  if x == 1 then Float.log 0.5 + Float.log 2 * Float.ofNat (bits + 1)
  else Float.log x + Float.log 2 * Float.ofNat bits

def naturalLog (v : Value) : Run Float := do
  match v.number? with
  | some (.int i) =>
    if i ≤ 0 then throw .invalidValue
    else
      match Number.ofInt? i with
      | some x => return Float.log x
      | none => return logOfLarge i.toNat
  | some (.float x) => if x > 0 then return Float.log x else throw .invalidValue
  | some .nan => return Number.notANumber
  | none => throw .mistyped

def logarithm (v : Value) (base : Option Value) : Run Value := do
  let x ← naturalLog v
  match base with
  | none => Run.ofFloat x
  | some b =>
    let y ← naturalLog b
    if y == 0 then throw .divisionByZero else Run.ofFloat (x / y)

end NullSafe.Native
