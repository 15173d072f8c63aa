import NullSafe.Number.Binary64
import NullSafe.Value.Compare

/-! # Times of log records

Times are seconds since the start of 1970 and are shown in universal time, with thousandths of a second.
-/

namespace NullSafe.Log

structure Moment where
  year : Int
  month : Nat
  day : Nat
  hour : Nat
  minute : Nat
  second : Nat
  deriving DecidableEq, Repr

/-- The year, month and day that is a number of days after the start of 1970. Years are counted from March,
so that a leap day is the last of its year, in eras of four hundred years. -/
def civilDate (days : Int) : Int × Nat × Nat :=
  let z := days + 719468
  let era := z.fdiv 146097
  let dayOfEra := (z - era * 146097).toNat
  let yearOfEra := (dayOfEra - dayOfEra / 1460 + dayOfEra / 36524 - dayOfEra / 146096) / 365
  let dayOfYear := dayOfEra - (365 * yearOfEra + yearOfEra / 4 - yearOfEra / 100)
  let shifted := (5 * dayOfYear + 2) / 153
  let day := dayOfYear - (153 * shifted + 2) / 5 + 1
  let month := if shifted < 10 then shifted + 3 else shifted - 9
  (yearOfEra + era * 400 + (if month ≤ 2 then 1 else 0), month, day)

def Moment.ofSeconds (seconds : Int) : Moment :=
  let days := seconds.fdiv 86400
  let rest := (seconds - days * 86400).toNat
  let (year, month, day) := civilDate days
  { year, month, day, hour := rest / 3600, minute := rest / 60 % 60, second := rest % 60 }

def padded (width n : Nat) : String :=
  let text := toString n
  String.ofList (List.replicate (width - text.length) '0') ++ text

def Moment.date (m : Moment) (year : String) : String :=
  year ++ "-" ++ padded 2 m.month ++ "-" ++ padded 2 m.day

def Moment.time (m : Moment) : String :=
  padded 2 m.hour ++ ":" ++ padded 2 m.minute ++ ":" ++ padded 2 m.second

/-- The moment of a time in whole seconds, which must fit a machine integer. Years are counted from 1900 in half
a machine integer. -/
def Moment.ofTime (seconds : Int) : Except Raised Moment := do
  if seconds < -(Number.wordLimit : Int) || Number.wordLimit ≤ seconds then throw .overflow
  let m := ofSeconds seconds
  if m.year - 1900 < -(Number.halfWordLimit : Int) || Number.halfWordLimit ≤ m.year - 1900 then throw .unknownYear
  return m

/-- The whole number nearest to a finite number, a half going to the even one. -/
def nearest (x : Float) : Int :=
  match Number.parts x with
  | .finite negative m e =>
    let (n, d) := Number.scaled m e
    let q : Int := Number.roundDiv n d
    if negative then -q else q
  | _ => 0

def wholeBy (f : Float → Option Int) (x : Float) : Except Raised Int :=
  match Number.parts x with
  | .nan => .error .invalidValue
  | .infinite _ => .error .overflow
  | .finite _ _ _ => .ok ((f x).getD 0)

def fractionOf (x : Float) (whole : Int) : Float := x - (Number.ofInt? whole).getD 0

def microseconds (v : Value) : Except Raised Int :=
  match v.number? with
  | some (.int i) => .ok (i * 1000000)
  | some (.float x) => do
    let whole ← wholeBy Number.truncate? x
    return whole * 1000000 + nearest (fractionOf x whole * 1000000)
  | some .nan => .error .invalidValue
  | none => .error .mistyped

def wholeSeconds (v : Value) : Except Raised Int :=
  match v.number? with
  | some (.int i) => .ok i
  | some (.float x) => wholeBy Number.floor? x
  | some .nan => .error .invalidValue
  | none => .error .mistyped

/-- A time with date, time of day and thousandths, as in `2000-02-29T00:00:00.500Z`. It is rounded to
millionths first. -/
def isoTime (v : Value) : Except Raised String := do
  let micros ← microseconds v
  let m ← Moment.ofTime (micros.fdiv 1000000)
  if m.year < 1 || 9999 < m.year then throw .invalidValue
  let millis := (micros.fmod 1000000 / 1000).toNat
  return m.date (padded 4 m.year.toNat) ++ "T" ++ m.time ++ "." ++ padded 3 millis ++ "Z"

def thousandths (x : Float) : Int :=
  match Number.truncate? x with
  | some whole => (Number.truncate? (fractionOf x whole * 1000)).getD 0
  | none => 0

/-- A time with date and time of day, as in `2000-02-29 00:00:00`. The year has as many digits as it needs, and
must fit half a machine integer. -/
def clockTime (v : Value) : Except Raised String := do
  let m ← Moment.ofTime (← wholeSeconds v)
  if Number.halfWordLimit ≤ m.year then throw .overflow
  return m.date (toString m.year) ++ " " ++ m.time

end NullSafe.Log
