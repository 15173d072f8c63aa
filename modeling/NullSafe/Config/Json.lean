import NullSafe.Number.Reading
import NullSafe.Text.Digit
import NullSafe.Value.Snapshot

/-! # Settings files

A settings file holds one JSON value. Besides the values of the format, the words for numbers that are
none or infinite are read; a name that occurs again in an object replaces the value before.
-/

namespace NullSafe.Json

def isSpace (c : Char) : Bool := c = ' ' || c = '\t' || c = '\n' || c = '\r'

def skipSpace (cs : List Char) : List Char := cs.dropWhile isSpace

/-- The number written by four hexadecimal digits at the start of a text, and the rest. -/
def hexUnit? : List Char → Option (Nat × List Char)
  | a :: b :: c :: d :: rest =>
    if [a, b, c, d].all Text.isHexDigit then some (Text.ofHex [a, b, c, d], rest) else none
  | _ => none

def isHigh (n : Nat) : Bool := 0xD800 ≤ n && n < 0xDC00

def isLow (n : Nat) : Bool := 0xDC00 ≤ n && n < 0xE000

/-- The character of a unit. A half of a pair that stands alone is no character and is replaced. -/
def unitChar (n : Nat) : Char := if isHigh n || isLow n then '�' else Char.ofNat n

/-- The character after a backslash and `u`, and the rest: two halves of a pair are one character. -/
def unitEscape? (cs : List Char) : Option (Char × List Char) := do
  let (n, rest) ← hexUnit? cs
  match rest with
  | '\\' :: 'u' :: after =>
    match hexUnit? after with
    | some (m, after) =>
      if isHigh n && isLow m then
        return (Char.ofNat (0x10000 + (n - 0xD800) * 0x400 + (m - 0xDC00)), after)
      else return (unitChar n, rest)
    | none => return (unitChar n, rest)
  | _ => return (unitChar n, rest)

def letterEscape? : Char → Option Char
  | '"' => some '"'
  | '\\' => some '\\'
  | '/' => some '/'
  | 'b' => some '\x08'
  | 'f' => some '\x0c'
  | 'n' => some '\n'
  | 'r' => some '\r'
  | 't' => some '\t'
  | _ => none

/-- The rest of a string after its opening quote: its characters and what follows. -/
def stringRest? : Nat → List Char → Option (List Char × List Char)
  | 0, _ => none
  | fuel + 1, cs =>
    match cs with
    | [] => none
    | '"' :: rest => some ([], rest)
    | '\\' :: 'u' :: rest => do
      let (c, rest) ← unitEscape? rest
      let (s, rest) ← stringRest? fuel rest
      return (c :: s, rest)
    | '\\' :: e :: rest => do
      let c ← letterEscape? e
      let (s, rest) ← stringRest? fuel rest
      return (c :: s, rest)
    | c :: rest =>
      if c.toNat < 0x20 || c = '\\' then none
      else do
        let (s, rest) ← stringRest? fuel rest
        return (c :: s, rest)

def digits? (cs : List Char) : Option (List Char × List Char) :=
  let ds := cs.takeWhile Char.isDigit
  if ds.isEmpty then none else some (ds, cs.dropWhile Char.isDigit)

def fraction (cs : List Char) : List Char × List Char :=
  match cs with
  | '.' :: rest =>
    match digits? rest with
    | some (ds, after) => ('.' :: ds, after)
    | none => ([], cs)
  | _ => ([], cs)

def exponent (cs : List Char) : List Char × List Char :=
  match cs with
  | e :: rest =>
    if e = 'e' || e = 'E' then
      let sign := (rest.take 1).filter fun c => c = '+' || c = '-'
      match digits? (rest.drop sign.length) with
      | some (ds, after) => (e :: sign ++ ds, after)
      | none => ([], cs)
    else ([], cs)
  | [] => ([], cs)

inductive Fault where
  | malformed
  | oversized (digits : Nat)
  deriving DecidableEq, Repr

/-- What a text was read as; what cannot be read is malformed. -/
def orMalformed {α : Type} : Option α → Except Fault α
  | some a => .ok a
  | none => .error .malformed

def wholeNumber (negative : Bool) (ds : List Char) : Except Fault Snapshot :=
  let n : Int := Text.ofDecimal ds
  if ds.length ≤ Number.maxDigits then .ok (.int (if negative then -n else n))
  else .error (.oversized ds.length)

def number (cs : List Char) : Except Fault (Snapshot × List Char) := do
  let negative := cs.head? = some '-'
  let body := if negative then cs.drop 1 else cs
  let (ds, rest) ← orMalformed (if body.head? = some '0' then some (['0'], body.drop 1) else digits? body)
  let (f, rest) := fraction rest
  let (e, rest) := exponent rest
  let sign := if negative then ['-'] else []
  if f.isEmpty && e.isEmpty then return (← wholeNumber negative ds, rest)
  else return (.float (String.ofList (sign ++ ds ++ f ++ e)), rest)

def words : List (String × Snapshot) :=
  [("null", .null), ("true", .bool true), ("false", .bool false), ("NaN", .float "nan"),
    ("Infinity", .float "inf"), ("-Infinity", .float "-inf")]

def word? (cs : List Char) : Option (Snapshot × List Char) :=
  words.findSome? fun (w, v) =>
    if w.toList.isPrefixOf cs then some (v, cs.drop w.length) else none

def putEntry (entries : List (String × Snapshot)) (name : String) (v : Snapshot) : List (String × Snapshot) :=
  if entries.any (·.1 = name) then
    entries.map fun (n, old) => if n = name then (n, v) else (n, old)
  else entries ++ [(name, v)]

mutual

def value : Nat → List Char → Except Fault (Snapshot × List Char)
  | 0, _ => .error .malformed
  | fuel + 1, cs =>
    match cs with
    | '"' :: rest => do
      let (s, rest) ← orMalformed (stringRest? (rest.length + 1) rest)
      return (.str (String.ofList s), rest)
    | '[' :: rest =>
      match skipSpace rest with
      | ']' :: after => .ok (.list [], after)
      | rest => do
        let (vs, rest) ← items fuel rest
        return (.list vs, rest)
    | '\x7b' :: rest =>
      match skipSpace rest with
      | '\x7d' :: after => .ok (.dict [], after)
      | rest => do
        let (es, rest) ← entries fuel [] rest
        return (.dict (es.map fun (k, v) => (.str k, v)), rest)
    | cs =>
      match word? cs with
      | some r => .ok r
      | none => number cs

def items : Nat → List Char → Except Fault (List Snapshot × List Char)
  | 0, _ => .error .malformed
  | fuel + 1, cs => do
    let (v, rest) ← value fuel (skipSpace cs)
    match skipSpace rest with
    | ',' :: rest =>
      let (vs, rest) ← items fuel rest
      return (v :: vs, rest)
    | ']' :: rest => return ([v], rest)
    | _ => throw .malformed

def entries : Nat → List (String × Snapshot) → List Char → Except Fault (List (String × Snapshot) × List Char)
  | 0, _, _ => .error .malformed
  | fuel + 1, before, cs =>
    match skipSpace cs with
    | '"' :: rest => do
      let (name, rest) ← orMalformed (stringRest? (rest.length + 1) rest)
      match skipSpace rest with
      | ':' :: rest =>
        let (v, rest) ← value fuel (skipSpace rest)
        let before := putEntry before (String.ofList name) v
        match skipSpace rest with
        | ',' :: rest => entries fuel before rest
        | '\x7d' :: rest => return (before, rest)
        | _ => throw .malformed
      | _ => throw .malformed
    | _ => .error .malformed

end

def read (text : String) : Except Fault Snapshot := do
  let cs := skipSpace text.toList
  let (v, rest) ← value (2 * cs.length + 2) cs
  if (skipSpace rest).isEmpty then return v else throw .malformed

end NullSafe.Json
