import NullSafe.Text.Digit

/-! # Templates

A template is text with slots, each marked by a percent sign. A slot says how its argument is shown and how wide,
and may name its argument by a key.
-/

namespace NullSafe.Format

/-- What a template is made of. Bytes are characters below 256. -/
inductive Medium where
  | text
  | bytes
  deriving DecidableEq, Repr

inductive Count where
  | number (n : Nat)
  | argument
  deriving DecidableEq, Repr

inductive Key where
  | absent
  | unclosed
  | named (key : List Char)
  deriving DecidableEq, Repr

/-- A slot of a template. It may break off before it says how its argument is shown. -/
structure Slot where
  key : Key := .absent
  flags : List Char := []
  width : Count := .number 0
  precision : Option Count := none
  conversion : Option Char := none
  afterDigits : Bool := false
  deriving DecidableEq, Repr

inductive Piece where
  | text (c : Char)
  | slot (s : Slot)
  deriving DecidableEq, Repr

/-- The key in parentheses at the start of a text, at the given depth, and the rest. -/
def readKey? (depth : Nat) : List Char → Option (List Char × List Char)
  | [] => none
  | '(' :: rest => (readKey? (depth + 1) rest).map fun (k, r) => ('(' :: k, r)
  | ')' :: rest =>
    match depth with
    | 0 => some ([], rest)
    | d + 1 => (readKey? d rest).map fun (k, r) => (')' :: k, r)
  | c :: rest => (readKey? depth rest).map fun (k, r) => (c :: k, r)

def readCount (cs : List Char) : Count × List Char :=
  match cs with
  | '*' :: rest => (.argument, rest)
  | _ => (.number (Text.ofDecimal (cs.takeWhile Char.isDigit)), cs.dropWhile Char.isDigit)

def readPrecision (cs : List Char) : Option Count × List Char :=
  match cs with
  | '.' :: rest => let (n, rest) := readCount rest; (some n, rest)
  | _ => (none, cs)

def readSlotKey (cs : List Char) : Key × List Char :=
  match cs with
  | '(' :: rest =>
    match readKey? 0 rest with
    | some (key, rest) => (.named key, rest)
    | none => (.unclosed, [])
  | _ => (.absent, cs)

/-- Whether a character is a flag of a slot. Only bytes have one against a minus before zero. -/
def Medium.isFlag (m : Medium) (c : Char) : Bool :=
  "#0- +".toList.contains c || (m = .bytes && c = 'z')

/-- A text without the size mark at its start, which means nothing. -/
def dropSize (cs : List Char) : List Char :=
  match cs with
  | c :: rest => if c = 'h' || c = 'l' || c = 'L' then rest else cs
  | [] => []

def readSlot (m : Medium) (cs : List Char) : Slot × List Char :=
  let (key, cs) := readSlotKey cs
  let flags := cs.takeWhile m.isFlag
  let counts := cs.dropWhile m.isFlag
  let (width, cs) := readCount counts
  let (precision, cs) := readPrecision cs
  let cs := dropSize cs
  let afterDigits := (counts.take (counts.length - cs.length)).getLast?.any Char.isDigit
  ({ key, flags, width, precision, conversion := cs.head?, afterDigits }, cs.drop 1)

def piecesWithin (m : Medium) : Nat → List Char → List Piece
  | 0, _ => []
  | _, [] => []
  | fuel + 1, '%' :: '%' :: rest => .text '%' :: piecesWithin m fuel rest
  | fuel + 1, '%' :: rest =>
    let (s, rest) := readSlot m rest
    .slot s :: piecesWithin m fuel rest
  | fuel + 1, c :: rest => .text c :: piecesWithin m fuel rest

def pieces (m : Medium) (cs : List Char) : List Piece := piecesWithin m cs.length cs

end NullSafe.Format
