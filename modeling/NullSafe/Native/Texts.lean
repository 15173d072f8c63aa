import NullSafe.Value.Arithmetic
import NullSafe.Text.Case

/-! # Methods of texts -/

namespace NullSafe.Native

open Text

def findText (sub : List Char) (pos : Nat) : List Char → Option Nat
  | [] => if sub.isEmpty then some pos else none
  | c :: rest => if sub.isPrefixOf (c :: rest) then some pos else findText sub (pos + 1) rest

/-- The number of places at which a text stands in another, without overlaps. -/
def countText (sub : List Char) : Nat → List Char → Nat
  | 0, _ => 0
  | fuel + 1, cs =>
    match findText sub 0 cs with
    | some i => 1 + countText sub fuel (cs.drop (i + sub.length))
    | none => 0

def replaceText (old new : List Char) : Nat → List Char → List Char
  | 0, cs => cs
  | limit + 1, cs =>
    match findText old 0 cs with
    | some i => cs.take i ++ new ++ replaceText old new limit (cs.drop (i + old.length))
    | none => cs

/-- Puts a text before each of the first `limit` characters and, if places are left, at the end. -/
def insertBetween (new : List Char) : Nat → List Char → List Char
  | 0, cs => cs
  | _ + 1, [] => new
  | limit + 1, c :: rest => new ++ c :: insertBetween new limit rest

def splitText (sep : List Char) : Nat → List Char → List (List Char)
  | 0, cs => [cs]
  | limit + 1, cs =>
    match findText sep 0 cs with
    | some i => cs.take i :: splitText sep limit (cs.drop (i + sep.length))
    | none => [cs]

/-- The words of a text, up to `limit` of them split off; the rest stays whole. -/
def splitBlanks : Nat → Nat → List Char → List (List Char)
  | 0, _, _ => []
  | fuel + 1, limit, cs =>
    let cs := trimLeft cs
    if cs.isEmpty then []
    else
      match limit with
      | 0 => [cs]
      | limit + 1 =>
        cs.takeWhile (!isBlank ·) :: splitBlanks fuel limit (cs.dropWhile (!isBlank ·))

def stripChars (chars cs : List Char) : List Char :=
  let left := cs.dropWhile chars.contains
  (left.reverse.dropWhile chars.contains).reverse

/-- A bound of a range of positions: the default when it is missing, counted from the end when negative. -/
def clampBound (length : Nat) (missing : Nat) (v : Value) : Except Raised Nat :=
  match v with
  | .null => .ok missing
  | v => do
    let i ← World.toIndex v
    return if i < 0 then (i + length).toNat else i.toNat

/-- The bounds of a range of positions in a text. The end is at most the length. -/
def textRange (length : Nat) (bounds : List Value) : Except Raised (Nat × Nat) := do
  let start ← (bounds[0]?).elim (.ok 0) (clampBound length 0)
  let stop ← (bounds[1]?).elim (.ok length) (clampBound length length)
  return (start, Nat.min stop length)

def textArg : Value → Except Raised (List Char)
  | .str s => .ok s.toList
  | _ => .error .mistyped

def limitArg (everything : Nat) (v : Option Value) : Except Raised Nat :=
  match v with
  | none => .ok everything
  | some v => do
    let i ← World.toSize v
    return if i < 0 then everything else i.toNat

def hasAffix (atStart : Bool) (cs sub : List Char) (start stop : Nat) : Bool :=
  if stop < start + sub.length then false
  else
    let part := (cs.drop start).take (stop - start)
    if atStart then sub.isPrefixOf part else sub.isSuffixOf part

/-- The values that an affix test tries: one, or those of a tuple. -/
def affixes (w : World) : Value → List Value
  | .tuple r => w.tuple r
  | v => [v]

/-- Whether a test holds of one of several texts. They are tried in order, up to the first that passes. -/
def anyText (test : List Char → Bool) : List Value → Except Raised Bool
  | [] => .ok false
  | v :: rest => do
    let cs ← textArg v
    if test cs then return true else anyText test rest

def affixTest (atStart : Bool) (cs : List Char) (sub : Value) (bounds : List Value) :
    Run Value := do
  let (start, stop) ← Run.ofExcept fun _ => textRange cs.length bounds
  return .bool (← Run.ofExcept fun w =>
    anyText (fun sub => hasAffix atStart cs sub start stop) (affixes w sub))

def newTexts (texts : List (List Char)) : Run Value :=
  Run.newList (texts.map fun cs => .str (String.ofList cs))

def split (cs : List Char) (sep : Value) (limit : Option Value) : Run Value := do
  let limit ← Run.ofExcept fun _ => limitArg (cs.length + 1) limit
  match sep with
  | .null => newTexts (splitBlanks (cs.length + 1) limit cs)
  | .str s =>
    if s.isEmpty then throw .invalidValue else newTexts (splitText s.toList limit cs)
  | _ => throw .mistyped

def replace (cs : List Char) (old new : Value) (limit : Option Value) : Run Value := do
  let old ← Run.ofExcept fun _ => textArg old
  let new ← Run.ofExcept fun _ => textArg new
  let limit ← Run.ofExcept fun _ => limitArg (cs.length + 1) limit
  return .str (String.ofList (if old.isEmpty then insertBetween new limit cs else replaceText old new limit cs))

def find (cs : List Char) (sub : Value) (bounds : List Value) : Run Value := do
  let sub ← Run.ofExcept fun _ => textArg sub
  let (start, stop) ← Run.ofExcept fun _ => textRange cs.length bounds
  if stop < start then return .int (-1)
  else
    match findText sub start ((cs.drop start).take (stop - start)) with
    | some i => return .int i
    | none => return .int (-1)

def countIn (cs : List Char) (sub : Value) (bounds : List Value) : Run Value := do
  let sub ← Run.ofExcept fun _ => textArg sub
  let (start, stop) ← Run.ofExcept fun _ => textRange cs.length bounds
  if stop < start then return .int 0
  else
    let part := (cs.drop start).take (stop - start)
    if sub.isEmpty then return .int (part.length + 1)
    else return .int (countText sub (part.length + 1) part)

def join (sep : List Char) (v : Value) : Run Value := do
  let items ← Run.ofExcept (·.items v)
  let texts ← Run.ofExcept fun _ => items.mapM textArg
  return .str (String.ofList (List.intercalate sep texts))

def textMethod (s : String) (m : Method) (args : List Value) : Run Value := do
  let cs := s.toList
  let plain (out : List Char) : Run Value := return .str (String.ofList out)
  match m, args with
  | .upper, [] => plain (upper cs)
  | .lower, [] => plain (lower cs)
  | .title, [] => plain (title cs)
  | .isDigit, [] => return .bool (!cs.isEmpty && cs.all isDigit)
  | .strip, [] | .strip, [.null] => plain (trim cs)
  | .strip, [chars] => plain (stripChars (← Run.ofExcept fun _ => textArg chars) cs)
  | .split, [] => split cs .null none
  | .split, [sep] => split cs sep none
  | .split, [sep, limit] => split cs sep (some limit)
  | .replace, [old, new] => replace cs old new none
  | .replace, [old, new, limit] => replace cs old new (some limit)
  | .join, [v] => join cs v
  | .find, sub :: bounds => if bounds.length ≤ 2 then find cs sub bounds else throw .mistyped
  | .count, sub :: bounds => if bounds.length ≤ 2 then countIn cs sub bounds else throw .mistyped
  | .startsWith, sub :: bounds =>
    if bounds.length ≤ 2 then affixTest true cs sub bounds else throw .mistyped
  | .endsWith, sub :: bounds =>
    if bounds.length ≤ 2 then affixTest false cs sub bounds else throw .mistyped
  | _, _ => throw .mistyped

end NullSafe.Native
