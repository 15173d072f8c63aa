import NullSafe.Value.Arithmetic
import NullSafe.Pattern.Template

/-! # Methods of patterns and matches -/

namespace NullSafe.Native

open Pattern

def compiled (body : String) (flags : Flags) : Run Compiled := do
  match Pattern.compile body.toList flags with
  | .ok p => return p
  | .error _ => throw .malformedPattern

def searchBound : Option Value → Run (Option Int)
  | some v => return some (← Run.ofExcept fun _ => World.toSize v)
  | none => return none

def searchBounds (bounds : List Value) : Run (Option Int × Option Int) := do
  let start ← searchBound bounds[0]?
  let stop ← searchBound bounds[1]?
  return (start, stop)

/-- The cursor at which a search in a text starts. Bounds are moved into the text. -/
def searchCursor (text : List Char) (bounds : Option Int × Option Int) : Cursor :=
  let moved (i : Int) : Nat := Nat.min i.toNat text.length
  Cursor.within text ((bounds.1.map moved).getD 0) ((bounds.2.map moved).getD text.length)

def matchValue (p : Compiled) (text : List Char) : Option Match → Run Value
  | some m => Run.newFound ⟨text, m, p.names⟩
  | none => return .null

def groupValue (text : List Char) (missing : Value) : Option (Nat × Nat) → Value
  | some (a, b) => .str (String.ofList (slice text a b))
  | none => missing

/-- What a list of all matches shows of one: the match, its only group, or a tuple of its groups. -/
def shownMatch (text : List Char) (m : Match) : Run Value :=
  match m.groups with
  | [] => return groupValue text .null (some (m.start, m.stop))
  | [g] => return groupValue text (.str "") g
  | gs => Run.newTuple (gs.map (groupValue text (.str "")))

inductive Replacement where
  | text (parts : List Part)
  /-- Bytes, which cannot be joined to a text; what they take from groups can. -/
  | bytes (parts : List Part)
  | function (f : Value)

def templateParts (p : Compiled) (cs : List Char) : Run (List Part) := do
  match p.template (cs.length + 1) cs with
  | .ok parts => return parts
  | .error .malformed => throw .malformedPattern
  | .error .unknownName => throw .outOfRange

def replacementOf (p : Compiled) (repl : Value) : Run Replacement := do
  match repl with
  | .str s => return .text (← templateParts p s.toList)
  | .bytes bs => return .bytes (← templateParts p (bs.map fun b => Char.ofNat b.toNat))
  | f => if (← get).isCallable f then return .function f else throw .mistyped

def Part.isGroup : Part → Bool
  | .group _ => true
  | .char _ => false

def Replacement.value (call : Value → List Value → Run Value) (p : Compiled) (text : List Char)
    (m : Match) : Replacement → Run Value
  | .text parts => return .str (String.ofList (expand parts text m))
  | .bytes parts =>
    if !parts.isEmpty && parts.all Part.isGroup then return .str (String.ofList (expand parts text m))
    else return .bytes []
  | .function f => do call f [← Run.newFound ⟨text, m, p.names⟩]

/-- The text from a position on with matches replaced by values, each of which is a text or missing. -/
def joinReplaced (text : List Char) (pos : Nat) : List (Match × Value) → Except Raised (List Char)
  | [] => .ok (text.drop pos)
  | (m, v) :: rest => do
    let new ← match v with
      | .str s => .ok s.toList
      | .null => .ok []
      | _ => .error .mistyped
    let after ← joinReplaced text m.stop rest
    return slice text pos m.start ++ new ++ after

/-- Replaces matches of a pattern in a text, at most `limit` of them unless it is zero. -/
def substitute (call : Value → List Value → Run Value) (p : Compiled) (repl text limit : Value) :
    Run Value := do
  let limit ← Run.ofExcept fun _ => World.toSize limit
  let replacement ← replacementOf p repl
  match text with
  | .str s =>
    let text := s.toList
    let found := p.all (Cursor.start text)
    let found := if limit = 0 then found else found.take limit.toNat
    let replaced ← found.mapM fun m => return (m, ← replacement.value call p text m)
    return .str (String.ofList (← Run.ofExcept fun _ => joinReplaced text 0 replaced))
  | _ => throw .mistyped

def searchMethod (p : Compiled) (m : Method) (text : List Char) (cursor : Cursor) : Run Value := do
  match m with
  | .match_ => matchValue p text (p.matchAt false cursor)
  | .search => if 0 < cursor.excess then return .null else matchValue p text (p.search false cursor)
  | .findAll =>
    if 0 < cursor.excess then Run.newList []
    else Run.newList (← (p.all cursor).mapM (shownMatch text))
  | _ => throw .mistyped

def searchValue (p : Compiled) (m : Method) (bounds : Option Int × Option Int) : Value → Run Value
  | .str s => searchMethod p m s.toList (searchCursor s.toList bounds)
  | _ => throw .mistyped

def patternMethod (call : Value → List Value → Run Value) (body : String) (flags : Flags) (m : Method)
    (args : List Value) : Run Value := do
  let p ← compiled body flags
  match m, args with
  | .sub, [repl, text] => substitute call p repl text (.int 0)
  | .sub, [repl, text, limit] => substitute call p repl text limit
  | .sub, _ => throw .mistyped
  | m, text :: bounds =>
    if bounds.length > 2 then throw .mistyped
    searchValue p m (← searchBounds bounds) text
  | _, [] => throw .mistyped

def numberedSpan (f : Found) (i : Int) : Run (Option (Nat × Nat)) :=
  if i = 0 then return some (f.result.start, f.result.stop)
  else if i < 0 then throw .outOfRange
  else
    match f.result.groups[i.toNat - 1]? with
    | some g => return g
    | none => throw .outOfRange

/-- The ends of a group of a match, by number or name; the whole match is group zero. -/
def groupSpan (f : Found) (v : Value) : Run (Option (Nat × Nat)) := do
  match v with
  | .int i => numberedSpan f i
  | .bool b => numberedSpan f (if b then 1 else 0)
  | .str name =>
    match f.names.lookup name with
    | some n => numberedSpan f n
    | none => throw .outOfRange
  | v => if f.names.isEmpty || (← get).hashable v then throw .outOfRange else throw .mistyped

def foundMethod (r : Ref) (m : Method) (args : List Value) : Run Value := do
  let f := (← get).found r
  let group (v : Value) : Run Value := return groupValue f.text .null (← groupSpan f v)
  match m, args with
  | .group, [] => group (.int 0)
  | .group, [v] => group v
  | .group, vs => Run.newTuple (← vs.mapM group)
  | .start, [] => return .int f.result.start
  | .start, [v] =>
    match ← groupSpan f v with
    | some (a, _) => return .int a
    | none => return .int (-1)
  | _, _ => throw .mistyped

end NullSafe.Native
