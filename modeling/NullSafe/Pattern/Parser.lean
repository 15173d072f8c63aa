import NullSafe.Number.Reading
import NullSafe.Pattern.Syntax
import NullSafe.Text.Identifier

/-! # Reading patterns

The notation of patterns. A pattern that does not follow it is malformed; a repetition that counts
beyond every length is too large, and one whose count has too many digits cannot be read.
-/

namespace NullSafe.Pattern

open Text

inductive Fault where
  | malformed
  | tooLarge
  /-- A count has too many digits, or flags contradict each other. -/
  | invalid
  deriving DecidableEq, Repr

structure Progress where
  rest : List Char
  groups : Nat := 0
  /-- The groups that are closed, with the number of characters that each has if it is fixed. -/
  widths : List (Nat × Option Nat) := []
  /-- In a look behind: the number of groups opened before it. -/
  earlier : Option Nat := none
  unbounded : Bool := false
  names : List (String × Nat) := []
  flags : Flags := {}
  beyondAscii : Bool := false
  deriving Inhabited

abbrev Reader := StateT Progress (Except Fault)

def malformed {α : Type} : Reader α := throw .malformed

def peek : Reader (Option Char) := do return (← get).rest.head?

def skip (n : Nat) : Reader Unit := modify fun p => { p with rest := p.rest.drop n }

def accept (c : Char) : Reader Bool := do
  if (← peek) = some c then skip 1; return true else return false

def span (f : Char → Bool) : Reader (List Char) := do
  let p ← get
  set { p with rest := p.rest.dropWhile f }
  return p.rest.takeWhile f

def hexChar (n : Nat) : Reader Char := do
  let p ← get
  let ds := p.rest.take n
  if ds.length = n && ds.all isHexDigit then
    set { p with rest := p.rest.drop n }
    let code := ofHex ds
    if code < 0x110000 then return Char.ofNat code else malformed
  else malformed

def isOctal (c : Char) : Bool := '0' ≤ c && c ≤ '7'

def isAsciiDigit (c : Char) : Bool := '0' ≤ c && c ≤ '9'

def numberOf (base : Nat) (ds : List Char) : Nat :=
  ofDigits base (ds.map fun c => c.toNat - '0'.toNat)

def letterEscape? : Char → Option Char
  | 'a' => some '\x07'
  | 'f' => some '\x0C'
  | 'n' => some '\n'
  | 'r' => some '\r'
  | 't' => some '\t'
  | 'v' => some '\x0B'
  | '\\' => some '\\'
  | _ => none

def kindEscape? : Char → Option Item
  | 'd' => some (.kind false .digit)
  | 'D' => some (.kind true .digit)
  | 'w' => some (.kind false .word)
  | 'W' => some (.kind true .word)
  | 's' => some (.kind false .blank)
  | 'S' => some (.kind true .blank)
  | _ => none

def placeEscape? : Char → Option Place
  | 'A' => some .textStart
  | 'Z' => some .textEnd
  | 'b' => some .wordEdge
  | 'B' => some .notWordEdge
  | _ => none

/-- The character for an escape by number, whose letter has been passed. -/
def numericEscape (c : Char) : Reader (Option Char) := do
  match c with
  | 'x' => some <$> hexChar 2
  | 'u' => some <$> hexChar 4
  | 'U' => some <$> hexChar 8
  | _ => return none

def charEscape (c : Char) : Reader Char := do
  if let some d ← numericEscape c then return d
  else if let some d := letterEscape? c then return d
  else if c.isAlphanum then malformed
  else return c

/-- The character for octal digits, of which the first has been passed and the others are to be. -/
def octalChar (ds : List Char) : Reader Char := do
  skip (ds.length - 1)
  let n := numberOf 8 ds
  if n > 0o377 then malformed else return Char.ofNat n

def setEscape : Reader Item := do
  match ← peek with
  | none => malformed
  | some c =>
    skip 1
    if let some item := kindEscape? c then return item
    else if c = 'b' then return .char '\x08'
    else if isOctal c then .char <$> octalChar (c :: ((← get).rest.take 2).takeWhile isOctal)
    else .char <$> charEscape c

def setMember : Reader Item := do
  match ← peek with
  | none => malformed
  | some '\\' => skip 1; setEscape
  | some c => skip 1; return .char c

/-- A member of a class or a range of characters, with the members behind it. -/
def setRange (others : Reader (List Item)) : Reader (List Item) := do
  let low ← setMember
  let p ← get
  match p.rest with
  | '-' :: ']' :: _ => return low :: (← others)
  | '-' :: _ =>
    skip 1
    let high ← setMember
    match low, high with
    | .char a, .char b => if b < a then malformed else return .range a b :: (← others)
    | _, _ => malformed
  | _ => return low :: (← others)

/-- The members of a class up to the closing bracket; `first` tells that a bracket is a member. -/
def setItems (fuel : Nat) (first : Bool) : Reader (List Item) := do
  match fuel with
  | 0 => malformed
  | fuel + 1 =>
    match ← peek with
    | none => malformed
    | some ']' =>
      if first then setRange (setItems fuel false) else skip 1; return []
    | some _ => setRange (setItems fuel false)

/-- A class, whose opening bracket has been passed. One with a single character is that character. -/
def setNode : Reader Node := do
  let negated ← accept '^'
  let items ← setItems ((← get).rest.length + 1) true
  match items.eraseDups with
  | [.char c] => return if negated then .notChar c else .char c
  | items => return .set negated items

/-- Whether a group is closed; in a look behind, before it. -/
def Progress.hasClosed (p : Progress) (n : Nat) : Bool :=
  (p.widths.lookup n).isSome && p.earlier.all (n ≤ ·)

def referenceTo (n : Nat) : Reader Node := do
  if (← get).hasClosed n then return .reference n else malformed

def escapeNode : Reader Node := do
  match ← peek with
  | none => malformed
  | some c =>
    skip 1
    if let some item := kindEscape? c then return .set false [item]
    else if let some p := placeEscape? c then return .place p
    else if isAsciiDigit c then
      let p ← get
      let octals := (c :: p.rest.take 2).takeWhile isOctal
      if c = '0' || octals.length = 3 then .char <$> octalChar octals
      else
        let more := (p.rest.take 1).takeWhile isAsciiDigit
        skip more.length
        referenceTo (numberOf 10 (c :: more))
    else .char <$> charEscape c

def count (ds : List Char) : Reader Nat := do
  let n := numberOf 10 ds
  if ds.length > Number.maxDigits then throw .invalid
  else if n ≥ 4294967295 then throw .tooLarge
  else return n

/-- The bounds in braces after an item, or nothing when the brace is a character. -/
def bounds? : Reader (Option (Nat × Option Nat)) := do
  let start ← get
  skip 1
  let low ← span isAsciiDigit
  let comma ← accept ','
  let high ← if comma then span isAsciiDigit else pure low
  if (low.isEmpty && !comma) || !(← accept '\x7d') then
    set start
    return none
  else
    let least ← count low
    let most ← if high.isEmpty then pure none else some <$> count high
    if most.any (· < least) then malformed else return some (least, most)

def repetition? : Reader (Option (Nat × Option Nat)) := do
  match ← peek with
  | some '*' => skip 1; return some (0, none)
  | some '+' => skip 1; return some (1, none)
  | some '?' => skip 1; return some (0, some 1)
  | some '\x7b' => bounds?
  | _ => return none

def greed : Reader Greed := do
  if ← accept '?' then return .lazy
  else if ← accept '+' then return .possessive
  else return .greedy

/-- What a repetition applies to: items, and whether they are in parentheses of their own. -/
structure Chunk where
  items : List Node
  grouped : Bool := false

def Node.ofItems : List Node → Node
  | [] => .empty
  | [node] => node
  | node :: rest => .seq node (ofItems rest)

/-- Whether a chunk can be repeated: a place or a repetition only in parentheses. -/
def Chunk.isRepeatable (u : Chunk) : Bool :=
  u.grouped ||
    match u.items with
    | [.place _] | [.loop _ _ _ _] => false
    | _ => true

/-- Whether an item matches in at most one way at every place. -/
def Node.isStep : Node → Bool
  | .char _ | .notChar _ | .any | .set _ _ | .place _ | .reference _ => true
  | _ => false

/-- How many steps at their start a sequence and others have in common. -/
def sharedSteps : List Node → List (List Node) → Nat
  | [], _ => 0
  | node :: rest, others =>
    if node.isStep && others.all (·.head? == some node) then
      sharedSteps rest (others.map (·.drop 1)) + 1
    else 0

def classItems? : List Node → Option (List Item)
  | [.char c] => some [.char c]
  | [.set false items] => some items
  | _ => none

def Node.ofChoices : List (List Node) → Node
  | [] => .empty
  | [items] => .ofItems items
  | items :: rest => .alt (.ofItems items) (ofChoices rest)

/-- The items for alternatives: what they have in common, then a choice. Alternatives that are characters or
classes make one class. -/
def choiceItems : List (List Node) → List Node
  | [] => []
  | [items] => items
  | first :: others =>
    let n := sharedSteps first others
    let rests := (first :: others).map (·.drop n)
    match rests.mapM classItems? with
    | some items => first.take n ++ [Node.set false items.flatten.eraseDups]
    | none => first.take n ++ [Node.ofChoices rests]

def nameUntil (close : Char) : Reader (List Char) := do
  let name ← span (· != close)
  if ← accept close then return name else malformed

def openGroup (name : Option String) : Reader Nat := do
  let p ← get
  let n := p.groups + 1
  match name with
  | some s =>
    if p.names.any (·.1 = s) then malformed
    else set { p with groups := n, names := p.names ++ [(s, n)] }
  | none => set { p with groups := n }
  return n

def closeGroup (n : Nat) (body : Node) : Reader Unit :=
  modify fun p => { p with widths := (n, body.width? p.widths) :: p.widths }

def isFlagLetter (c : Char) : Bool := "aiLmstux".toList.contains c

def areCompatible (on off : List Char) : Bool :=
  !on.contains 'L' && !(on.contains 'a' && on.contains 'u') && !off.any "aLu".toList.contains && !on.any off.contains

def areLocal (on off : List Char) : Bool := !on.contains 't' && !off.contains 't'

def comment : Reader Unit := do
  let _ ← span (· != ')')
  if ← accept ')' then return else malformed

def lineComment : Reader Unit := do
  let _ ← span (· != '\n')
  skip 1

def askedIndex (name : List Char) : Reader Nat := do
  let p ← get
  let index := if isIdentifier name then p.names.lookup (String.ofList name)
    else (Number.readInt? name).bind Int.toNat?
  match index with
  | none | some 0 => malformed
  | some n => if p.earlier.isSome && !p.hasClosed n then malformed else return n

inductive Piece where
  | chunk (u : Chunk)
  | repetition (least : Nat) (most : Option Nat)
  | nothing

def Piece.item (node : Node) : Piece := .chunk { items := [node] }

def Chunk.repeated (u : Chunk) (least : Nat) (most : Option Nat) : Reader Chunk := do
  if u.isRepeatable then return { items := [.loop least most (← greed) (.ofItems u.items)] }
  else malformed

mutual

/-- Alternatives with bars between them. The first one of a whole pattern may start with flags. -/
def alternatives (fuel : Nat) (atStart verbose : Bool) : Reader (List (List Node)) := do
  match fuel with
  | 0 => malformed
  | fuel + 1 =>
    let items ← sequence fuel atStart verbose []
    if ← accept '|' then
      let verbose := verbose || (atStart && (← get).flags.verbose)
      return items :: (← alternatives fuel false verbose)
    else return [items]

/-- Items one after the other, behind the given chunks, of which the last comes first. -/
def sequence (fuel : Nat) (atStart verbose : Bool) (before : List Chunk) : Reader (List Node) := do
  match fuel with
  | 0 => malformed
  | fuel + 1 =>
    match ← peek with
    | none | some '|' | some ')' => return before.reverse.flatMap (·.items)
    | some c =>
      if verbose && isAsciiBlank c then
        skip 1
        sequence fuel atStart verbose before
      else if verbose && c = '#' then
        lineComment
        sequence fuel atStart verbose before
      else
        match ← piece fuel (atStart && before.isEmpty) verbose with
        | .chunk u => sequence fuel atStart verbose (u :: before)
        | .nothing => sequence fuel atStart (verbose || (atStart && (← get).flags.verbose)) before
        | .repetition least most =>
          match before with
          | [] => malformed
          | u :: before => sequence fuel atStart verbose ((← u.repeated least most) :: before)

def piece (fuel : Nat) (atStart verbose : Bool) : Reader Piece := do
  match fuel with
  | 0 => malformed
  | fuel + 1 =>
    match ← peek with
    | none => malformed
    | some '.' => skip 1; return .item .any
    | some '^' => skip 1; return .item (.place .lineStart)
    | some '$' => skip 1; return .item (.place .lineEnd)
    | some '[' => skip 1; .item <$> setNode
    | some '\\' => skip 1; .item <$> escapeNode
    | some '(' => skip 1; group fuel atStart verbose
    | some c =>
      match ← repetition? with
      | some (least, most) => return .repetition least most
      | none => skip 1; return .item (.char c)

/-- What is in parentheses, the opening one of which has been passed. -/
def group (fuel : Nat) (atStart verbose : Bool) : Reader Piece := do
  match fuel with
  | 0 => malformed
  | fuel + 1 =>
    match (← get).rest with
    | '?' :: ':' :: _ =>
      skip 2
      return .chunk { items := ← closed fuel verbose, grouped := true }
    | '?' :: '>' :: _ => skip 2; return .item (.atomic (.ofItems (← closed fuel verbose)))
    | '?' :: '=' :: _ => skip 2; return .item (.ahead false (.ofItems (← closed fuel verbose)))
    | '?' :: '!' :: _ => skip 2; return .item (.ahead true (.ofItems (← closed fuel verbose)))
    | '?' :: '<' :: '=' :: _ => skip 3; .item <$> lookBehind fuel verbose false
    | '?' :: '<' :: '!' :: _ => skip 3; .item <$> lookBehind fuel verbose true
    | '?' :: '#' :: _ => skip 2; comment; return .nothing
    | '?' :: 'P' :: '<' :: _ =>
      skip 3
      let name ← nameUntil '>'
      if isIdentifier name then .item <$> captured fuel verbose (some (String.ofList name))
      else malformed
    | '?' :: 'P' :: '=' :: _ =>
      skip 3
      let name ← nameUntil ')'
      match (← get).names.lookup (String.ofList name) with
      | some n => .item <$> referenceTo n
      | none => malformed
    | '?' :: '(' :: _ =>
      skip 2
      let n ← askedIndex (← nameUntil ')')
      let yes ← sequence fuel false verbose []
      let no ← if ← accept '|' then sequence fuel false verbose [] else pure []
      if ← accept ')' then return .item (.branch n (.ofItems yes) (.ofItems no)) else malformed
    | '?' :: _ =>
      skip 1
      let on ← span isFlagLetter
      let minus ← accept '-'
      let off ← if minus then span isFlagLetter else pure []
      if !areCompatible on off || (if minus then off.isEmpty else on.isEmpty) then malformed
      else if ← accept ':' then
        if areLocal on off then flagged fuel verbose on off else malformed
      else if atStart && !minus && (← accept ')') then
        modify fun p => { p with
          flags := p.flags.union (.ofMarks on)
          beyondAscii := p.beyondAscii || on.contains 'u' }
        return .nothing
      else malformed
    | _ => .item <$> captured fuel verbose none

def flagged (fuel : Nat) (verbose : Bool) (on off : List Char) : Reader Piece := do
  match fuel with
  | 0 => malformed
  | fuel + 1 =>
    let body ← closed fuel ((verbose || on.contains 'x') && !off.contains 'x')
    let off := { Flags.ofMarks off with ascii := on.contains 'u' }
    return .item (.flagged (.ofMarks on) off (.ofItems body))

def captured (fuel : Nat) (verbose : Bool) (name : Option String) : Reader Node := do
  match fuel with
  | 0 => malformed
  | fuel + 1 =>
    let n ← openGroup name
    let body := Node.ofItems (← closed fuel verbose)
    closeGroup n body
    return .group n body

def lookBehind (fuel : Nat) (verbose negated : Bool) : Reader Node := do
  match fuel with
  | 0 => malformed
  | fuel + 1 =>
    let earlier := (← get).earlier
    modify fun p => { p with earlier := earlier.or (some p.groups) }
    let body := Node.ofItems (← closed fuel verbose)
    let width := (body.width? (← get).widths).filter (· < 4294967296)
    modify fun p => { p with earlier, unbounded := p.unbounded || width.isNone }
    return .behind negated (width.getD 0) body

/-- Alternatives up to the closing parenthesis, which is passed. -/
def closed (fuel : Nat) (verbose : Bool) : Reader (List Node) := do
  match fuel with
  | 0 => malformed
  | fuel + 1 =>
    let choices ← alternatives fuel false verbose
    if ← accept ')' then return choiceItems choices else malformed

end

def Node.askedGroup : Node → Nat
  | .group _ b | .loop _ _ _ b | .ahead _ b | .behind _ _ b | .atomic b | .flagged _ _ b => b.askedGroup
  | .seq a b | .alt a b => max a.askedGroup b.askedGroup
  | .branch n a b => max n (max a.askedGroup b.askedGroup)
  | _ => 0

def Node.repeats : Node → Bool
  | .loop _ _ _ _ => true
  | .group _ b | .ahead _ b | .behind _ _ b | .atomic b | .flagged _ _ b => b.repeats
  | .seq a b | .alt a b | .branch _ a b => a.repeats || b.repeats
  | _ => false

structure Compiled where
  node : Node
  flags : Flags
  groups : Nat
  names : List (String × Nat)
  deriving Inhabited

def compile (body : List Char) (flags : Flags) : Except Fault Compiled := do
  let (choices, p) ← (alternatives (8 * (body.length + 1)) true flags.verbose).run { rest := body }
  let node := Node.ofItems (choiceItems choices)
  let flags := flags.union p.flags
  if flags.ascii && p.beyondAscii then throw .invalid
  if !p.rest.isEmpty || node.askedGroup > p.groups || p.unbounded then throw .malformed
  if flags.unrepeated && node.repeats then throw .malformed
  return ⟨node, flags, p.groups, p.names⟩

end NullSafe.Pattern
