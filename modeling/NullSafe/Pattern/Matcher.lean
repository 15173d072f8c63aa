import NullSafe.Pattern.Parser

/-! # Matching patterns

A match is searched from left to right; at each place the alternatives of the pattern are tried in order,
and the first way in which all of it matches counts.
-/

namespace NullSafe.Pattern

open Text

/-- A place in a text and the groups matched so far. The text may be read up to its end only; a search can
start behind that, where nothing is left to read. -/
structure Cursor where
  before : List Char
  rest : List Char
  position : Nat
  /-- How far the place is behind the end. -/
  excess : Nat := 0
  /-- The characters from there on, when the place is behind the end. -/
  unread : List Char := []
  groups : List (Nat × Nat × Nat) := []
  deriving Inhabited

namespace Cursor

def advance (s : Cursor) : Cursor :=
  match s.rest with
  | [] => s
  | c :: rest => { s with before := c :: s.before, rest, position := s.position + 1 }

def back (s : Cursor) (n : Nat) : Cursor :=
  { s with
    before := s.before.drop n
    rest := (s.before.take n).reverse.take (n - s.excess) ++ s.rest
    position := s.position - n
    excess := s.excess - n
    unread := (s.before.take n).reverse ++ s.unread }

def start (text : List Char) : Cursor := { before := [], rest := text, position := 0 }

def forward (s : Cursor) (n : Nat) : Cursor :=
  { s with
    before := (s.rest.take n).reverse ++ s.before
    rest := s.rest.drop n
    position := s.position + min n s.rest.length }

/-- The cursor at `start` in a text that may be read up to `stop`. -/
def within (text : List Char) (start stop : Nat) : Cursor :=
  { before := (text.take start).reverse
    rest := (text.take stop).drop start
    position := start
    excess := start - stop
    unread := text.drop start }

def readsNothing (s : Cursor) : Bool := s.rest.isEmpty && s.position ≤ s.excess

def atEnd (s : Cursor) : Bool := s.rest.isEmpty && s.excess = 0

def here? (s : Cursor) : Option Char := if s.excess = 0 then s.rest.head? else s.unread.head?

def group? (s : Cursor) (n : Nat) : Option (Nat × Nat) := s.groups.lookup n

def isWordEdge (flags : Flags) (s : Cursor) : Bool :=
  s.before.head?.any flags.isWord != s.rest.head?.any flags.isWord

end Cursor

/-- Whether a cursor is at a place. An empty text has neither a word's edge nor a place that is none. -/
def Place.holds (flags : Flags) (s : Cursor) : Place → Bool
  | lineStart => s.before.isEmpty || (flags.multiline && s.before.head? = some '\n')
  | lineEnd => s.atEnd || s.rest = ['\n'] || (flags.multiline && s.here? = some '\n')
  | textStart => s.before.isEmpty
  | textEnd => s.atEnd
  | wordEdge => !s.readsNothing && s.isWordEdge flags
  | notWordEdge => !s.readsNothing && !s.isWordEdge flags

def oneChar (test : Char → Bool) (s : Cursor) (next : Cursor → Option Cursor) : Option Cursor :=
  match s.rest with
  | c :: _ => if test c then next s.advance else none
  | [] => none

def literalText (same : Char → Char → Bool) : List Char → Cursor → (Cursor → Option Cursor) → Option Cursor
  | [], s, next => next s
  | c :: cs, s, next => oneChar (same c) s fun s => literalText same cs s next

/-- Matches further rounds of a body. A round that matches nothing is the last one. -/
def rounds (body : Cursor → (Cursor → Option Cursor) → Option Cursor) (lazy : Bool) :
    Nat → Nat → Option Nat → Cursor → (Cursor → Option Cursor) → Option Cursor
  | 0, _, _, s, next => next s
  | fuel + 1, least + 1, most, s, next =>
    body s fun s' => rounds body lazy fuel least (most.map (· - 1)) s' next
  | fuel + 1, 0, most, s, next =>
    if most = some 0 then next s
    else
      let more : Option Cursor := body s fun s' =>
        if s'.position = s.position then next s'
        else rounds body lazy fuel 0 (most.map (· - 1)) s' next
      if lazy then (next s).or more else more.or (next s)

def Node.run (flags : Flags) : Node → Cursor → (Cursor → Option Cursor) → Option Cursor
  | empty, s, next => next s
  | char c, s, next => oneChar (flags.same c) s next
  | notChar c, s, next => oneChar (fun d => !flags.same c d) s next
  | any, s, next => oneChar (fun d => flags.dotAll || d != '\n') s next
  | set negated items, s, next => oneChar (fun d => items.any (·.mem flags d) != negated) s next
  | place p, s, next => if p.holds flags s then next s else none
  | group index body, s, next =>
    body.run flags s fun s' =>
      next { s' with groups := (index, s.position, s'.position) :: s'.groups }
  | seq a b, s, next => a.run flags s fun s' => b.run flags s' next
  | alt a b, s, next => (a.run flags s next).or (b.run flags s next)
  | loop least most greed body, s, next =>
    let fuel := s.rest.length + least + 1
    if body.isUnit && 0 < s.excess then none
    else match greed with
    | .possessive =>
      match rounds (fun s next => body.run flags s next) false fuel least most s some with
      | some s' => next s'
      | none => none
    | .lazy => rounds (fun s next => body.run flags s next) true fuel least most s next
    | .greedy => rounds (fun s next => body.run flags s next) false fuel least most s next
  | reference index, s, next =>
    match s.group? index with
    | none => none
    | some (a, b) =>
      let text := ((s.before.reverse ++ s.rest).drop a).take (b - a)
      let same (c d : Char) : Bool :=
        if flags.ignoreCase then flags.lower c == flags.lower d else c == d
      literalText same text s next
  | ahead negated body, s, next =>
    match body.run flags s some, negated with
    | some s', false => next { s with groups := s'.groups }
    | none, true => next s
    | _, _ => none
  | behind negated width body, s, next =>
    let found := if width ≤ s.before.length then body.run flags (s.back width) some else none
    match found, negated with
    | some s', false => next { s with groups := s'.groups }
    | none, true => next s
    | _, _ => none
  | atomic body, s, next =>
    match body.run flags s some with
    | some s' => next s'
    | none => none
  | branch index yes no, s, next =>
    if (s.group? index).isSome then yes.run flags s next else no.run flags s next
  | flagged on off body, s, next => body.run ((flags.without off).union on) s next

structure Match where
  start : Nat
  stop : Nat
  groups : List (Option (Nat × Nat))
  deriving DecidableEq, Repr, Inhabited

/-- The match at a cursor; `advancing` refuses an empty one. -/
def Compiled.matchAt (p : Compiled) (advancing : Bool) (s : Cursor) : Option Match :=
  let accept (s' : Cursor) : Option Cursor :=
    if advancing && s'.position = s.position then none else some s'
  (p.node.run p.flags s accept).map fun s' =>
    ⟨s.position, s'.position, (List.range p.groups).map fun i => s'.group? (i + 1)⟩

def Compiled.searchFrom (p : Compiled) (advancing : Bool) : Nat → Cursor → Option Match
  | 0, s => p.matchAt advancing s
  | n + 1, s => (p.matchAt advancing s).or (p.searchFrom false n s.advance)

def Compiled.search (p : Compiled) (advancing : Bool) (s : Cursor) : Option Match :=
  p.searchFrom advancing s.rest.length s

/-- All matches from a cursor on, each behind the one before it. After an empty match the next one that
starts there is not empty. -/
def Compiled.allFrom (p : Compiled) : Nat → Bool → Cursor → List Match
  | 0, _, _ => []
  | fuel + 1, advancing, s =>
    match p.search advancing s with
    | none => []
    | some m =>
      m :: p.allFrom fuel (m.stop = m.start) (s.forward (m.stop - s.position))

def Compiled.all (p : Compiled) (s : Cursor) : List Match :=
  p.allFrom (2 * s.rest.length + 2) false s

def slice (text : List Char) (a b : Nat) : List Char := (text.drop a).take (b - a)

end NullSafe.Pattern
