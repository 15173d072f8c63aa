import NullSafe.Text.Blank
import NullSafe.Text.Digit
import NullSafe.Text.Fold
import NullSafe.Text.Word

/-! # Patterns

The structure of a pattern: characters, classes, places, groups, choices and repetitions.
-/

namespace NullSafe.Pattern

open Text

structure Flags where
  ignoreCase : Bool := false
  multiline : Bool := false
  dotAll : Bool := false
  verbose : Bool := false
  ascii : Bool := false
  unrepeated : Bool := false
  deriving DecidableEq, Repr, Inhabited

namespace Flags

def union (a b : Flags) : Flags where
  ignoreCase := a.ignoreCase || b.ignoreCase
  multiline := a.multiline || b.multiline
  dotAll := a.dotAll || b.dotAll
  verbose := a.verbose || b.verbose
  ascii := a.ascii || b.ascii
  unrepeated := a.unrepeated || b.unrepeated

def without (a b : Flags) : Flags where
  ignoreCase := a.ignoreCase && !b.ignoreCase
  multiline := a.multiline && !b.multiline
  dotAll := a.dotAll && !b.dotAll
  verbose := a.verbose && !b.verbose
  ascii := a.ascii && !b.ascii
  unrepeated := a.unrepeated && !b.unrepeated

/-- The letters of the flags that are set from outside a pattern. -/
def letters (f : Flags) : String :=
  (if f.ignoreCase then "i" else "") ++ (if f.multiline then "m" else "") ++ (if f.dotAll then "s" else "")

/-- The flags that letters stand for outside a pattern; other letters stand for none. -/
def ofLetters (cs : List Char) : Flags where
  ignoreCase := cs.contains 'i'
  multiline := cs.contains 'm'
  dotAll := cs.contains 's'

def ofMarks (cs : List Char) : Flags :=
  { ofLetters cs with
    verbose := cs.contains 'x'
    ascii := cs.contains 'a'
    unrepeated := cs.contains 't' }

def lower (f : Flags) (c : Char) : Char := if f.ascii then c.toLower else lowerChar c

def same (f : Flags) (c d : Char) : Bool :=
  if !f.ignoreCase then c == d
  else if f.ascii then c.toLower == d.toLower
  else sameLetter c d

def isWord (f : Flags) (c : Char) : Bool := if f.ascii then isAsciiWord c else Text.isWord c

end Flags

inductive Kind where
  | digit
  | word
  | blank
  deriving DecidableEq, Repr

def Kind.mem (flags : Flags) : Kind → Char → Bool
  | digit, c => if flags.ascii then c.isDigit else isDecimal c
  | word, c => flags.isWord c
  | blank, c => if flags.ascii then isAsciiBlank c else isBlank c

inductive Item where
  | char (c : Char)
  | range (low high : Char)
  | kind (negated : Bool) (k : Kind)
  deriving DecidableEq, Repr

inductive Place where
  | lineStart | lineEnd | textStart | textEnd | wordEdge | notWordEdge
  deriving DecidableEq, Repr

inductive Greed where
  | greedy | lazy | possessive
  deriving DecidableEq, Repr

inductive Node where
  | empty
  | char (c : Char)
  | notChar (c : Char)
  | any
  | set (negated : Bool) (items : List Item)
  | place (p : Place)
  | group (index : Nat) (body : Node)
  | seq (first second : Node)
  | alt (left right : Node)
  | loop (least : Nat) (most : Option Nat) (greed : Greed) (body : Node)
  | reference (index : Nat)
  | ahead (negated : Bool) (body : Node)
  | behind (negated : Bool) (width : Nat) (body : Node)
  | atomic (body : Node)
  | branch (index : Nat) (yes no : Node)
  | flagged (on off : Flags) (body : Node)
  deriving DecidableEq, Repr, Inhabited

/-- The number of characters that every match of a pattern has, if there is such a number. The groups that are
closed before it have the given widths. -/
def Node.width? (groups : List (Nat × Option Nat)) : Node → Option Nat
  | empty | place _ | ahead _ _ | behind _ _ _ => some 0
  | char _ | notChar _ | any | set _ _ => some 1
  | group _ body | atomic body | flagged _ _ body => body.width? groups
  | seq a b => do return (← a.width? groups) + (← b.width? groups)
  | alt a b => do
    let m ← a.width? groups
    let n ← b.width? groups
    if m = n then some m else none
  | loop least most _ body =>
    if most = some 0 then some 0
    else do
      let n ← body.width? groups
      if most = some least then some (least * n) else if n = 0 then some 0 else none
  | reference index => (groups.lookup index).join
  | branch _ yes no => do
    let m ← yes.width? groups
    let n ← no.width? groups
    if m = n then some m else none

def Node.isUnit : Node → Bool
  | char _ | notChar _ | any | set _ _ => true
  | flagged _ _ body => body.isUnit
  | _ => false

/-- Whether one of the characters from `low` to `high` is the given one up to case. A range that leaves the
basic plane also takes in what has its small form or capital there. -/
def rangeUpToCase (flags : Flags) (low high c : Char) : Bool :=
  let inside (d : Char) : Bool := low ≤ d && d ≤ high
  let small := flags.lower c
  let forms := if flags.ascii then [small, small.toUpper]
    else (small :: kin small).flatMap withSmallForm
  (forms.any fun e => isBasic e && inside e) || (!isBasic high && (inside small || inside (upperStart small)))

/-- Whether a character is in a class member. Up to case, a member outside the basic plane takes in only what
has it as its small form. -/
def Item.mem (flags : Flags) (c : Char) : Item → Bool
  | char d => if !flags.ignoreCase || isBasic d then flags.same d c else flags.lower c == d
  | range low high =>
    if flags.ignoreCase then rangeUpToCase flags low high c else low ≤ c && c ≤ high
  | kind negated k => k.mem flags (if flags.ignoreCase then flags.lower c else c) != negated

end NullSafe.Pattern
