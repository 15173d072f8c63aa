import NullSafe.Literal.Piece
import NullSafe.Surface.Fault
import NullSafe.Text.Word

/-! # Formatter pipes

`value | name(arguments) | other` applies formatters from left to right. A pipe is a single bar outside
all brackets. Removing the pipes turns the pipeline into nested calls of formatters, each of which gets
the binding context, the value so far and its arguments. When the value is assigned, the first formatter
is told so by one more argument.
-/

namespace NullSafe.Surface

open Text

/-- How a character changes the bracket depth. Depth may fall below zero. -/
def depthStep (c : Char) : Int :=
  if c = '(' || c = '[' || c = '\x7b' then 1
  else if c = ')' || c = ']' || c = '\x7d' then -1
  else 0

def isLoneBar (before : Option Char) (after : List Char) : Bool :=
  before != some '|' && after.head? != some '|'

/-- Whether a separator at depth zero separates: a comma always, a bar when it stands alone. -/
def separates (sep : Char) (before : Option Char) (after : List Char) : Bool :=
  sep != '|' || isLoneBar before after

/-- The part of a text up to the first separator outside brackets, and the parts after it. -/
def splitFrom (sep : Char) (depth : Int) (before : Option Char) : List Char → List Char × List (List Char)
  | [] => ([], [])
  | c :: rest =>
    let (part, parts) := splitFrom sep (depth + depthStep c) (some c) rest
    if c = sep && depth = 0 && separates sep before rest then ([], part :: parts)
    else (c :: part, parts)

def splitTop (sep : Char) (cs : List Char) : List (List Char) :=
  let (part, parts) := splitFrom sep 0 none cs
  part :: parts

def splitPipes (cs : List Char) : List (List Char) := splitTop '|' cs

/-- Whether an equals sign between the given neighbours belongs to a comparison. A sign at the very
start of a text counts as one. -/
def isComparison (before : Option Char) (after : List Char) : Bool :=
  (before.elim true fun c => c = '=' || c = '!' || c = '<' || c = '>') || after.head? = some '='

/-- The text before and after the first assignment sign outside brackets. -/
def splitAssignFrom (depth : Int) (before : Option Char) : List Char → Option (List Char × List Char)
  | [] => none
  | c :: rest =>
    if c = '=' && depth = 0 && !isComparison before rest then some ([], rest)
    else (splitAssignFrom (depth + depthStep c) (some c) rest).map fun (t, v) => (c :: t, v)

def splitAssignment (cs : List Char) : Option (List Char × List Char) :=
  (splitAssignFrom 0 none cs).map fun (target, value) => (trim target, trim value)

def findPipeFrom (pos : Nat) (depth : Int) (before : Option Char) : List Literal.Piece → Option Nat
  | [] => none
  | .literal raw :: rest => findPipeFrom (pos + raw.length) depth raw.getLast? rest
  | .char c :: rest =>
    if c = '|' && depth = 0 && isLoneBar before ((rest.head?.elim [] (·.text))) then some pos
    else findPipeFrom (pos + 1) (depth + depthStep c) (some c) rest

/-- The position of the first formatter pipe of a text whose literals are still in place. -/
def findPipe (cs : List Char) : Option Nat := findPipeFrom 0 0 none (Literal.pieces cs)

structure Formatter where
  name : List Char
  arguments : List (List Char)
  deriving DecidableEq, Repr

def isFormatterStart (c : Char) : Bool := c.isAlpha || c = '_' || c = '$'

/-- The name at the start of a segment and the text between the parentheses after it, if any. -/
def splitSegment? (segment : List Char) : Option (List Char × Option (List Char)) :=
  let text := trim segment
  let inName := fun c => isWord c || c = '$'
  let name := text.takeWhile inName
  if name.head?.any isFormatterStart then
    match trimLeft (text.dropWhile inName) with
    | [] => some (name, none)
    | '(' :: rest => if rest.getLast? = some ')' then some (name, some rest.dropLast) else none
    | _ => none
  else none

def readFormatter (segment : List Char) : Except Fault Formatter :=
  match splitSegment? segment with
  | none => .error { cause := .invalidFormatter (String.ofList (trim segment)) }
  | some (name, none) => .ok ⟨name, []⟩
  | some (name, some inner) =>
    if (trim inner).isEmpty then .ok ⟨name, []⟩
    else
      let arguments := (splitTop ',' inner).map trim
      if arguments.any List.isEmpty then .error { cause := .emptyArgument (String.ofList name) }
      else .ok ⟨name, arguments⟩

def joinArguments (texts : List (List Char)) : List Char := List.intercalate ", ".toList texts

def Formatter.apply (f : Formatter) (value : List Char) (extra : List (List Char)) : List Char :=
  "_formatters_.".toList ++ f.name ++ ".call(this, ".toList ++ joinArguments (value :: f.arguments ++ extra) ++ [')']

/-- The nested calls of formatters on a value; the first one also gets `extra`. -/
def applyFormatters (value : List Char) (extra : List (List Char)) : List (List Char) → Except Fault (List Char)
  | [] => .ok value
  | segment :: rest => do
    let f ← readFormatter segment
    applyFormatters (f.apply value extra) [] rest

def desugar (cs : List Char) : Except Fault (List Char) :=
  match splitPipes cs with
  | [] | [_] => .ok cs
  | first :: segments =>
    let head := trim first
    if head.isEmpty then .error { cause := .pipeWithoutValue }
    else
      match splitAssignment head with
      | none => applyFormatters head [] segments
      | some (target, value) => do
        let value ← applyFormatters value ["true".toList] segments
        return target ++ " = ".toList ++ value

/-- The name under which a setter finds the value to assign. -/
def valueName : String := "_value_"

/-- The assignment of the value to an expression. It goes before the first formatter pipe, and a
leading negation moves to the value. -/
def setterText (cs : List Char) : List Char :=
  let text := trim cs
  let negated := text.head? = some '!' && text.tail.head? != some '='
  let body := if negated then trimLeft text.tail else text
  let value := (if negated then ['!'] else []) ++ valueName.toList
  match findPipe body with
  | none => body ++ " = ".toList ++ value
  | some i => trimRight (body.take i) ++ " = ".toList ++ value ++ [' '] ++ body.drop i

end NullSafe.Surface
