import NullSafe.Text.Case
import NullSafe.Value.Basic

/-! # Levels of log records

A level is a number; the usual ones have names.
-/

namespace NullSafe.Log

/-- A level as it was set: a number, or a truth value that counts as one. -/
inductive Level where
  | number (i : Int)
  | truth (b : Bool)
  deriving DecidableEq, Repr

def Level.toInt : Level → Int
  | number i => i
  | truth b => if b then 1 else 0

def Level.text : Level → String
  | number i => toString i
  | truth b => if b then "True" else "False"

/-- The named levels; where a level has two names, the first is shown. -/
def levelNames : List (String × Int) :=
  [("CRITICAL", 50), ("FATAL", 50), ("ERROR", 40), ("WARNING", 30), ("WARN", 30), ("INFO", 20),
    ("DEBUG", 10), ("NOTSET", 0)]

def Level.name (l : Level) : String :=
  match levelNames.find? (·.2 = l.toInt) with
  | some (name, _) => name
  | none => "Level " ++ l.text

/-- The level that a value asks for: a number, or a name in any case. -/
def Level.ofValue? : Value → Option Level
  | .int i => some (.number i)
  | .bool b => some (.truth b)
  | .str s => (levelNames.lookup (String.ofList (Text.upper s.toList))).map .number
  | _ => none

end NullSafe.Log
