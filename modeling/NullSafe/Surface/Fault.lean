import NullSafe.Text.Quoted

/-! # Faults in an expression text

Why an expression text is refused, with the wording of each report. A fault found at a place in the
text names its position.
-/

namespace NullSafe.Surface

inductive Cause where
  | unexpectedCharacter (c : Char)
  | emptyExpression
  /-- A required token, shown as in the report, and the text that was found instead. -/
  | expected (wanted found : String)
  | unexpected (found : String)
  | unexpectedEnd
  | invalidTarget
  | invalidKey (found : String)
  | missingColon
  | pipeWithoutValue
  | invalidFormatter (segment : String)
  | emptyArgument (formatter : String)
  | cannotAssign (name : String)
  | assignToCall
  deriving DecidableEq, Repr

def Cause.message : Cause → String
  | unexpectedCharacter c => "unexpected character " ++ quoted c.toString
  | emptyExpression => "empty expression"
  | expected wanted found => "expected " ++ wanted ++ ", got " ++ quoted found
  | unexpected found => "unexpected " ++ quoted found
  | unexpectedEnd => "unexpected end of expression"
  | invalidTarget => "invalid assignment target"
  | invalidKey found => "invalid object key " ++ quoted found
  | missingColon => "expected ':' after object key"
  | pipeWithoutValue => "formatter pipe without a value"
  | invalidFormatter segment => "invalid formatter " ++ quoted segment
  | emptyArgument formatter => "empty argument in formatter " ++ quoted formatter
  | cannotAssign name => "cannot assign to " ++ quoted name
  | assignToCall => "cannot assign to the result of a call"

structure Fault where
  cause : Cause
  position : Option Nat := none
  deriving DecidableEq, Repr

def Fault.message (f : Fault) : String :=
  match f.position with
  | none => f.cause.message
  | some p => f.cause.message ++ " at position " ++ toString p

end NullSafe.Surface
