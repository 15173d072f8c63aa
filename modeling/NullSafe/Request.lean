import NullSafe.Name
import NullSafe.Surface.Pipe
import NullSafe.Value.Basic

/-! # Compile requests

A request asks for the function of an expression with named extra arguments. It is checked before anything
else is done, and all that is wrong with it is reported at once.
-/

namespace NullSafe

structure Request where
  expression : String
  arguments : List String
  setter : Bool
  deriving DecidableEq, Repr, Inhabited

namespace Request

inductive Problem where
  | expressionNotText
  | argumentNotText (index : Nat)
  | invalidArgument (name : String)
  | reservedArgument (name : String)
  | duplicateArguments
  deriving DecidableEq, Repr

def Problem.message : Problem → String
  | expressionNotText => "expression: Input should be a valid string"
  | argumentNotText i => "args." ++ toString i ++ ": Input should be a valid string"
  | invalidArgument name => "args: Value error, invalid argument name " ++ quoted name
  | reservedArgument name => "args: Value error, argument name is reserved: " ++ quoted name
  | duplicateArguments => "args: Value error, duplicate argument names"

structure Fault where
  problems : List Problem
  deriving DecidableEq, Repr

def Fault.message (f : Fault) : String :=
  "invalid compile request (" ++ "; ".intercalate (f.problems.map Problem.message) ++ ")"

def nameProblem? (name : String) : Option Problem :=
  if !Name.isName name then some (.invalidArgument name)
  else if name ≠ Surface.valueName && Name.isReserved name then some (.reservedArgument name)
  else none

def namesProblem? (names : List String) : Option Problem :=
  match names.findSome? nameProblem? with
  | some p => some p
  | none => if names.Nodup then none else some .duplicateArguments

def text? : Value → Option String
  | .str s => some s
  | _ => none

/-- The arguments that are no texts, the first of them at the given position. -/
def notTexts (index : Nat) : List Value → List Problem
  | [] => []
  | v :: rest =>
    if (text? v).isSome then notTexts (index + 1) rest
    else .argumentNotText index :: notTexts (index + 1) rest

/-- What is wrong with the arguments. Their names are checked only if all are texts. -/
def argumentProblems (arguments : List Value) : List Problem :=
  match notTexts 0 arguments with
  | [] => (namesProblem? (arguments.filterMap text?)).toList
  | problems => problems

def ofValues (expression : Value) (arguments : List Value) (setter : Bool) : Except Fault Request :=
  let problems := argumentProblems arguments
  match text? expression, problems with
  | some expression, [] => .ok { expression, arguments := arguments.filterMap text?, setter }
  | some _, problems => .error ⟨problems⟩
  | none, problems => .error ⟨.expressionNotText :: problems⟩

/-- The request for assigning to an expression: the value to assign comes before the other arguments. -/
def toSetter (r : Request) : Except Fault Request :=
  ofValues (.str (String.ofList (Surface.setterText r.expression.toList)))
    (.str Surface.valueName :: r.arguments.map .str) true

end Request

/-- The arguments that a caller means: one list or tuple stands for its items. -/
def World.spreadArguments (w : World) : List Value → List Value
  | [.list r] => w.list r
  | [.tuple r] => w.tuple r
  | arguments => arguments

end NullSafe
