import NullSafe.Name

/-! # Scope

What a bare name of an expression refers to. Arguments hide globals, which hide the properties of the
binding context. The two names that generated code binds itself come between arguments and globals.
-/

namespace NullSafe

inductive Binding where
  | context
  | global
  | keyword
  | argument
  deriving DecidableEq, Repr

structure Scope where
  globals : List String
  /-- The arguments in order, each with its parameter in the generated function. -/
  arguments : List (String × String)
  deriving DecidableEq, Repr

namespace Scope

/-- The names that generated code binds itself. -/
def keywords : List String := ["_globals_", "_formatters_"]

/-- The parameter for the argument at a position: its own name, if that can be one. -/
def parameterFor (index : Nat) (name : String) : String :=
  if Name.isParameter name then name else "_arg" ++ toString index ++ "_"

/-- Declares an argument. A name declared again keeps its place and gets the new parameter. -/
def declare (arguments : List (String × String)) (name parameter : String) : List (String × String) :=
  if arguments.any (·.1 = name) then
    arguments.map fun (n, p) => if n = name then (n, parameter) else (n, p)
  else arguments ++ [(name, parameter)]

/-- The arguments declared by a list of names whose first has the given position. -/
def declareAll (index : Nat) (arguments : List (String × String)) : List String → List (String × String)
  | [] => arguments
  | name :: rest => declareAll (index + 1) (declare arguments name (parameterFor index name)) rest

def ofNames (globals names : List String) : Scope where
  globals := globals
  arguments := declareAll 0 [] names

def parameter? (scope : Scope) (name : String) : Option String := scope.arguments.lookup name

def classify (scope : Scope) (name : String) : Binding :=
  if (scope.parameter? name).isSome then .argument
  else if keywords.contains name then .keyword
  else if scope.globals.contains name then .global
  else .context

def parameters (scope : Scope) : List String := scope.arguments.map (·.2)

def names (scope : Scope) : List String :=
  (scope.globals ++ keywords ++ scope.arguments.map (·.1)).eraseDups

def bindings (scope : Scope) : List (String × Binding) :=
  (scope.names.mergeSort (· ≤ ·)).map fun n => (n, scope.classify n)

end Scope

end NullSafe
