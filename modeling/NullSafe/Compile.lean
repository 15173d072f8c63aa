import NullSafe.Code.Check
import NullSafe.Code.Emit
import NullSafe.Eval
import NullSafe.Literal.Table
import NullSafe.Request
import NullSafe.Text.Plain

/-! # From a request to a generated function

The literals of the expression are set aside, formatter pipes become calls, the result is parsed and code
is generated for it, and the literals are put into the code. What stops a compilation says where.
-/

namespace NullSafe

structure Generated where
  program : Program
  source : String

/-- An expression that is refused: the text it had become and why it cannot be compiled. -/
structure Rejection where
  expression : String
  reached : String
  diagnostic : String
  deriving DecidableEq, Repr

def Rejection.message (r : Rejection) : String :=
  "Bad expression: " ++ r.expression ++ "\nCompiled expression:\n" ++ r.reached ++ "\n" ++ r.diagnostic

inductive Stop where
  | rejected (r : Rejection)
  | badEscape (f : Literal.EscapeFault)
  | oversizedNumber
  /-- The function is not found under the name it was given. -/
  | lostName
  deriving DecidableEq, Repr

namespace Compile

/-- Whether a function or parameter can have a name: not a word of the generated language, nor the name of its one
constant, in any spelling. -/
def canBeNamed (name : String) : Bool :=
  !Name.keywords.contains name && !Text.isKeptAsDebug name.toList

/-- Whether a function can be built, whatever the depth of its code: that the builder has a limit is left out. -/
def isBuildable (functionName : String) (parameters : List String) (body : Body Leaf) : Bool :=
  canBeNamed functionName && parameters.all canBeNamed && body.code.isBuildable

/-- How it is worded that a function cannot be built. A name that is a word of the generated language, or a body that is
no expression of it, is refused when the text is read, and the name of its constant afterwards. What else is told about
a body, such as the character that does not fit, is left out. -/
def complaint (functionName : String) (body : Body Leaf) : String :=
  if Name.keywords.contains functionName || !body.code.isBuildable then "invalid syntax"
  else "cannot assign to __debug__"

/-- The text of a function's body: the value of a getter is returned. -/
def bodyText (setter : Bool) (body : Body Leaf) : String :=
  String.ofList (if setter then body.chars Leaf.chars else body.returning Leaf.chars)

/-- The code of an expression text whose literals are set aside, or what it is refused with and the text it
had become. -/
def analyse (scope : Scope) (isolated : List Char) : Except (List Char × Surface.Failure) (Body Placeholder) :=
  match Surface.desugar isolated with
  | .error f => .error (isolated, .fault f)
  | .ok text =>
    match generate scope text with
    | .error f => .error (text, f)
    | .ok body => .ok body

def run (functionName : String) (globals : List String) (request : Request) : Except Stop Generated :=
  let text := request.expression.toList
  let queue := Literal.literals text
  let scope := Scope.ofNames globals request.arguments
  match analyse scope (Literal.isolate text) with
  | .error (_, .oversizedNumber) => .error .oversizedNumber
  | .error (reached, .fault f) =>
    .error (.rejected ⟨request.expression, String.ofList (Literal.restoreRaw queue reached), f.message⟩)
  | .ok body =>
    match body.fill queue with
    | .error f => .error (.badEscape f)
    | .ok body =>
      let source := bodyText request.setter body
      if !isBuildable functionName scope.parameters body then
        .error (.rejected ⟨request.expression, source, "SyntaxError: " ++ complaint functionName body⟩)
      else if !Text.isPlainName functionName.toList then .error .lostName
      else
        .ok {
          program := { name := functionName, parameters := scope.parameters, body, setter := request.setter }
          source }

end Compile

end NullSafe
