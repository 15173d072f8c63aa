import NullSafe.Operation
import NullSafe.Text.Identifier

/-! # Names

Which names may be registered as globals or declared as arguments, and which of those can be parameters
of a generated function as they are.
-/

namespace NullSafe.Name

open Text

/-- A text without the line break at its end. Names are checked up to such a break. -/
def dropFinalBreak (cs : List Char) : List Char :=
  if cs.getLast? = some '\n' then cs.dropLast else cs

/-- Whether a text is a name: a letter, underscore or dollar sign, then such characters and digits. -/
def isName (s : String) : Bool :=
  match dropFinalBreak s.toList with
  | [] => false
  | c :: rest => Surface.isNameStart c && rest.all Surface.isNameRest

/-- Whether a text is a word followed by decimal digits and an ending. -/
def isNumbered (word ending : String) (cs : List Char) : Bool :=
  word.toList.isPrefixOf cs &&
    (let rest := cs.drop word.length
     let digits := rest.takeWhile isDecimal
     !digits.isEmpty && rest.dropWhile isDecimal = ending.toList)

/-- Whether a name is one that generated code makes up: a temporary or a renamed parameter. -/
def isSynthetic (s : String) : Bool :=
  let cs := dropFinalBreak s.toList
  isNumbered "_ref" "" cs || isNumbered "_arg" "_" cs

/-- The words of the expression language and the names that generated code binds itself. -/
def reserved : List String :=
  ["this", "true", "false", "null", "undefined", "typeof", "and", "or", "_globals_", "_formatters_"]
    ++ Operation.all.map Operation.name

def isReserved (s : String) : Bool := reserved.contains s || isSynthetic s

/-- The words that cannot name a parameter or a function of the generated code. -/
def keywords : List String :=
  ["False", "None", "True", "and", "as", "assert", "async", "await", "break", "class", "continue",
    "def", "del", "elif", "else", "except", "finally", "for", "from", "global", "if", "import", "in",
    "is", "lambda", "nonlocal", "not", "or", "pass", "raise", "return", "try", "while", "with",
    "yield"]

def isParameter (s : String) : Bool := isIdentifier s.toList && !keywords.contains s

end NullSafe.Name
