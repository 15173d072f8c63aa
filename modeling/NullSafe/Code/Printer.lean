import NullSafe.Code.Basic

/-! # The text of generated code

Generated code is written on one line. A line before it declares the temporaries, if there are any. The
places of literals stay open until their spelling is given.
-/

namespace NullSafe

open Surface

def Surface.Constant.text : Constant → String
  | .yes => "True"
  | .no => "False"
  | .null => "None"

def temporaryName (n : Nat) : String := "_ref" ++ toString n

/-- A part of the text of generated code: a character, or the place of a literal. -/
inductive Glyph (ι : Type) where
  | char (c : Char)
  | leaf (x : ι)
  deriving DecidableEq, Repr

namespace Glyph

variable {ι : Type}

def chars (spell : ι → List Char) : Glyph ι → List Char
  | char c => [c]
  | leaf x => spell x

end Glyph

namespace Code

variable {ι : Type}

def write (s : String) : List (Glyph ι) := s.toList.map .char

def commaSeparated (texts : List (List (Glyph ι))) : List (Glyph ι) :=
  List.intercalate (write ", ") texts

def boundTest (n : Option Nat) (test : List (Glyph ι)) : List (Glyph ι) :=
  match n with
  | some n => write (temporaryName n) ++ write " := " ++ test
  | none => test

def nullTest (n : Option Nat) (test : List (Glyph ι)) : List (Glyph ι) :=
  match n with
  | some n => write "(" ++ boundTest (some n) test ++ write ") is None"
  | none => test ++ write " is None"

mutual

/-- The text of generated code, with places for its literals. -/
def print : Code ι → List (Glyph ι)
  | number text => write text
  | literal x => [.leaf x]
  | constant c => write c.text
  | this => write "this"
  | globals => write "_globals_"
  | formatters => write "_formatters_"
  | parameter name => write name
  | key text => write (quoted text)
  | global name => write "_globals_[" ++ write (quoted name) ++ write "]"
  | temporary n => write (temporaryName n)
  | setParameter name value => write "(" ++ write name ++ write " := " ++ print value ++ write ")"
  | array items => write "[" ++ commaSeparated (printAll items) ++ write "]"
  | object entries => write "\x7b" ++ commaSeparated (printEntries entries) ++ write "\x7d"
  | operate op arguments => write op.name ++ write "(" ++ commaSeparated (printAll arguments) ++ write ")"
  | apply callee arguments => print callee ++ write "(" ++ commaSeparated (printAll arguments) ++ write ")"
  | not operand => write "(not " ++ print operand ++ write ")"
  | logical op left right =>
    write "(" ++ print left ++ write (match op with | .both => " and " | .either => " or ") ++ print right ++ write ")"
  | equal left right => write "(" ++ print left ++ write " == " ++ print right ++ write ")"
  | differ left right => write "(" ++ print left ++ write " != " ++ print right ++ write ")"
  | choose n test yes no =>
    write "((" ++ write (temporaryName n) ++ write " := " ++ print test ++ write "), (" ++ print yes ++
      write " if " ++ write (temporaryName n) ++ write " else " ++ print no ++ write "))[1]"
  | unlessNull n test body =>
    write "(None if " ++ nullTest n (print test) ++ write " else " ++ print body ++ write ")"
  | whenCallable n test body =>
    write "(None if not _callable_(" ++ boundTest n (print test) ++ write ") else " ++ print body ++ write ")"

def printAll : List (Code ι) → List (List (Glyph ι))
  | [] => []
  | c :: rest => print c :: printAll rest

def printEntries : List (Code ι × Code ι) → List (List (Glyph ι))
  | [] => []
  | (k, v) :: rest => (print k ++ write ": " ++ print v) :: printEntries rest

end

def chars (spell : ι → List Char) (code : Code ι) : List Char := code.print.flatMap (Glyph.chars spell)

end Code

namespace Body

variable {ι : Type}

def declarations (n : Nat) : List Char :=
  List.intercalate " = ".toList ((List.range n).map fun i => (temporaryName (i + 1)).toList) ++ " = None".toList

/-- The line that declares the temporaries, if there are any, with its line break. -/
def header (body : Body ι) : List Char :=
  if body.temporaries = 0 then [] else declarations body.temporaries ++ ['\n']

def chars (spell : ι → List Char) (body : Body ι) : List Char :=
  body.header ++ body.code.chars spell

def returning (spell : ι → List Char) (body : Body ι) : List Char :=
  body.header ++ "return ".toList ++ body.code.chars spell

end Body

end NullSafe
