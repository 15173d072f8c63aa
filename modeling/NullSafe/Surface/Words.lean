import NullSafe.Text.Word

/-! # Word operators

The words `and` and `or` are other spellings of the logical operators where they stand alone. A word
after a point is a property name.
-/

namespace NullSafe.Surface

open Text

def continuesWord (c : Char) : Bool := isWord c || c = '$'

def wordCanStart : Option Char → Bool
  | none => true
  | some c => !continuesWord c && c != '.'

def wordCanEnd : List Char → Bool
  | [] => true
  | c :: _ => !continuesWord c

/-- Replaces word operators in a text that follows the character `before`. -/
def replaceWordsFrom (before : Option Char) : List Char → List Char
  | [] => []
  | 'a' :: 'n' :: 'd' :: rest =>
    if wordCanStart before && wordCanEnd rest then '&' :: '&' :: replaceWordsFrom (some 'd') rest
    else 'a' :: replaceWordsFrom (some 'a') ('n' :: 'd' :: rest)
  | 'o' :: 'r' :: rest =>
    if wordCanStart before && wordCanEnd rest then '|' :: '|' :: replaceWordsFrom (some 'r') rest
    else 'o' :: replaceWordsFrom (some 'o') ('r' :: rest)
  | c :: rest => c :: replaceWordsFrom (some c) rest

def replaceWords (cs : List Char) : List Char := replaceWordsFrom none cs

end NullSafe.Surface
