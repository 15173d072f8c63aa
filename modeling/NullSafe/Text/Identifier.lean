import NullSafe.Text.Digit
import NullSafe.Text.Word

/-! # Identifiers of the generated code

A parameter of a generated function may use letters of every script, so its first character and the
characters after it are taken from two classes of the character database.
-/

namespace NullSafe.Text

/-- The word characters besides decimal digits that start no identifier, most of them numbers. -/
def numberRanges : Ranges := .ofSizes 0 [
  178,2,5,1,2,3,699,1,1657,6,376,6,120,3,133,7,217,7,17,9,186,1,127,1,118,10,1077,20,1139,10,480,1,1685,1,3,6,6,10,198,
  16,41,1547,1385,1,305,1,866,4,138,160,30064,6,21544,6,406,119,1,1,1,3,1,1,1,1,1,1,1,1,287,2,359,45,65,23,341,27,36,4,
  1332,8,25,7,39,9,75,5,22,6,160,2,2,64,64,9,52,2,30,3,75,5,104,8,24,8,41,7,330,6,352,31,158,10,42,4,112,7,134,20,379,
  20,1349,2,430,9,871,19,851,21,19334,7,798,23,25673,153,5454,9,929,205,962,13]

/-- The characters besides word characters that may start an identifier. -/
def furtherStarts : List Nat := [0x1885, 0x1886, 0x2118, 0x212E]

/-- The characters that may stand behind the first one only, besides digits: marks, and what joins words. -/
def attachedRanges : Ranges := .ofSizes 0 [
  183,1,584,112,23,1,251,5,265,45,1,1,1,2,1,2,1,1,72,11,48,21,16,1,101,7,2,10,1,4,35,58,91,11,58,9,9,1,24,24,43,3,60,74,
  1,129,29,3,56,9,2,2,2,3,9,1,10,2,26,1,2,3,56,1,1,5,4,2,2,3,3,1,30,6,11,3,56,10,1,3,1,3,20,2,22,6,1,3,56,9,2,2,2,3,7,3,
  10,2,30,1,59,5,3,3,1,4,9,1,40,5,55,9,1,3,1,4,7,2,11,2,29,3,56,9,1,3,1,4,7,2,11,2,28,4,55,10,1,3,1,4,9,1,10,2,29,3,70,
  1,4,6,1,1,1,8,18,2,61,10,12,8,98,12,11,6,74,2,27,1,1,1,1,1,4,2,49,20,1,18,1,36,9,1,100,20,23,72,703,3,9,9,928,4,28,3,
  29,2,30,2,64,32,9,1,45,3,1,1,153,1,118,12,4,12,158,1,60,5,57,10,1,29,2,1,48,14,1,16,49,69,38,9,12,116,48,20,152,3,1,
  38,198,64,575,2,19,1,123,13,4,1,3,12,3070,3,141,1,96,32,554,6,105,2,30164,1,4,10,32,84,272,38,4,1,83,70,26,18,13,47,
  25,13,44,65,36,1,67,14,12,11,45,71,41,5,5,2,236,8,1,2,20272,1,737,16,16,16,3,2,24,3,239,1,94,2,605,1,226,1,149,5,1670,
  3,1,2,5,4,40,3,4,1,165,2,573,4,387,2,153,11,49,4,122,71,41,5,10,60,7,1,61,53,16,2,44,1,12,65,8,4,1,2,92,12,6,1,160,12,
  21,4,55,10,2,2,2,3,9,1,10,2,2,7,3,5,192,18,23,1,81,20,235,7,2,9,27,2,82,17,106,13,101,15,256,15,245,6,1,2,2,9,141,7,2,
  7,3,1,28,62,8,1,9,73,405,8,1,8,82,22,1,14,122,6,3,1,1,2,1,9,66,5,1,2,1,5,347,4,19449,5,59,7,1048,57,7,4,81,1,11,2,
  19627,2,4705,46,2,23,542,5,3,6,8,8,2,7,30,4,148,3,1979,55,4,50,8,1,14,1,22,5,1,15,1360,7,1,17,2,7,1,2,1,5,261,7,375,1,
  61,4,1504,7,109,7,792501,240]

def isIdentifierStart (c : Char) : Bool :=
  if c.toNat < 0x80 then c.isAlpha || c == '_'
  else furtherStarts.contains c.toNat || isWord c && !isDecimal c && !numberRanges.mem c.toNat

def isIdentifierContinue (c : Char) : Bool :=
  isIdentifierStart c || isDecimal c || attachedRanges.mem c.toNat

def isIdentifier : List Char → Bool
  | [] => false
  | c :: rest => isIdentifierStart c && rest.all isIdentifierContinue

end NullSafe.Text
