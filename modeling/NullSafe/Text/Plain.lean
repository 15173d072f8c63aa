import NullSafe.Text.Composite
import NullSafe.Text.Ranges

/-! # The form in which names are kept

A name that a function is defined under is kept with its characters in their plain forms: ligatures, wide
letters and the like are replaced, marks are put in order, and composites replace their parts. A name that this
changes is not found again under its own spelling.
-/

namespace NullSafe.Text

/-- Ranges in which every character of names has another, plain form. -/
def variantRanges : Ranges := .ofSizes 0 [
  170,12,4,1,119,2,11,2,8,1,53,1,68,9,36,3,188,9,39,5,91,2,1,2,47,1,18,1,72,7,25,3,1,2,3,1,397,1,237,4,735,8,124,4,83,1,
  2,1,34,3,2,1,253,2,725,1,127,1,40,2,101,1,9,1,4,1,4,1,4,1,12,1,9,1,1,5,7,1,17,1,9,1,4,1,4,1,4,1,12,1,322,1,3119,3,1,
  11,1,18,1,28,13,1,34,37,218,2,213,1,1,1,1,1,1,1,1,1,1,1,1,1,61,1,2,1,10,1,1,1,7,1,7,1,7,1,7,1,13,1,1,1,117,44,101,20,
  3,21,1,3,1,23,22,32,2812,2,241,1,712,3,100,1,95,1,49,94,29965,2,210,1,129,3,3,2,866,4,9,1,19862,270,2,1,1,1,2,10,1,1,
  1,1,2,2,3,244,1,731,57,63,5,358,1956,58,52293,1024,5632,3578,64518,542]

/-- The variants of the characters of `__debug__` that follow no rule, by the character they are a variant of. -/
def singleVariants : List (Char × List Nat) := [
  ('_', [0xFE33, 0xFE34, 0xFE4D, 0xFE4E, 0xFE4F, 0xFF3F]), ('b', [0x1D47]), ('d', [0x1D48, 0x2146, 0x217E]),
  ('e', [0x1D49, 0x2091, 0x212F, 0x2147]), ('g', [0x1D4D, 0x210A]), ('u', [0x1D58, 0x1D64])]

def asciiAfter (first : Char) (i : Nat) : Char := Char.ofNat (first.toNat + i)

/-- The character of ASCII that a character is, or is a variant of by a rule or by the table: wide, outlined and
styled letters and digits come in runs. -/
def asciiForm? (c : Char) : Option Char :=
  let n := c.toNat
  if n < 0x80 then some c
  else if 0xFF10 ≤ n && n ≤ 0xFF19 then some (asciiAfter '0' (n - 0xFF10))
  else if 0xFF21 ≤ n && n ≤ 0xFF3A then some (asciiAfter 'A' (n - 0xFF21))
  else if 0xFF41 ≤ n && n ≤ 0xFF5A then some (asciiAfter 'a' (n - 0xFF41))
  else if 0x1D400 ≤ n && n ≤ 0x1D6A3 then
    let i := (n - 0x1D400) % 52
    some (if i < 26 then asciiAfter 'A' i else asciiAfter 'a' (i - 26))
  else if 0x1D7CE ≤ n && n ≤ 0x1D7FF then some (asciiAfter '0' ((n - 0x1D7CE) % 10))
  else if 0x1FBF0 ≤ n && n ≤ 0x1FBF9 then some (asciiAfter '0' (n - 0x1FBF0))
  else (singleVariants.find? (·.2.contains n)).map (·.1)

/-- Whether a name is kept as that of the constant of the generated language. -/
def isKeptAsDebug (cs : List Char) : Bool := cs.mapM asciiForm? = some "__debug__".toList

def isPlainName (cs : List Char) : Bool :=
  cs.all (·.toNat < 0x80) ||
    (cs.all fun c => !variantRanges.mem c.toNat) && composed (cs.map Char.toNat) = cs.map Char.toNat

end NullSafe.Text
