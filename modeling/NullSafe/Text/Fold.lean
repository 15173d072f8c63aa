import NullSafe.Text.Case

/-! # Letters up to case

Two letters are one up to case when they have the same small form. A few small letters have a capital in
common with another, and count as one with it as well.
-/

namespace NullSafe.Text

/-- The small letters that have a capital in common. -/
def kindred : List (List Nat) := [
  [0x69, 0x131], [0x73, 0x17F], [0xB5, 0x3BC], [0x345, 0x3B9, 0x1FBE], [0x390, 0x1FD3], [0x3B0, 0x1FE3],
  [0x3B2, 0x3D0], [0x3B5, 0x3F5], [0x3B8, 0x3D1], [0x3BA, 0x3F0], [0x3C0, 0x3D6], [0x3C1, 0x3F1], [0x3C2, 0x3C3],
  [0x3C6, 0x3D5], [0x432, 0x1C80], [0x434, 0x1C81], [0x43E, 0x1C82], [0x441, 0x1C83], [0x442, 0x1C84, 0x1C85],
  [0x44A, 0x1C86], [0x463, 0x1C87], [0x1C88, 0xA64B], [0x1E61, 0x1E9B], [0xFB05, 0xFB06]]

/-- The capitals of small letters that have another as well. -/
def furtherCapitals : List (Nat × Nat) :=
  [(0x69, 0x130), (0x6B, 0x212A), (0xDF, 0x1E9E), (0xE5, 0x212B), (0x3B8, 0x3F4), (0x3C9, 0x2126)]

/-- The small letters that count as one with a small letter, besides itself. -/
def kin (c : Char) : List Char :=
  (((kindred.find? (·.contains c.toNat)).getD []).filter (· ≠ c.toNat)).map Char.ofNat

def sameLetter (c d : Char) : Bool :=
  lowerChar c == lowerChar d || (kin (lowerChar c)).contains (lowerChar d)

def withSmallForm (c : Char) : List Char :=
  let further := (furtherCapitals.lookup c.toNat).toList ++ (image? titleRuns c.toNat).toList
  (c :: upperChar c :: further.map Char.ofNat).filter (lowerChar · == c)

def upperStart (c : Char) : Char := (upperFull c).headD c

def isBasic (c : Char) : Bool := c.toNat < 0x10000

end NullSafe.Text
