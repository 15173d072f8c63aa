import NullSafe.Text.Case
import NullSafe.Text.Mark

/-! # Composites

A composite is one character for a letter with a mark, or for the parts of a syllable. A text can be taken apart
into the parts of its characters and put together again.
-/

namespace NullSafe.Text

/-- Composites with one second part, in order, each written as its distance to the one before it and its first part. -/
def compositesFrom (b : Nat) : Nat → List Nat → List (Nat × Nat × Nat)
  | last, distance :: a :: rest => (last + distance, a, b) :: compositesFrom b (last + distance) rest
  | _, _ => []

/-- The composites of names that are not the small form of another, with their two parts. The first can be a
composite. -/
def capitalComposites : List (Nat × Nat × Nat) := List.flatMap (fun (b, sizes) => compositesFrom b 0 sizes) [
  (768,[192,65,8,69,4,73,6,79,7,85,258,220,29,78,520,1045,13,1048,6663,274,60,332,48,87,38,194,10,258,16,202,18,212,10,
  416,14,431,8,89,24,7944,1,7945,15,7960,1,7961,15,7976,1,7977,15,7992,1,7993,15,8008,1,8009,7,8016,9,8025,15,8040,1,
  8041,79,913,14,917,2,919,8,970,8,921,8,971,8,933,14,927,2,937]),(769,[193,65,8,69,4,73,6,79,7,85,3,89,41,67,51,76,10,
  78,17,82,6,83,31,90,94,220,29,71,6,197,2,198,2,216,392,913,2,917,1,919,1,921,2,927,2,933,1,937,1,970,32,971,83,1043,
  9,1050,6652,199,14,274,24,207,2,75,14,77,14,213,6,332,2,80,36,360,10,87,34,194,10,258,16,202,18,212,10,416,14,431,36,
  7944,1,7945,15,7960,1,7961,15,7976,1,7977,15,7992,1,7993,15,8008,1,8009,7,8016,9,8025,15,8040,1,8041]),(770,[194,65,
  8,69,4,73,6,79,7,85,45,67,20,71,8,72,16,74,40,83,24,87,2,89,7450,90,28,7840,26,7864,18,7884]),(771,[195,65,14,78,4,
  79,83,73,64,85,7444,86,46,194,10,258,8,69,8,202,18,212,10,416,14,431,10,89]),(772,[256,65,18,69,24,73,34,79,30,85,
  107,220,9,196,2,550,2,198,10,490,62,214,2,213,4,558,2,89,688,1048,12,1059,6450,71,24,7734,36,7770,349,913,32,921,16,
  933]),(774,[258,65,18,69,10,71,14,73,34,79,30,85,674,1059,11,1048,168,1046,15,1040,6,1045,6470,552,154,7840,258,913,
  32,921,16,933]),(775,[266,67,12,69,10,71,16,73,75,90,171,65,8,79,7124,66,8,68,20,70,4,72,30,77,4,78,18,80,2,82,8,83,
  4,346,2,352,2,7778,2,84,28,87,4,88,4,89]),(776,[196,65,7,69,4,73,7,79,6,85,156,89,562,921,1,933,86,1045,6,1030,203,
  1040,8,1240,2,1046,2,1047,6,1048,2,1054,4,1256,2,1069,4,1059,4,1063,4,1067,6446,72,40,213,44,362,10,87,8,88,11,116]),
  (777,[7842,65,6,194,10,258,8,69,8,202,6,73,6,79,6,212,10,416,8,85,6,431,10,89]),(778,[197,65,169,85,7466,119,1,121]),
  (779,[336,79,32,85,898,1059]),(780,[268,67,2,68,12,69,35,76,10,78,17,82,8,83,4,84,25,90,80,65,2,73,2,79,2,85,6,220,
  13,71,2,75,6,439,2,106,46,72]),(783,[512,65,4,69,4,73,4,79,4,82,4,85,610,1140]),(785,[514,65,4,69,4,73,4,79,4,82,4,
  85]),(787,[7944,913,16,917,16,919,16,921,16,927,8,965,24,937,124,961]),(788,[7945,913,16,917,16,919,16,921,16,927,16,
  933,16,937,131,929]),(795,[416,79,15,85]),(803,[7684,66,8,68,24,72,14,75,4,76,12,77,4,78,20,82,8,83,10,84,18,86,10,
  87,10,90,14,65,24,69,18,73,2,79,22,416,2,85,12,431,4,89]),(804,[7794,85]),(805,[7680,65]),(806,[536,83,2,84]),(807,
  [199,67,91,71,20,75,5,76,10,78,17,82,8,83,4,84,198,69,7144,68,24,72]),(808,[260,65,20,69,22,73,68,85,120,79]),(813,
  [7698,68,6,69,36,76,14,78,38,84,6,85]),(814,[7722,72]),(816,[7706,69,18,73,72,85]),(817,[7686,66,8,68,38,75,6,76,14,
  78,22,82,16,84,38,90,2,104]),(834,[7950,7944,1,7945,31,7976,1,7977,15,7992,1,7993,23,8016,9,8025,15,8040,1,8041,71,
  945,16,951,16,953,1,970,15,965,1,971,15,969]),(837,[8072,7944,1,7945,1,7946,1,7947,1,7948,1,7949,1,7950,1,7951,9,
  7976,1,7977,1,7978,1,7979,1,7980,1,7981,1,7982,1,7983,9,8040,1,8041,1,8042,1,8043,1,8044,1,8045,1,8046,1,8047,3,8048,
  2,940,3,8118,5,913,6,8052,2,942,3,8134,5,919,38,8060,2,974,3,8182,5,937]),(1619,[1570,1575]),(1620,[1571,1575,1,1608,
  2,1610,154,1749,2,1729,17,1746]),(1621,[1573,1575]),(2364,[2345,2344,8,2352,3,2355]),(2494,[2507,2503]),(2519,[2508,
  2503]),(2878,[2891,2887]),(2902,[2888,2887]),(2903,[2892,2887]),(3006,[3018,3014,1,3015]),(3031,[2964,2962,56,3014]),
  (3158,[3144,3142]),(3266,[3274,3270]),(3285,[3264,3263,7,3270,4,3274]),(3286,[3272,3270]),(3390,[3402,3398,1,3399]),
  (3415,[3404,3398]),(3530,[3546,3545,3,3548]),(3535,[3548,3545]),(3551,[3550,3545]),(4142,[4134,4133]),(6965,[6918,
  6917,2,6919,2,6921,2,6923,2,6925,4,6929,41,6970,2,6972,3,6974,1,6975,2,6978]),(12441,[12364,12363,2,12365,2,12367,2,
  12369,2,12371,2,12373,2,12375,2,12377,2,12379,2,12381,2,12383,2,12385,3,12388,2,12390,2,12392,7,12399,3,12402,3,
  12405,3,12408,3,12411,24,12358,10,12445,14,12459,2,12461,2,12463,2,12465,2,12467,2,12469,2,12471,2,12473,2,12475,2,
  12477,2,12479,2,12481,3,12484,2,12486,2,12488,7,12495,3,12498,3,12501,3,12504,3,12507,24,12454,3,12527,1,12528,1,
  12529,1,12530,4,12541]),(12442,[12401,12399,3,12402,3,12405,3,12408,3,12411,84,12495,3,12498,3,12501,3,12504,3,
  12507]),(69818,[69786,69785,2,69787,15,69797]),(69927,[69934,69937,1,69938]),(70462,[70475,70471]),(70487,[70476,
  70471]),(70832,[70844,70841]),(70842,[70843,70841]),(70845,[70846,70841]),(71087,[71098,71096,1,71097]),(71984,
  [71992,71989])]

/-- The small form of a composite, with the small form of its first part. -/
def smallComposite? : Nat × Nat × Nat → Option (Nat × Nat × Nat)
  | (n, a, b) => do
    let small ← image? lowerRuns n
    let first := (image? lowerRuns a).getD a
    if small = first then none else some (small, first, b)

def composites : List (Nat × Nat × Nat) := capitalComposites ++ capitalComposites.filterMap smallComposite?

/-- The first of the syllables that are composed of two or three letters, in the order of their letters. -/
def firstSyllable : Nat := 0xAC00

/-- The first letters that start, carry and end a syllable. The first ending stands for none. -/
def firstInitial : Nat := 0x1100

@[inherit_doc firstInitial] def firstVowel : Nat := 0x1161

@[inherit_doc firstInitial] def firstFinal : Nat := 0x11A7

def syllableParts? (n : Nat) : Option (List Nat) :=
  if firstSyllable ≤ n && n < firstSyllable + 19 * 21 * 28 then
    let i := n - firstSyllable
    let final := i % 28
    some ([firstInitial + i / (21 * 28), firstVowel + i / 28 % 21] ++ (if final = 0 then [] else [firstFinal + final]))
  else none

/-- The syllable of two letters, or of a syllable without ending and its ending. -/
def syllable? (a b : Nat) : Option Nat :=
  if firstInitial ≤ a && a < firstInitial + 19 && firstVowel ≤ b && b < firstVowel + 21 then
    some (firstSyllable + ((a - firstInitial) * 21 + (b - firstVowel)) * 28)
  else if firstSyllable ≤ a && a < firstSyllable + 19 * 21 * 28 && (a - firstSyllable) % 28 = 0 &&
      firstFinal < b && b < firstFinal + 28 then
    some (a + (b - firstFinal))
  else none

/-- The parts of a character, which are taken apart as often as the first number says. -/
def partsWithin : Nat → Nat → List Nat
  | 0, n => [n]
  | fuel + 1, n =>
    match syllableParts? n, composites.find? (·.1 = n) with
    | some parts, _ => parts
    | none, some (_, a, b) => partsWithin fuel a ++ [b]
    | none, none => [n]

/-- The parts of a character. A part of a part of a part is never a composite. -/
def parts (n : Nat) : List Nat := partsWithin 3 n

def composite? (a b : Nat) : Option Nat :=
  match syllable? a b with
  | some n => some n
  | none => (composites.find? fun c => c.2.1 = a && c.2.2 = b).map (·.1)

/-- Puts characters together with the one before them. The marks that were kept apart come between, the last
of them first; a mark passes only those of lower classes. -/
def composeFrom (base : Nat) (kept : List Nat) : List Nat → List Nat
  | [] => base :: kept.reverse
  | n :: rest =>
    let reaches := kept.head?.all fun m => markClass m < markClass n
    match if reaches then composite? base n else none with
    | some c => composeFrom c kept rest
    | none =>
      if markClass n = 0 then base :: (kept.reverse ++ composeFrom n [] rest)
      else composeFrom base (n :: kept) rest

/-- A text with its characters taken apart, their marks in order, and put together again. -/
def composed (ns : List Nat) : List Nat :=
  match orderMarks (ns.flatMap parts) with
  | [] => []
  | n :: rest => composeFrom n [] rest

end NullSafe.Text
