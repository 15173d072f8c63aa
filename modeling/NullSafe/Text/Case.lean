import NullSafe.Text.Identifier

/-! # Upper, lower and title case

Most letters change case by a fixed distance, so a case map is a list of runs. The remaining letters
map to several characters and are listed one by one. A capital sigma at the end of a word has a small
form of its own.
-/

namespace NullSafe.Text

/-- Letters from `first` to `last` in steps of `step`, mapped to the letters from `image` on. -/
structure CaseRun where
  first : Nat
  last : Nat
  step : Nat
  image : Nat

/-- Runs in order, each written as the gap before it, the number of its letters, their step and the first image. -/
def CaseRun.ofSizes : Nat → List Nat → List CaseRun
  | start, gap :: count :: step :: image :: sizes =>
    let last := start + gap + (count - 1) * step
    ⟨start + gap, last, step, image⟩ :: ofSizes (last + 1) sizes
  | _, _ => []

def CaseRun.inverse (r : CaseRun) : CaseRun := ⟨r.image, r.image + (r.last - r.first), r.step, r.first⟩

def upperRuns : List CaseRun := CaseRun.ofSizes 0 [
  97,26,1,65,58,1,1,924,42,23,1,192,1,7,1,216,0,1,1,376,1,24,2,256,1,1,1,73,1,3,2,306,2,8,2,313,2,23,2,330,2,3,2,377,0,
  1,1,83,0,1,1,579,2,2,2,386,2,1,1,391,3,1,1,395,5,1,1,401,2,1,1,502,3,1,1,408,0,1,1,573,3,1,1,544,2,3,2,416,2,1,1,423,
  4,1,1,428,2,1,1,431,3,2,2,435,2,1,1,440,3,1,1,444,1,1,1,503,5,1,1,452,0,1,1,452,1,1,1,455,0,1,1,455,1,1,1,458,0,1,1,
  458,1,8,2,461,0,1,1,398,1,9,2,478,2,1,1,497,0,1,1,497,1,1,1,500,3,20,2,504,3,9,2,546,8,1,1,571,2,2,1,11390,1,1,1,577,
  4,5,2,582,0,1,1,11375,0,1,1,11373,0,1,1,11376,0,1,1,385,0,1,1,390,1,2,1,393,1,1,1,399,1,1,1,400,0,1,1,42923,3,1,1,403,
  0,1,1,42924,1,1,1,404,1,1,1,42893,0,1,1,42922,1,1,1,407,0,1,1,406,0,1,1,42926,0,1,1,11362,0,1,1,42925,2,1,1,412,1,1,1,
  11374,0,1,1,413,2,1,1,415,7,1,1,11364,2,1,1,422,1,1,1,42949,0,1,1,425,3,1,1,42929,0,1,1,430,0,1,1,580,0,2,1,433,0,1,1,
  581,5,1,1,439,10,1,1,42930,0,1,1,42928,166,1,1,921,43,2,2,880,3,1,1,886,3,3,1,1021,46,1,1,902,0,3,1,904,1,17,1,913,0,
  1,1,931,0,9,1,931,0,1,1,908,0,2,1,910,1,1,1,914,0,1,1,920,3,1,1,934,0,1,1,928,0,1,1,975,1,12,2,984,0,1,1,922,0,1,1,
  929,0,1,1,1017,0,1,1,895,1,1,1,917,2,1,1,1015,2,1,1,1018,52,32,1,1040,0,16,1,1024,1,17,2,1120,9,27,2,1162,2,7,2,1217,
  0,1,1,1216,1,48,2,1232,49,38,1,1329,2889,43,1,7312,2,3,1,7357,760,6,1,5104,2178,1,1,1042,0,1,1,1044,0,1,1,1054,0,2,1,
  1057,0,1,1,1058,0,1,1,1066,0,1,1,1122,0,1,1,42570,240,1,1,42877,3,1,1,11363,16,1,1,42950,114,75,2,7680,5,1,1,7776,5,
  48,2,7840,0,8,1,7944,8,6,1,7960,10,8,1,7976,8,8,1,7992,8,6,1,8008,11,4,2,8025,8,8,1,8040,8,2,1,8122,0,4,1,8136,0,2,1,
  8154,0,2,1,8184,0,2,1,8170,0,2,1,8186,50,2,1,8120,12,1,1,921,17,2,1,8152,14,2,1,8168,3,1,1,8172,360,1,1,8498,33,16,1,
  8544,4,1,1,8579,843,26,1,9398,1862,48,1,11264,1,1,1,11360,3,1,1,570,0,1,1,574,1,3,2,11367,6,1,1,11378,2,1,1,11381,10,
  50,2,11392,8,2,2,11499,4,1,1,11506,12,38,1,4256,1,1,1,4295,5,1,1,4301,30995,23,2,42560,19,14,2,42624,135,7,2,42786,3,
  31,2,42802,10,2,2,42873,2,5,2,42878,4,1,1,42891,4,2,2,42896,0,1,1,42948,2,10,2,42902,11,8,2,42932,4,2,2,42951,6,1,1,
  42960,5,2,2,42966,28,1,1,42997,860,1,1,42931,28,80,1,5024,21377,26,1,65313,1229,40,1,66560,136,36,1,66736,155,11,1,
  66928,1,15,1,66940,1,7,1,66956,1,2,1,66964,1795,51,1,68736,3021,32,1,71840,21888,32,1,93760,31394,34,1,125184]

/-- The first letters of the runs that share their capital with another letter, which is its small form. -/
def secondForms : List Nat := [
  181,305,383,453,456,459,498,837,962,976,977,981,982,1008,1009,1013,7296,7297,7298,7299,7301,7302,7303,7304,7835,8126]

/-- Small letters are found from their capitals the other way round; a few capitals are that of no letter. -/
def lowerRuns : List CaseRun :=
  (upperRuns.filter fun r => !secondForms.contains r.first).map CaseRun.inverse ++ CaseRun.ofSizes 0 [
  304,1,1,105,148,1,1,454,2,1,1,457,2,1,1,460,38,1,1,499,513,1,1,952,6825,1,1,223,233,8,1,8064,8,8,1,8080,8,8,1,8096,
  12,1,1,8115,15,1,1,8131,47,1,1,8179,297,1,1,969,3,1,1,107,0,1,1,229]

/-- Letters whose capital is written with several characters, each with these characters; a third that is zero is
none. -/
def specialsOf : List Nat → List (Nat × List Nat)
  | c :: i :: j :: k :: rest => (c, if k = 0 then [i, j] else [i, j, k]) :: specialsOf rest
  | _ => []

def upperSpecials : List (Nat × List Nat) := specialsOf [
  223,83,83,0,329,700,78,0,496,74,780,0,912,921,776,769,944,933,776,769,1415,1333,1362,0,7830,72,817,0,7831,84,776,0,
  7832,87,778,0,7833,89,778,0,7834,65,702,0,8016,933,787,0,8018,933,787,768,8020,933,787,769,8022,933,787,834,8114,
  8122,921,0,8115,913,921,0,8116,902,921,0,8118,913,834,0,8119,913,834,921,8124,913,921,0,8130,8138,921,0,8131,919,921,
  0,8132,905,921,0,8134,919,834,0,8135,919,834,921,8140,919,921,0,8146,921,776,768,8147,921,776,769,8150,921,834,0,
  8151,921,776,834,8162,933,776,768,8163,933,776,769,8164,929,787,0,8166,933,834,0,8167,933,776,834,8178,8186,921,0,
  8179,937,921,0,8180,911,921,0,8182,937,834,0,8183,937,834,921,8188,937,921,0,64256,70,70,0,64257,70,73,0,64258,70,76,
  0,64259,70,70,73,64260,70,70,76,64261,83,84,0,64262,83,84,0,64275,1348,1350,0,64276,1348,1333,0,64277,1348,1339,0,
  64278,1358,1350,0,64279,1348,1341,0]

/-- Rows of sixteen letters with an iota written below, each with the first of the eight capitals without it. -/
def iotaRows : List (Nat × Nat) := [(0x1F80, 0x1F08), (0x1F90, 0x1F28), (0x1FA0, 0x1F68)]

/-- Letters whose form at the start of a word is one character, and not their capital. -/
def titleRuns : List CaseRun := CaseRun.ofSizes 0 [
  452,1,1,453,0,1,1,453,0,1,1,453,0,1,1,456,0,1,1,456,0,1,1,456,0,1,1,459,0,1,1,459,0,1,1,459,36,1,1,498,0,1,1,498,0,1,
  1,498,3804,43,1,4304,2,3,1,4349,3712,8,1,8072,0,8,1,8072,0,8,1,8088,0,8,1,8088,0,8,1,8104,0,8,1,8104,3,1,1,8124,8,1,
  1,8124,6,1,1,8140,8,1,1,8140,38,1,1,8188,8,1,1,8188]

/-- Letters that have case, but no form in the other. -/
def fixedCaseRanges : Ranges := .ofSizes 0 [
  170,1,15,1,125,131,3,1,98,115,1,36,7,2,30,5,149,1,87,3,39,1,355,41,6007,192,220,4,465,1,13,1,16,13,101,1,4,1,2,10,1,1,
  3,5,6,1,3,1,3,2,1,6,4,1,2,4,5,5,2855,116,31159,2,146,73,21,1,6,27,35,1,1,1,34,3,821,43,1,13,23575,1,2,3,1,42,1,9,
  52293,85,1,71,1,2,2,1,2,2,2,4,1,12,1,1,1,7,1,65,1,4,2,8,1,7,1,28,1,4,1,5,1,1,3,7,1,340,2,25,1,25,1,31,1,25,1,31,1,25,
  1,31,1,25,1,31,1,25,1,8,1844,10,1,20,4625,26,6,26,6,26]

/-- Marks that take a place of their own, with which words end. -/
def spacingMarkRanges : Ranges := .ofSizes 0 [
  1810,30,368,41,58,55,1,1,1,4,8,4,1,3,7,10,32,2,57,4,6,6,10,1,43,1,58,3,49,3,14,1,57,4,8,4,53,2,57,2,1,1,6,6,10,1,102,
  2,1,12,10,1,41,3,57,1,3,4,61,2,57,2,1,5,2,5,9,2,43,2,57,4,5,7,10,1,42,2,75,3,6,28,62,2,126,2,138,2,63,1,8,5,158,2,4,1,
  6,1,2,2,25,2,2,4,3,16,4,13,1,2,2,6,1,15,716,9,931,1,30,1,129,1,7,8,1,2,346,4,2,9,1,6,161,1,62,2,58,1,1,1,9,1,1,2,8,6,
  145,48,1,1,5,1,1,5,1,2,61,32,4,2,2,1,3,56,1,1,2,3,1,1,3,58,8,2,171,1,7,4,1,6,1,3,839,22,4057,2,30320,80,275,3,1,4,1,
  25,2,1,88,68,60,38,44,2,47,48,1,2,4,2,2,3,110,2,2,2,15,8,1,1,45,1,1,51,1,1,3,2,2,5,2,1,42,1,2,2,5,1,237,2,1,2,1,4,
  21062,29,239,1,4288,1,1,54,57,2,15,49,4,2,74,36,5,1,24,2,59,52,9,2,13,1,93,3,3,2,1,1,170,3,31,2,57,3,1,35,209,3,8,2,3,
  1,106,3,6,1,1,4,2,1,237,3,6,4,2,1,113,3,8,2,1,1,109,1,1,2,6,1,105,2,4,1,261,3,9,1,247,9,4,1,1,4,142,3,8,4,4,1,38,40,6,
  2,28,2,3,46,13,1,407,1,14,1,106,1,7,1,2,1,145,1,67,5,4,2,1,1,350,2,20569,56,104,2,24947,2,6,6]

/-- The characters besides marks that are passed over. -/
def passedRanges : Ranges := .ofSizes 0 [
  39,1,6,1,11,1,35,1,1,1,71,1,4,1,1,1,4,1,3,1,503,80,116,2,4,1,9,2,258,2,207,1,5,1,148,1,11,6,22,1,35,1,156,1,49,1,228,
  2,4,1,141,1,7,2,80,1,142,1,1236,1,127,1,565,1,1754,1,54,1,52,1,65,2,544,1,22,1,441,6,174,63,13,1,34,37,509,1,1,3,11,3,
  13,3,13,3,13,2,12,5,8,2,10,1,2,1,2,5,49,5,1,10,1,1,13,1,16,13,64,8,2967,2,241,1,191,1,469,1,43,5,5,1,95,4,93,3,28438,
  1,1250,6,270,1,99,3,12,1,28,2,98,34,78,1,23,3,103,3,3,2,469,1,22,1,137,1,108,1,21,2,102,5,9,3,20550,17,592,1,62,1,2,1,
  169,1,7,1,6,1,11,1,35,1,1,1,47,1,114,1,21,3,1924,6,1,42,1,9,2306,1,15,1,9058,9,14087,4,1103,13,64,2,1,1,16396,4,1,7,1,
  2,3233,4,5327,8,4028,7,2061,1,2735,5,789505,1,30,96]

/-- The letter to which a list of runs maps a code point. -/
def image? (runs : List CaseRun) (n : Nat) : Option Nat :=
  (runs.find? fun r => r.first ≤ n && n ≤ r.last && (n - r.first) % r.step == 0).map fun r => r.image + (n - r.first)

def mapCase (runs : List CaseRun) (c : Char) : Char := (image? runs c.toNat).elim c Char.ofNat

def lowerChar (c : Char) : Char := mapCase lowerRuns c

/-- The single capital of a character, itself when its capital takes several characters. -/
def upperChar (c : Char) : Char := mapCase upperRuns c

def upperFull (c : Char) : List Char :=
  let n := c.toNat
  match iotaRows.find? fun r => r.1 ≤ n && n < r.1 + 16, upperSpecials.lookup n with
  | some (_, first), _ => [Char.ofNat (first + n % 8), '\u0399']
  | none, some ns => ns.map Char.ofNat
  | none, none => [upperChar c]

/-- The form of a character at the start of a word: what follows the first character of its capital is small. -/
def titleFull (c : Char) : List Char :=
  match image? titleRuns c.toNat, upperFull c with
  | some n, _ => [Char.ofNat n]
  | none, first :: rest =>
    if c == '\u0149' then first :: rest
    else first :: rest.map fun d => if d == '\u0399' then '\u0345' else lowerChar d
  | none, [] => []

def isCased (c : Char) : Bool := lowerChar c != c || upperFull c != [c] || fixedCaseRanges.mem c.toNat

/-- Whether a character is passed over when the end of a word is looked for. -/
def isPassed (c : Char) : Bool :=
  attachedRanges.mem c.toNat && !spacingMarkRanges.mem c.toNat || passedRanges.mem c.toNat

def meetsCased (cs : List Char) : Bool :=
  match cs.dropWhile isPassed with
  | [] => false
  | c :: _ => isCased c

/-- The small form of a character between the characters before it, nearest first, and after it. -/
def lowerFull (before : List Char) (c : Char) (after : List Char) : List Char :=
  if c == '\u03A3' then
    [if meetsCased before && !meetsCased after then '\u03C2' else '\u03C3']
  else if c == '\u0130' then ['i', '\u0307']
  else [lowerChar c]

def upper (cs : List Char) : List Char := cs.flatMap upperFull

def lowerFrom (before : List Char) : List Char → List Char
  | [] => []
  | c :: rest => lowerFull before c rest ++ lowerFrom (c :: before) rest

def lower (cs : List Char) : List Char := lowerFrom [] cs

/-- Puts the characters that follow `before` into title case; `inWord` tells that the last had case. -/
def titleFrom (before : List Char) (inWord : Bool) : List Char → List Char
  | [] => []
  | c :: rest =>
    (if inWord then lowerFull before c rest else titleFull c) ++ titleFrom (c :: before) (isCased c) rest

def title (cs : List Char) : List Char := titleFrom [] false cs

end NullSafe.Text
