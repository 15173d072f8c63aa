import NullSafe.Text.Ranges

/-! # Marks

A mark is written with the character before it. Marks of different classes stand at different places of the
character, so their order means nothing and has a fixed form: by class.
-/

namespace NullSafe.Text

/-- The classes with their marks, rare classes first: a mark has the first class whose runs hold it, and the
runs of a common class may pass over marks of the classes before it. -/
def markClasses : List (Nat × Ranges) := List.map (fun (order, sizes) => (order, .ofSizes 0 sizes)) [
  (10,[1456,1]),(11,[1457,1]),(12,[1458,1]),(13,[1459,1]),(14,[1460,1]),(15,[1461,1]),(16,[1462,1]),(17,[1463,1]),(20,
  [1467,1]),(21,[1468,1]),(22,[1469,1]),(23,[1471,1]),(24,[1473,1]),(25,[1474,1]),(26,[64286,1]),(33,[1617,1]),(34,
  [1618,1]),(35,[1648,1]),(36,[1809,1]),(84,[3157,1]),(91,[3158,1]),(129,[3953,1]),(132,[3956,1]),(214,[7630,1]),(226,
  [119149,1]),(240,[837,1]),(6,[94192,2]),(8,[12441,2]),(18,[1464,1,14,1]),(19,[1465,2]),(27,[1611,1,676,1]),(28,[1612,
  1,676,1]),(29,[1613,1,676,1]),(30,[1560,1,53,1]),(31,[1561,1,53,1]),(32,[1562,1,53,1]),(103,[3640,2]),(118,[3768,2]),
  (218,[7674,1,4655,1]),(224,[12334,2]),(107,[3656,4]),(122,[3784,4]),(222,[1434,1,18,1,5003,1,5875,1]),(233,[860,1,2,1,
  2,1,6809,1]),(202,[801,2,4,2,6823,1]),(228,[1454,1,4858,1,1357,2,4658,1]),(232,[789,1,4,1,61,1,6813,1,4661,1]),(234,
  [861,5,6763,1]),(130,[3954,1,7,4,2,1]),(216,[795,1,3101,1,115243,2,7,5]),(1,[820,5,6555,1,13,7,1001,2,4,3,10,2,3,2,
  59725,1,24758,5,20905,1,5320,3]),(7,[2364,1,127,1,127,1,127,1,127,1,255,1,127,1,890,1,2812,1,177,1,80,1,36219,1,26374,
  1,184,1,86,1,107,1,178,1,81,2,265,1,124,1,252,1,246,1,386,1,264,1,1022,1,52231,1]),(9,[2381,1,127,1,127,1,127,1,127,1,
  127,1,127,1,127,1,109,2,16,1,124,1,111,1,127,1,201,1,180,2,1753,2,30,1,157,1,653,1,227,1,101,2,70,2,4491,1,31366,1,37,
  1,151,1,142,1,108,1,309,1,246,1,24145,1,1542,1,41,1,14,1,57,1,121,2,139,1,116,1,180,1,98,1,244,1,127,1,252,1,127,1,
  118,1,116,1,269,1,259,2,161,1,83,1,18,1,81,1,421,1,260,2,81,1]),(220,[790,39,10,3,3,2,4,4,2,2,566,1,4,1,4,1,6,6,2,1,
  26,1,143,2,5,1,2,1,131,1,6,1,2,1,67,1,2,1,2,3,1,2,1,1,3,1,1,1,1,1,1,1,169,1,10,1,91,3,61,3,51,5,15,1,2,1,2,1,3,3,6,1,
  2,2,87,1,1477,2,27,1,1,1,142,1,198,1,2221,1,220,1,102,1,53,6,2,1,1,2,2,2,5,1,161,1,360,5,2,4,13,1,212,1,7,1,4,1,41,1,
  3,1,1,1,744,1,3,4,34875,3,390,1,21362,7,975,1,226,1,1836,1,44,1,171,1,1119,2,3,1,1,4,50,1,1,1,49653,8,7,2,5956,7]),
  (230,[768,77,3,32,275,5,266,30,20,1,75,8,59,12,119,7,2,6,2,2,2,2,67,27,160,9,34,4,1,9,1,3,1,5,106,8,42,24,2,28,81,4,
  169,1,1411,2,2,2,981,3,1149,1,348,1,220,1,93,8,51,13,4,14,156,9,348,3,7,7,19,1,3,2,198,63,721,13,4,1,5,10,3070,3,238,
  32,30831,1,4,10,32,2,80,2,494,18,446,1,1,2,3,2,5,2,1,1,21342,16,1350,5,1684,1,40,1,172,1,574,4,387,2,155,5,53,3,379,3,
  611,7,3,5,233,1,22225,7,26190,5,32,4,148,3,3515,7,1,17,2,7,1,2,1,5,261,7,375,1,61,4,1620,6])]

def markClass (n : Nat) : Nat :=
  ((markClasses.find? fun (_, runs) => runs.mem n).map (·.1)).getD 0

/-- Puts a character before a text whose marks are in order: behind the marks of lower classes. -/
def insertMark (n : Nat) : List Nat → List Nat
  | [] => [n]
  | m :: rest =>
    if 0 < markClass m && markClass m < markClass n then m :: insertMark n rest else n :: m :: rest

def orderMarks (ns : List Nat) : List Nat := ns.foldr insertMark []

end NullSafe.Text
