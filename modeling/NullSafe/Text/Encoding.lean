/-! # Encodings

How text is written in bytes. Bytes are read from left to right, each time as many as make one character, or as
many as cannot be part of one; what becomes of those is a choice of the reader.
-/

namespace NullSafe.Text

inductive ByteOrder where
  | little
  | big
  deriving DecidableEq, Repr

/-- The bytes of a page that stand for another character than the one with their number, or for none. -/
abbrev Page := List (Nat × Option Nat)

/-- The page of Western Europe with typographic marks in place of control characters. A zero stands for none. -/
def windowsPage : Page := List.zipIdx [
  0x20AC, 0, 0x201A, 0x192, 0x201E, 0x2026, 0x2020, 0x2021, 0x2C6, 0x2030, 0x160, 0x2039, 0x152, 0, 0x17D, 0, 0,
  0x2018, 0x2019, 0x201C, 0x201D, 0x2022, 0x2013, 0x2014, 0x2DC, 0x2122, 0x161, 0x203A, 0x153, 0, 0x17E, 0x178] 0x80
  |>.map fun (n, byte) => (byte, if n = 0 then none else some n)

/-- The page of Western Europe with the sign of the euro. -/
def euroPage : Page := [
  (0xA4, some 0x20AC), (0xA6, some 0x160), (0xA8, some 0x161), (0xB4, some 0x17D),
  (0xB8, some 0x17E), (0xBC, some 0x152), (0xBD, some 0x153), (0xBE, some 0x178)]

inductive Encoding where
  | ascii
  /-- One byte for each character, which has the number of the byte unless the page says otherwise. -/
  | page (changes : Page)
  /-- One to four bytes, possibly behind a mark that is not part of the text. -/
  | utf8 (marked : Bool)
  /-- Units of two bytes. Without an order, a mark may tell it. -/
  | utf16 (order : Option ByteOrder)
  /-- Units of four bytes. Without an order, a mark may tell it. -/
  | utf32 (order : Option ByteOrder)
  deriving DecidableEq, Repr

def ownNames : List (String × Encoding) := [
  ("ascii", .ascii), ("latin_1", .page []), ("cp1252", .page windowsPage),
  ("iso8859_15", .page euroPage), ("utf_8", .utf8 false), ("utf_8_sig", .utf8 true),
  ("utf_16", .utf16 none), ("utf_16_le", .utf16 (some .little)), ("utf_16_be", .utf16 (some .big)),
  ("utf_32", .utf32 none), ("utf_32_le", .utf32 (some .little)), ("utf_32_be", .utf32 (some .big))]

def otherNames : List (Encoding × List String) := [
  (.ascii, ["646", "ansi_x3.4_1968", "ansi_x3.4_1986", "ansi_x3_4_1968", "cp367", "csascii", "ibm367",
    "iso646_us", "iso_646.irv_1991", "iso_ir_6", "us", "us_ascii"]),
  (.page [], ["8859", "cp819", "csisolatin1", "ibm819", "iso8859", "iso8859_1", "iso_8859_1",
    "iso_8859_1_1987", "iso_ir_100", "l1", "latin", "latin1"]),
  (.page windowsPage, ["1252", "windows_1252"]),
  (.page euroPage, ["iso_8859_15", "l9", "latin9"]),
  (.utf8 false, ["cp65001", "u8", "utf", "utf8", "utf8_ucs2", "utf8_ucs4"]),
  (.utf16 none, ["u16", "utf16"]),
  (.utf32 none, ["u32", "utf32"]),
  (.utf16 (some .little), ["unicodelittleunmarked", "utf_16le"]),
  (.utf16 (some .big), ["unicodebigunmarked", "utf_16be"]),
  (.utf32 (some .little), ["utf_32le"]),
  (.utf32 (some .big), ["utf_32be"])]

def otherwiseNamed? (name : String) : Option Encoding :=
  (otherNames.find? (·.2.contains name)).map (·.1)

/-- Words of letters, digits and points in small letters, joined by underscores. Everything else separates words. -/
def joinedWords (between : Bool) : List Char → List Char
  | [] => []
  | c :: rest =>
    if c.isAlphanum || c = '.' then
      (if between then ['_'] else []) ++ c.toLower :: joinedWords false rest
    else
      match rest.dropWhile fun d => !(d.isAlphanum || d = '.') with
      | [] => []
      | _ :: _ => joinedWords true rest

def Encoding.ofName? (name : String) : Option Encoding :=
  let isPart (c : Char) : Bool := c.isAlphanum || c = '.'
  let word := joinedWords false (name.toList.dropWhile (!isPart ·))
  let plain := word.map fun c => if c = '.' then '_' else c
  (otherwiseNamed? (String.ofList word)).or <| (otherwiseNamed? (String.ofList plain)).or <|
    ownNames.lookup (String.ofList word)

/-- A character read from the start of bytes, or none, and how many bytes that takes. -/
abbrev Reading := Option Char × Nat

def isContinuation (b : UInt8) : Bool := 0x80 ≤ b && b ≤ 0xBF

/-- How many bytes follow the first one of a character, and between which bytes the second is. -/
def continuations? (b : UInt8) : Option (Nat × UInt8 × UInt8) :=
  if 0xC2 ≤ b && b ≤ 0xDF then some (1, 0x80, 0xBF)
  else if b = 0xE0 then some (2, 0xA0, 0xBF)
  else if b = 0xED then some (2, 0x80, 0x9F)
  else if 0xE1 ≤ b && b ≤ 0xEF then some (2, 0x80, 0xBF)
  else if b = 0xF0 then some (3, 0x90, 0xBF)
  else if 0xF1 ≤ b && b ≤ 0xF3 then some (3, 0x80, 0xBF)
  else if b = 0xF4 then some (3, 0x80, 0x8F)
  else none

def continued (n : Nat) (bs : List UInt8) : Nat := bs.foldl (fun n b => n * 64 + b.toNat % 64) n

/-- The first character of bytes in one to four bytes. A start of a character that ends early is none. -/
def readUtf8 (b : UInt8) (rest : List UInt8) : Reading :=
  if b < 0x80 then (some (Char.ofNat b.toNat), 1)
  else
    match continuations? b, rest with
    | some (n, low, high), second :: _ =>
      if low ≤ second && second ≤ high then
        let found := (rest.take n).takeWhile isContinuation
        if found.length = n then
          (some (Char.ofNat (continued (b.toNat % (1 <<< (6 - n))) found)), n + 1)
        else (none, found.length + 1)
      else (none, 1)
    | _, _ => (none, 1)

def ByteOrder.number (order : ByteOrder) (bs : List UInt8) : Nat :=
  let bs := if order = .little then bs.reverse else bs
  bs.foldl (fun n b => n * 256 + b.toNat) 0

def readUtf16 (order : ByteOrder) (bs : List UInt8) : Reading :=
  let high := order.number (bs.take 2)
  if bs.length < 2 then (none, bs.length)
  else if high < 0xD800 || 0xE000 ≤ high then (some (Char.ofNat high), 2)
  else if 0xDC00 ≤ high then (none, 2)
  else if bs.length < 4 then (none, bs.length)
  else
    let low := order.number ((bs.drop 2).take 2)
    if 0xDC00 ≤ low && low < 0xE000 then
      (some (Char.ofNat (0x10000 + (high - 0xD800) * 0x400 + (low - 0xDC00))), 4)
    else (none, 2)

def readUtf32 (order : ByteOrder) (bs : List UInt8) : Reading :=
  let n := order.number (bs.take 4)
  if bs.length < 4 then (none, bs.length)
  else if n.isValidChar then (some (Char.ofNat n), 4)
  else (none, 4)

def Page.char? (page : Page) (b : UInt8) : Option Char :=
  ((page.lookup b.toNat).getD (some b.toNat)).map Char.ofNat

/-- Bytes without the mark of an order at their start, and the order it tells. -/
def ByteOrder.ofMark (little big : List UInt8) (bs : List UInt8) : ByteOrder × List UInt8 :=
  if little.isPrefixOf bs then (.little, bs.drop little.length)
  else if big.isPrefixOf bs then (.big, bs.drop big.length)
  else (.little, bs)

def Encoding.reader (e : Encoding) (bs : List UInt8) : (UInt8 → List UInt8 → Reading) × List UInt8 :=
  match e with
  | .ascii => (fun b _ => (if b < 0x80 then some (Char.ofNat b.toNat) else none, 1), bs)
  | .page changes => (fun b _ => (changes.char? b, 1), bs)
  | .utf8 false => (readUtf8, bs)
  | .utf8 true => (readUtf8, if [0xEF, 0xBB, 0xBF].isPrefixOf bs then bs.drop 3 else bs)
  | .utf16 (some order) => (fun b rest => readUtf16 order (b :: rest), bs)
  | .utf16 none =>
    let (order, bs) := ByteOrder.ofMark [0xFF, 0xFE] [0xFE, 0xFF] bs
    (fun b rest => readUtf16 order (b :: rest), bs)
  | .utf32 (some order) => (fun b rest => readUtf32 order (b :: rest), bs)
  | .utf32 none =>
    let (order, bs) := ByteOrder.ofMark [0xFF, 0xFE, 0, 0] [0, 0, 0xFE, 0xFF] bs
    (fun b rest => readUtf32 order (b :: rest), bs)

/-- Reads all characters, at most as many as the first number says. Bytes that are none are repaired. -/
def readAll {m : Type → Type} [Monad m] (read : UInt8 → List UInt8 → Reading)
    (repair : List UInt8 → m (List Char)) : Nat → List UInt8 → m (List Char)
  | 0, _ | _, [] => return []
  | fuel + 1, b :: rest => do
    let (c, n) := read b rest
    let cs ← match c with
      | some c => pure [c]
      | none => repair ((b :: rest).take n)
    return cs ++ (← readAll read repair fuel ((b :: rest).drop n))

def Encoding.decode {m : Type → Type} [Monad m] (e : Encoding) (repair : List UInt8 → m (List Char))
    (bs : List UInt8) : m (List Char) :=
  let (read, bs) := e.reader bs
  readAll read repair bs.length bs

end NullSafe.Text
