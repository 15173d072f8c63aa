import NullSafe.Number.Reading
import NullSafe.Number.Shortest
import NullSafe.Text.Quoted
import NullSafe.Value.Compare

/-! # Texts of values

The written form shows a value as it would be written; the text of a value is its written form, but that of a
text is the text. What is joined to a text is displayed with the words of the expression language.
-/

namespace NullSafe

def byteWritten (quote : Char) (b : UInt8) : List Char :=
  let n := b.toNat
  if n == quote.toNat || n == 0x5C then ['\\', Char.ofNat n]
  else if n == 0x09 then ['\\', 't']
  else if n == 0x0A then ['\\', 'n']
  else if n == 0x0D then ['\\', 'r']
  else if 0x20 ≤ n && n < 0x7F then [Char.ofNat n]
  else '\\' :: 'x' :: Text.hexDigits 2 n

def bytesWritten (bs : List UInt8) : String :=
  let quote := Text.quoteFor (bs.map UInt8.toNat)
  String.ofList ('b' :: quote :: (bs.flatMap (byteWritten quote) ++ [quote]))

def intText (i : Int) : Except Raised String :=
  let s := toString i
  if (if i < 0 then s.length - 1 else s.length) ≤ Number.maxDigits then .ok s
  else .error .invalidValue

def Native.name : Native → String
  | parseInt => "parseInt"
  | parseFloat => "parseFloat"
  | isNaN => "isNaN"
  | array => "Array"
  | round => "Math.round"
  | sign => "Math.sign"
  | max => "Math.max"
  | min => "Math.min"
  | abs => "Math.abs"
  | ceil => "Math.ceil"
  | floor => "Math.floor"
  | trunc => "Math.trunc"
  | pow => "Math.pow"
  | sqrt => "Math.sqrt"
  | log => "Math.log"
  | exp => "Math.exp"
  | sin => "Math.sin"
  | cos => "Math.cos"
  | tan => "Math.tan"
  | random => "Math.random"
  | len => "len"
  | str => "str"
  | int => "int"
  | sum => "sum"
  | bool => "bool"

def Native.written : Native → String
  | array => "<class 'list'>"
  | str => "<class 'str'>"
  | int => "<class 'int'>"
  | bool => "<class 'bool'>"
  | random => "<built-in method random of Random object>"
  | f =>
    let short := String.ofList (f.name.toList.reverse.takeWhile (· != '.')).reverse
    if [Native.parseInt, .parseFloat, .isNaN, .round, .sign, .max, .min].contains f then
      "<function " ++ short ++ ">"
    else "<built-in function " ++ short ++ ">"

def flagWritten (f : Pattern.Flags) : List String :=
  (if f.unrepeated then ["re.TEMPLATE"] else []) ++ (if f.ignoreCase then ["re.IGNORECASE"] else []) ++
    (if f.multiline then ["re.MULTILINE"] else []) ++ (if f.dotAll then ["re.DOTALL"] else []) ++
    (if f.verbose then ["re.VERBOSE"] else []) ++ (if f.ascii then ["re.ASCII"] else [])

def patternWritten (body : String) (flags : Pattern.Flags) : String :=
  let shown := String.ofList ((quoted body).toList.take 200)
  let flags := flagWritten flags
  "re.compile(" ++ shown ++ (if flags.isEmpty then "" else ", " ++ "|".intercalate flags) ++ ")"

def foundWritten (f : Found) : String :=
  let text := Pattern.slice f.text f.result.start f.result.stop
  let shown := String.ofList ((quoted (String.ofList text)).toList.take 50)
  "<re.Match object; span=(" ++ toString f.result.start ++ ", " ++ toString f.result.stop ++ "), match=" ++ shown ++ ">"

namespace World

inductive Holder where
  | list (r : Ref)
  | tuple (r : Ref)
  | dict (r : Ref)
  | object (r : Ref)
  deriving DecidableEq

/-- The written form of a value inside the given containers. A container inside itself is shown by dots, and an
attribute with an empty name is not shown. -/
def writtenWithin (w : World) : Nat → List Holder → Value → Except Raised String
  | 0, _, _ => .error .tooDeep
  | fuel + 1, path, v =>
    match v with
    | .null => .ok "None"
    | .bool b => .ok (if b then "True" else "False")
    | .int i => intText i
    | .float x => .ok (Number.floatText x)
    | .nan _ => .ok "nan"
    | .str s => .ok (quoted s)
    | .bytes bs => .ok (bytesWritten bs)
    | .list r =>
      if path.contains (.list r) then .ok "[...]"
      else do
        let items ← (w.list r).mapM (w.writtenWithin fuel (.list r :: path))
        return "[" ++ ", ".intercalate items ++ "]"
    | .tuple r =>
      if path.contains (.tuple r) then .ok "(...)"
      else do
        let items ← (w.tuple r).mapM (w.writtenWithin fuel (.tuple r :: path))
        return "(" ++ ", ".intercalate items ++ (if items.length = 1 then ",)" else ")")
    | .dict r =>
      if path.contains (.dict r) then .ok "\x7b...\x7d"
      else do
        let entries ← (w.dict r).mapM fun (k, v) => do
          let k ← w.writtenWithin fuel (.dict r :: path) k
          let v ← w.writtenWithin fuel (.dict r :: path) v
          return k ++ ": " ++ v
        return "\x7b" ++ ", ".intercalate entries ++ "\x7d"
    | .object r =>
      match (w.object r).kind with
      | .plain | .math =>
        if path.contains (.object r) then .ok "namespace(...)"
        else do
          let entries ← ((w.object r).attributes.filter (!·.1.isEmpty)).mapM fun (k, v) => do
            let v ← w.writtenWithin fuel (.object r :: path) v
            return k ++ "=" ++ v
          return "namespace(" ++ ", ".intercalate entries ++ ")"
      | .window => .ok "<module 'builtins' (built-in)>"
      | .host cls => .ok ("<" ++ cls.name ++ " object>")
      | .bound => .ok "<bound call object>"
    | .function (.host name) => .ok ("<function " ++ name ++ ">")
    | .function (.native f) => .ok f.written
    | .method _ m => .ok ("<built-in method " ++ m.name ++ ">")
    | .pattern body flags => .ok (patternWritten body flags)
    | .found r => .ok (foundWritten (w.found r))

def written (w : World) (v : Value) : Except Raised String :=
  w.writtenWithin (w.size + 2) [] v

def text (w : World) : Value → Except Raised String
  | .str s => .ok s
  | v => w.written v

/-- The text of a value that is joined to a text: items of a list are separated by commas and missing
ones are empty. -/
def displayWithin (w : World) : Nat → Value → Except Raised String
  | 0, _ => .error .tooDeep
  | fuel + 1, v =>
    match v with
    | .null => .ok "undefined"
    | .bool b => .ok (if b then "true" else "false")
    | .nan _ => .ok "NaN"
    | .float x =>
      match Number.parts x with
      | .nan => .ok "NaN"
      | .infinite negative => .ok (if negative then "-Infinity" else "Infinity")
      | .finite _ _ _ =>
        if Number.isWhole x then intText ((Number.truncate? x).getD 0) else .ok (Number.floatText x)
    | .list r => do
      let items ← (w.list r).mapM fun v => if v = .null then .ok "" else w.displayWithin fuel v
      return ",".intercalate items
    | v => w.text v

def display (w : World) (v : Value) : Except Raised String := w.displayWithin (w.lists.size + 2) v

def snapshotWithin (w : World) : Nat → List Holder → Value → Snapshot
  | 0, _, _ => .null
  | fuel + 1, path, v =>
    let inside (h : Holder) (show_ : (Value → Snapshot) → Snapshot) : Snapshot :=
      match path.idxOf? h with
      | some i => .cycle (i + 1)
      | none => show_ (w.snapshotWithin fuel (h :: path))
    match v with
    | .null => .null
    | .bool b => .bool b
    | .int i => .int i
    | .float x => .float (Number.floatText x)
    | .nan _ => .float "nan"
    | .str s => .str s
    | .bytes bs => .bytes bs
    | .list r => inside (.list r) fun f => .list ((w.list r).map f)
    | .tuple r => inside (.tuple r) fun f => .tuple ((w.tuple r).map f)
    | .dict r => inside (.dict r) fun f => .dict ((w.dict r).map fun (k, v) => (f k, f v))
    | .object r =>
      match (w.object r).kind with
      | .plain => inside (.object r) fun f => .object ((w.object r).attributes.map fun (n, v) => (n, f v))
      | .math => .library "Math"
      | .window => .library "window"
      | .host cls => inside (.object r) fun f => .instanceOf cls.name
          ((w.object r).attributes.map fun (n, v) => (n, f v))
      | .bound => inside (.object r) fun f => .bound (f (((w.object r).attributes.lookup "fn").getD .null))
    | .function (.host name) => .host name
    | .function (.native f) => .native f.name
    | .method _ m => .method m.name
    | .pattern body flags => .pattern body flags.letters
    | .found r =>
      let f := w.found r
      let part (a b : Nat) : String := String.ofList (Pattern.slice f.text a b)
      .found (part f.result.start f.result.stop) f.result.start f.result.stop
        (f.result.groups.map fun g => g.map fun (a, b) => part a b)

def snapshot (w : World) (v : Value) : Snapshot := w.snapshotWithin (w.size + 2) [] v

end World

end NullSafe
