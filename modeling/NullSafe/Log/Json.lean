import NullSafe.Value.Text

/-! # Values in log lines

A log line shows values in JSON without spaces. Characters stand for themselves unless they must be escaped, and
a value that the format does not have is shown by its written form.
-/

namespace NullSafe.Log

def jsonChar (c : Char) : List Char :=
  if c = '"' then ['\\', '"']
  else if c = '\\' then ['\\', '\\']
  else if c = '\n' then ['\\', 'n']
  else if c = '\r' then ['\\', 'r']
  else if c = '\t' then ['\\', 't']
  else if c.toNat = 0x0C then ['\\', 'f']
  else if c.toNat = 0x08 then ['\\', 'b']
  else if c.toNat < 0x20 then '\\' :: 'u' :: Text.hexDigits 4 c.toNat
  else [c]

def jsonText (s : String) : String :=
  String.ofList ('"' :: (s.toList.flatMap jsonChar ++ ['"']))

def jsonFloat (x : Float) : String :=
  match Number.parts x with
  | .nan => "NaN"
  | .infinite negative => if negative then "-Infinity" else "Infinity"
  | .finite _ _ _ => Number.floatText x

def jsonJoin (opening closing : String) (parts : List String) : String :=
  opening ++ ",".intercalate parts ++ closing

/-- The name of an entry whose key is not a text. -/
def jsonKey : Value → Except Raised String
  | .str s => .ok s
  | .int i => intText i
  | .bool b => .ok (if b then "true" else "false")
  | .float x => .ok (jsonFloat x)
  | .nan _ => .ok "NaN"
  | .null => .ok "null"
  | _ => .error .mistyped

/-- A value inside the given containers. A container inside itself is refused. -/
def jsonWithin (w : World) : Nat → List World.Holder → Value → Except Raised String
  | 0, _, _ => .error .invalidValue
  | fuel + 1, path, v =>
    match v with
    | .null => .ok "null"
    | .bool b => .ok (if b then "true" else "false")
    | .int i => intText i
    | .float x => .ok (jsonFloat x)
    | .nan _ => .ok "NaN"
    | .str s => .ok (jsonText s)
    | .list r =>
      if path.contains (.list r) then .error .invalidValue
      else do
        let items ← (w.list r).mapM (jsonWithin w fuel (.list r :: path))
        return jsonJoin "[" "]" items
    | .tuple r =>
      if path.contains (.tuple r) then .error .invalidValue
      else do
        let items ← (w.tuple r).mapM (jsonWithin w fuel (.tuple r :: path))
        return jsonJoin "[" "]" items
    | .dict r =>
      if path.contains (.dict r) then .error .invalidValue
      else do
        let entries ← (w.dict r).mapM fun (k, v) => do
          let k ← jsonKey k
          let v ← jsonWithin w fuel (.dict r :: path) v
          return jsonText k ++ ":" ++ v
        return jsonJoin "\x7b" "\x7d" entries
    | v => do return jsonText (← w.written v)

def jsonValue (w : World) (v : Value) : Except Raised String := jsonWithin w (w.size + 2) [] v

end NullSafe.Log
