import NullSafe.Format.Fill
import NullSafe.Log.Json
import NullSafe.Log.Level
import NullSafe.Log.Time

/-! # Log records

A record is one message with its level, logger, time and fields. It is written as one line: in JSON for
machines, in a compact form for people, or plainly.
-/

namespace NullSafe.Log

inductive Trouble where
  /-- There is an error, but nothing is known about it. -/
  | unknown
  | error (kind text : String)
  /-- Values in the place of the kind of an error, the error and the way to it. -/
  | given (items : List Value)
  deriving DecidableEq

/-- What a value says about an error: a truth value that there is one, a tuple which one. -/
def Trouble.ofValue? (w : World) : Value → Option Trouble
  | .bool true => some .unknown
  | .tuple r => if (w.tuple r).isEmpty then none else some (.given (w.tuple r))
  | _ => none

/-- The line that shows an error. Values that are no error have none unless they are missing. -/
def Trouble.line : Trouble → Except Raised String
  | unknown => .ok "NoneType: None"
  | error kind text => .ok (if text.isEmpty then kind else kind ++ ": " ++ text)
  | given (_ :: v :: way :: _) =>
    if v = .null && way = .null then .ok "NoneType: None" else .error .noAttribute
  | given _ => .error .outOfRange

/-- The text of an error with the given arguments. The text of a failed look-up is its key as written. -/
def troubleText (w : World) (kind : String) : List Value → Except Raised String
  | [] => .ok ""
  | [v] => if kind = "KeyError" then w.written v else w.text v
  | vs => do
    let items ← vs.mapM w.written
    return "(" ++ ", ".intercalate items ++ ")"

abbrev Fields := List (String × Value)

structure Record where
  logger : Value
  level : Level
  levelName : Value
  template : Value
  /-- What fills the slots, unless it is false as a condition. -/
  arguments : Value := .null
  created : Value
  millis : Value
  fields : Fields := []
  trouble : Option Trouble := none
  deriving DecidableEq

/-- The attributes that every record has; fields cannot have these names. -/
def recordAttributes : List String :=
  ["name", "msg", "args", "levelname", "levelno", "pathname", "filename", "module", "exc_info", "exc_text",
    "stack_info", "lineno", "funcName", "created", "msecs", "relativeCreated", "thread", "threadName",
    "processName", "process"]

def standardNames : List String := recordAttributes ++ ["taskName", "asctime"]

def Record.withContext (r : Record) (context : Fields) : Record :=
  { r with fields := context.foldl (fun fields (name, v) =>
      if recordAttributes.contains name || fields.any (·.1 = name) then fields
      else fields ++ [(name, v)]) r.fields }

/-- The record with an attribute set: one that every record has and that is shown, or a field. -/
def Record.set (r : Record) (w : World) (name : String) (v : Value) : Record :=
  match name with
  | "name" => { r with logger := v }
  | "levelname" => { r with levelName := v }
  | "msg" => { r with template := v }
  | "args" => { r with arguments := v }
  | "created" => { r with created := v }
  | "msecs" => { r with millis := v }
  | "exc_info" => { r with trouble := Trouble.ofValue? w v }
  | _ => if recordAttributes.contains name then r else { r with fields := putAttribute r.fields name v }

/-- What arguments given one after the other supply: one mapping that is not empty its entries, others
themselves. -/
def argumentsOf (w : World) (args : List Value) : Value × World :=
  match args with
  | [.dict r] => if (w.dict r).isEmpty then w.newTuple args else (.dict r, w)
  | _ => w.newTuple args

def Record.message (r : Record) (w : World) : Except Raised String := do
  let text ← w.text r.template
  if w.isTrue r.arguments then
    return String.ofList (← Format.fill w .text text.toList (.ofValue w .text r.arguments))
  else return text

inductive Part where
  | value (v : Value)
  | json (text : String)

def Part.text (w : World) : Part → Except Raised String
  | value v => jsonValue w v
  | json text => .ok text

/-- The kind and the text of an error in JSON. Only an error has a kind with a name. -/
def Trouble.described (w : World) : Trouble → Except Raised (String × String)
  | unknown => .ok ("Exception", "null")
  | error kind text => .ok (kind, jsonText text)
  | given items => do
    if items.head?.any w.isTrue then throw .noAttribute
    let v ← World.require .outOfRange items[1]?
    if w.isTrue v then return ("Exception", jsonText (← w.text v)) else return ("Exception", "null")

def Trouble.json (w : World) (stack : Bool) (t : Trouble) : Except Raised String := do
  let (kind, text) ← t.described w
  let line ← if stack then t.line.map fun s => ["\"stack\":" ++ jsonText s] else pure []
  return jsonJoin "\x7b" "\x7d" (["\"type\":" ++ jsonText kind, "\"message\":" ++ text] ++ line)

/-- The parts of a line in JSON. The context replaces what has its name, fields do not. -/
def Record.parts (r : Record) (context : Fields) (time message : String) (trouble : Option String) :
    List (String × Part) :=
  let parts : List (String × Part) :=
    [("ts", Part.value (.str time)), ("level", Part.value r.levelName), ("logger", Part.value r.logger)] ++
    (if message.isEmpty then [] else [("message", Part.value (.str message))])
  let parts := context.foldl (fun parts (name, v) => putAttribute parts name (.value v)) parts
  let parts := r.fields.foldl (fun parts (name, v) =>
    if standardNames.contains name || parts.any (·.1 = name) then parts
    else parts ++ [(name, Part.value v)]) parts
  trouble.elim parts fun t => putAttribute parts "error" (.json t)

inductive Style where
  /-- One JSON object a line, with the line of an error if asked for. -/
  | json (stack : Bool)
  | human
  | plain
  deriving DecidableEq, Repr

def humanContext (w : World) (context : Fields) : Except Raised String := do
  let shown ← (["mode", "expression"].filterMap fun name => (context.lookup name).map (name, ·)).mapM
    fun (name, v) => return name ++ "=" ++ (← w.written v)
  return if shown.isEmpty then "" else "  [" ++ ", ".intercalate shown ++ "]"

def leftAligned (width : Nat) (s : String) : String :=
  s ++ String.ofList (List.replicate (width - s.length) ' ')

/-- A value behind which spaces may come: a text, or a number by its digits. -/
def alignable : Value → Except Raised String
  | .str s => .ok s
  | .int i => intText i
  | .bool b => .ok (if b then "1" else "0")
  | .float x => .ok (Number.floatText x)
  | .nan _ => .ok "nan"
  | _ => .error .mistyped

/-- The time of a record as people read it, with thousandths behind the given mark. -/
def Record.clock (r : Record) (w : World) (mark : Char) : Except Raised String := do
  let time ← clockTime r.created
  let template := ['%', 's', mark, '%', '0', '3', 'd']
  return String.ofList (← Format.fill w .text template { values := [.str time, r.millis] })

def Record.format (r : Record) (w : World) (style : Style) (context : Fields) :
    Except Raised String := do
  match style with
  | .json stack =>
    let time ← isoTime r.created
    let message ← r.message w
    let trouble ← r.trouble.mapM (·.json w stack)
    let parts ← (r.parts context time message trouble).mapM fun (name, p) =>
      return jsonText name ++ ":" ++ (← p.text w)
    return jsonJoin "\x7b" "\x7d" parts
  | .human =>
    let time ← r.clock w '.'
    let level := leftAligned 5 (← alignable r.levelName)
    let logger ← w.text r.logger
    let message ← r.message w
    let line := time ++ " " ++ level ++ " " ++ logger ++ ": " ++ message
    let shown ← humanContext w context
    let trouble ← r.trouble.mapM (·.line)
    return line ++ shown ++ trouble.elim "" ("\n" ++ ·)
  | .plain =>
    let message ← r.message w
    let time ← r.clock w ','
    let level ← w.text r.levelName
    let logger ← w.text r.logger
    let line := time ++ " " ++ level ++ " " ++ logger ++ ": " ++ message
    let trouble ← r.trouble.mapM (·.line)
    return line ++ trouble.elim "" fun t =>
      (if line.toList.getLast? = some '\n' then "" else "\n") ++ t

end NullSafe.Log
