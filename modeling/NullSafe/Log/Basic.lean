import NullSafe.Config.Basic
import NullSafe.Log.Record
import NullSafe.Value.Compare

/-! # The log

The log holds a level, handlers that write records, a context whose fields go with every record, and the
warnings that were given once. A record below the level is dropped. Without handlers nothing is written.
-/

namespace NullSafe

inductive Log.Stream where
  | out
  | err
  deriving DecidableEq, Repr

/-- Writes records from a level up, and possibly only up to another. -/
structure Log.Handler where
  name : String
  level : Level
  upTo : Option Int := none
  style : Style
  stream : Stream
  deriving DecidableEq, Repr

structure Log.Entry where
  level : String
  logger : String
  message : String
  fields : List (String × Snapshot)
  context : List (String × Snapshot)

structure Log where
  level : Log.Level := .number 0
  handlers : List Log.Handler := []
  context : Option Log.Fields := none
  /-- The contexts to return to, the last one first. -/
  saved : List (Option Log.Fields) := []
  warned : List Value := []
  entries : List Log.Entry := []
  out : String := ""
  err : String := ""
  now : Float := 0

namespace Log

/-- The logger above all others. -/
def baseName : String := "safexpr"

/-- The full name of a logger. What is false as a condition names the base. -/
def loggerName (w : World) : Value → Except Raised String
  | .str name => .ok (if name.isEmpty then baseName else baseName ++ "." ++ name)
  | v => if w.isTrue v then .error .mistyped else .ok baseName

def warning : Int := 30

/-- The level from which records are emitted; a log without one emits warnings. -/
def threshold (l : Log) : Int := if l.level.toInt = 0 then warning else l.level.toInt

def isEnabled (l : Log) (level : Int) : Bool := 0 < level && l.threshold ≤ level

def contextFields (l : Log) : Fields := l.context.getD []

/-- The current context with more fields; missing ones are left out. -/
def extended (l : Log) (fields : Fields) : Fields :=
  fields.foldl (fun context (name, v) => if v = .null then context else putAttribute context name v) l.contextFields

def bind (l : Log) (fields : Fields) : Log := { l with context := some (l.extended fields) }

def enter (l : Log) (fields : Fields) : Log :=
  { l with context := some (l.extended fields), saved := l.context :: l.saved }

def leave (l : Log) : Log :=
  match l.saved with
  | [] => l
  | context :: saved => { l with context, saved }

def Handler.accepts (h : Handler) (r : Record) : Bool :=
  h.level.toInt ≤ r.level.toInt && h.upTo.all (r.level.toInt ≤ ·)

/-- Writes a record with a handler. One that cannot be written is dropped. -/
def deliver (w : World) (r : Record) (l : Log) (h : Handler) : Log :=
  if h.accepts r then
    match r.format w h.style l.contextFields with
    | .ok line =>
      match h.stream with
      | .out => { l with out := l.out ++ line ++ "\n" }
      | .err => { l with err := l.err ++ line ++ "\n" }
    | .error _ => l
  else l

def entryOf (l : Log) (w : World) (r : Record) : Entry where
  level := (w.text r.levelName).toOption.getD ""
  logger := (w.text r.logger).toOption.getD ""
  message := (r.message w).toOption.getD ""
  fields := r.fields.map fun (name, v) => (name, w.snapshot v)
  context := l.contextFields.map fun (name, v) => (name, w.snapshot v)

/-- Emits a record. Those of the logger above all others take the context as fields. -/
def emit (l : Log) (w : World) (r : Record) : Log :=
  let r := if r.logger = .str baseName then r.withContext l.contextFields else r
  let l := { l with entries := l.entries ++ [l.entryOf w r] }
  l.handlers.foldl (deliver w r) l

/-- Writing to the log: what was written stays when it raises. -/
abbrev Writing := ExceptT Raised (StateM Log)

structure Extras where
  fields : Fields := []
  trouble : Option Trouble := none

/-- The names that are not fields but say how a record is made. -/
def passedNames : List String := ["exc_info", "stack_info", "stacklevel", "extra"]

def fieldName (name : String) : String :=
  if standardNames.contains name then "field_" ++ name else name

def mappingFields (w : World) : Option Value → Fields
  | some (.dict r) => (w.dict r).filterMap fun (k, v) => (jsonKey k).toOption.map (·, v)
  | _ => []

/-- The fields of a record: those given in a mapping, then the others that are not there yet. -/
def recordFields (w : World) (x : Extras) : Fields :=
  x.fields.foldl (fun fields (name, v) =>
    if passedNames.contains name || fields.any (·.1 = fieldName name) then fields
    else fields ++ [(fieldName name, v)]) (mappingFields w (x.fields.lookup "extra"))

def clashes (name : String) : Bool :=
  name = "message" || name = "asctime" || recordAttributes.contains name

def troubleOf (w : World) (x : Extras) : Option Trouble :=
  match x.trouble with
  | some t => some t
  | none =>
    match x.fields.lookup "exc_info" with
    | some v => if w.isTrue v then some ((Trouble.ofValue? w v).getD .unknown) else none
    | none => none

def logEnabled (w : World) (logger : String) (level : Level) (msg : Value) (x : Extras) :
    Writing Unit := do
  if (x.fields.lookup "stacklevel").any (·.number?.isNone) then throw .mistyped
  let fields := recordFields w x
  if fields.any (clashes ·.1) then throw .noKey
  let l ← get
  set (l.emit w {
    logger := .str logger, level, levelName := .str level.name
    template := msg
    created := .float l.now
    millis := .int (thousandths l.now)
    fields
    trouble := troubleOf w x })

def enabledLevel (l : Log) : Value → Except Raised (Option Level)
  | .int i => .ok (if l.isEnabled i then some (.number i) else none)
  | .bool b => .ok (if l.isEnabled (Level.truth b).toInt then some (.truth b) else none)
  | .float x =>
    match (Number.float x).compare? (.int 0), (Number.float x).compare? (.int l.threshold) with
    | some .gt, some .gt | some .gt, some .eq => .error .mistyped
    | _, _ => .ok none
  | .nan _ => .ok none
  | _ => .error .mistyped

def logAt (w : World) (logger : String) (level msg : Value) (x : Extras) : Writing Unit := do
  match (← get).enabledLevel level with
  | .error e => throw e
  | .ok none => return
  | .ok (some level) => logEnabled w logger level msg x

def log (w : World) (logger level msg : Value) (x : Extras) : Writing Unit := do
  logAt w (← loggerName w logger) level msg x

def methods : List (String × Int) :=
  [("debug", 10), ("info", 20), ("warning", 30), ("warn", 30), ("error", 40), ("critical", 50), ("exception", 40)]

def Extras.hasOne (x : Extras) (names : List String) : Bool := x.fields.any (names.contains ·.1)

def Extras.without (x : Extras) (name : String) : Extras :=
  { x with fields := x.fields.filter (·.1 ≠ name) }

/-- Logs a message with a method. The one for errors being handled says so, unless told otherwise; the one
for any level takes the message as a field. -/
def logWith (w : World) (logger : Value) (method : String) (msg : Value) (x : Extras) :
    Writing Unit := do
  let logger ← loggerName w logger
  match methods.lookup method with
  | some level =>
    if x.hasOne ["self", "msg", "level"] then throw .mistyped
    let x := if method = "exception" && x.trouble.isNone && !x.hasOne ["exc_info"] then
        { x with trouble := some .unknown }
      else x
    logAt w logger (.int level) msg x
  | none =>
    if method = "log" then
      match x.fields.lookup "msg" with
      | some text =>
        if x.hasOne ["self", "level"] then throw .mistyped
        logAt w logger msg text (x.without "msg")
      | none => throw .mistyped
    else throw .noAttribute

def warnOnce (w : World) (logger : Value) (code msg : Value) (x : Extras) : Writing Unit := do
  let logger ← loggerName w logger
  if x.hasOne ["logger", "code", "msg"] then throw .mistyped
  if (← w.lookup ((← get).warned.map (·, .null)) code).isSome then return
  modify fun l => { l with warned := l.warned ++ [code] }
  if x.hasOne ["self"] then throw .mistyped
  let level := (x.fields.lookup "level").getD (.int warning)
  let x := x.without "level"
  logAt w logger level msg { x with fields := ("code", code) :: x.fields }

inductive Fault where
  | invalidLevel
  | unknownOption
  deriving DecidableEq, Repr

/-- The report of a log that cannot be set up; an option that is not there has none. -/
def Fault.message? : Fault → Option String
  | invalidLevel => some "Invalid level name"
  | unknownOption => none

def resolveLevel (v : Value) : Except Fault Level :=
  match Level.ofValue? v with
  | some level => .ok level
  | none => .error .invalidLevel

def setLevel (l : Log) (v : Value) : Except Fault Log := do
  return { l with level := ← resolveLevel v }

def outName : String := "_safexpr_stdout_handler"

def errName : String := "_safexpr_stderr_handler"

def disable (l : Log) : Log :=
  { l with handlers := l.handlers.filter fun h => h.name ≠ outName && h.name ≠ errName }

structure Options where
  level : Value := .int 10
  jsonOutput : Bool := true
  includeStack : Bool := false
  pretty : Bool := false
  routeErrors : Bool := false

def Options.put (w : World) (o : Options) (name : String) (v : Value) : Except Fault Options :=
  match name with
  | "level" => .ok { o with level := v }
  | "json_output" => .ok { o with jsonOutput := w.isTrue v }
  | "include_stack" => .ok { o with includeStack := w.isTrue v }
  | "pretty" => .ok { o with pretty := w.isTrue v }
  | "route_errors_to_stderr" => .ok { o with routeErrors := w.isTrue v }
  | _ => .error .unknownOption

def Options.ofFields (w : World) (fields : Fields) : Except Fault Options :=
  fields.foldlM (fun o (name, v) => o.put w name v) {}

def Options.style (o : Options) : Style :=
  if o.pretty then .human else if o.jsonOutput then .json o.includeStack else .plain

def errorLevel (level : Level) : Level := if level.toInt < 40 then .number 40 else level

def Options.handlers (o : Options) (level : Level) : List Handler :=
  if o.routeErrors then
    [{ name := outName, level, upTo := some warning, style := o.style, stream := .out },
      { name := errName, level := errorLevel level, style := o.style, stream := .err }]
  else [{ name := outName, level, style := o.style, stream := .out }]

def enable (l : Log) (o : Options) : Except Fault Log := do
  let level ← resolveLevel o.level
  let l := { l with level }.disable
  return { l with handlers := l.handlers ++ o.handlers level }

def isSwitchedOn (environment : List (String × String)) (name : String) : Bool :=
  (environment.lookup name).any fun word => Config.isOn word.toList

def configure (l : Log) (environment : List (String × String)) : Except Fault Log := do
  let level : Value := .str ((environment.lookup "SAFEXPR_LOG_LEVEL").getD "WARNING")
  let pretty := isSwitchedOn environment "SAFEXPR_LOG_PRETTY"
  let l ← l.setLevel level
  if isSwitchedOn environment "SAFEXPR_LOG_STDOUT" then
    l.enable { level, jsonOutput := !pretty, pretty, includeStack := isSwitchedOn environment "SAFEXPR_LOG_STACK" }
  else return l.disable

end Log

end NullSafe
