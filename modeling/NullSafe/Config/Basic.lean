import NullSafe.Config.Json
import NullSafe.Text.Blank
import NullSafe.Text.Case
import NullSafe.Text.Identifier

/-! # Configuration

The settings of a compiler. They come from a file, then from the environment, then from the caller; what
comes later wins, and the result is checked as a whole.
-/

namespace NullSafe

structure Config where
  cacheEnabled : Bool := true
  defaultGlobals : Bool := true
  logSource : Bool := false
  functionName : String := "expression"
  deriving DecidableEq, Repr, Inhabited

namespace Config

inductive Fault where
  | malformedFile
  | oversizedNumber (digits : Nat)
  | fileWithoutObject
  | unknownSetting
  | invalidFunctionName
  | notBoolean (setting : String)
  deriving DecidableEq, Repr

/-- The report of refused settings; the file is shown as given. Some faults have none of their own. -/
def Fault.message? (path : String) : Fault → Option String
  | malformedFile => none
  | oversizedNumber digits => some ("Exceeds the limit (" ++ toString Number.maxDigits ++
      " digits) for integer string conversion: value has " ++ toString digits ++
      " digits; use sys.set_int_max_str_digits() to increase the limit")
  | fileWithoutObject => some ("config file " ++ path ++ " must contain a JSON object")
  | unknownSetting => none
  | invalidFunctionName => some "function_name must be a valid Python identifier"
  | notBoolean setting => some (setting ++ " must be a boolean")

abbrev Settings := List (String × Snapshot)

def settingNames : List String := ["cache_enabled", "default_globals", "log_source", "function_name"]

def flag (s : Settings) (name : String) (missing : Bool) : Except Fault Bool :=
  match s.lookup name with
  | none => .ok missing
  | some (.bool b) => .ok b
  | some _ => .error (.notBoolean name)

def nameSetting (s : Settings) : Except Fault String :=
  match s.lookup "function_name" with
  | none => .ok "expression"
  | some (.str name) =>
    if Text.isIdentifier name.toList then .ok name else .error .invalidFunctionName
  | some _ => .error .invalidFunctionName

def ofSettings (s : Settings) : Except Fault Config := do
  if s.any fun (name, _) => !settingNames.contains name then throw .unknownSetting
  let functionName ← nameSetting s
  let cacheEnabled ← flag s "cache_enabled" true
  let defaultGlobals ← flag s "default_globals" true
  let logSource ← flag s "log_source" false
  return { cacheEnabled, defaultGlobals, logSource, functionName }

def isOn (cs : List Char) : Bool :=
  ["1", "true", "yes", "on"].contains (String.ofList (Text.lower cs))

/-- The truth value of an environment variable; a blank one says nothing. -/
def environmentFlag? (environment : List (String × String)) (name : String) : Option Bool := do
  let word := Text.trim (← environment.lookup name).toList
  if word.isEmpty then none else return isOn word

def settingVariables : List (String × String) :=
  [("SAFEXPR_CACHE", "cache_enabled"), ("SAFEXPR_DEFAULT_GLOBALS", "default_globals"),
    ("SAFEXPR_LOG_SOURCE", "log_source")]

def ofEnvironment (environment : List (String × String)) : Settings :=
  settingVariables.filterMap fun (source, name) =>
    (environmentFlag? environment source).map fun b => (name, .bool b)

def ofFile (content : String) : Except Fault Settings :=
  match Json.read content with
  | .error .malformed => .error .malformedFile
  | .error (.oversized digits) => .error (.oversizedNumber digits)
  | .ok (.dict entries) =>
    .ok (entries.filterMap fun (k, v) =>
      match k with
      | .str name => some (name, v)
      | _ => none)
  | .ok _ => .error .fileWithoutObject

def overlaid (s t : Settings) : Settings := t.foldl (fun s (name, v) => Json.putEntry s name v) s

def load (file : Option String) (environment : List (String × String)) (overrides : Settings) :
    Except Fault Config := do
  let settings ← file.elim (.ok []) ofFile
  ofSettings (overlaid (overlaid settings (ofEnvironment environment)) overrides)

end Config

end NullSafe
