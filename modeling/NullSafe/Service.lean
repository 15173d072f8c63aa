import NullSafe.Compile
import NullSafe.Log.Basic
import NullSafe.Registry

/-! # Compilers

A compiler answers requests with functions that are bound to globals and formatters, and remembers its
answers. Compilers may share a registry of globals, and all write to one log. A compiled expression keeps the
globals as they were when it was compiled.
-/

namespace NullSafe

/-- A compiled expression. Its mapping of globals is its own, so it also tells it from every other. -/
structure Compiled where
  request : Request
  program : Program
  source : String
  globals : Ref
  formatters : Value

namespace Compiled

def call (host : Host) (c : Compiled) (this : Value) (args : List Value) : Run Value :=
  c.program.run host (this :: .dict c.globals :: c.formatters :: args)

/-- What a compiled expression is when it is found on a class: itself, or, found through an object of the class, itself
with that object as binding context. -/
inductive Access where
  | itself (c : Compiled)
  | bound (c : Compiled) (this : Value)

def access (c : Compiled) : Option Value → Access
  | none => .itself c
  | some this => .bound c this

def description (c : Compiled) : String :=
  "<CompiledExpression " ++ (if c.request.setter then "setter " else "getter ") ++ quoted c.request.expression ++ ">"

end Compiled

/-- A compiler: its settings, the place of its registry and the answers it remembers. -/
structure Compiler where
  config : Config
  registry : Nat
  cache : List (Request × Compiled) := []

namespace Compiler

def cached? (c : Compiler) (r : Request) : Option Compiled :=
  if c.config.cacheEnabled then c.cache.lookup r else none

def remember (c : Compiler) (r : Request) (x : Compiled) : Compiler :=
  if c.config.cacheEnabled then { c with cache := c.cache ++ [(r, x)] } else c

def forget (c : Compiler) : Compiler := { c with cache := [] }

def cacheSize (c : Compiler) : Nat := c.cache.length

end Compiler

inductive Failure where
  | request (f : Request.Fault)
  | stopped (s : Stop)
  | registry (f : Registry.Fault)
  | raised (e : Raised)

/-- Compilers and registries with the world their values live in and the log they write to. -/
structure Service where
  world : World := .initial
  log : Log := {}
  registries : Array Registry := #[]
  compilers : Array Compiler := #[]

abbrev Action := ExceptT Failure (StateM Service)

namespace Service

def registryAt (s : Service) (i : Nat) : Registry := s.registries[i]?.getD {}

def compilerAt (s : Service) (i : Nat) : Compiler := s.compilers[i]?.getD ⟨{}, 0, []⟩

def setCompiler (s : Service) (i : Nat) (c : Compiler) : Service :=
  { s with compilers := s.compilers.setIfInBounds i c }

def setRegistry (s : Service) (i : Nat) (r : Registry) : Service :=
  { s with registries := s.registries.setIfInBounds i r }

def logger : Value := .str "compiler"

/-- Writes to the log. Errors of writing do not reach the caller. -/
def write (s : Service) (x : Log.Writing Unit) : Service := { s with log := (x.run.run s.log).2 }

def report (s : Service) (level : Int) (msg : String) (fields : Log.Fields) : Service :=
  s.write (Log.log s.world logger (.int level) (.str msg) { fields })

/-- The entries of the globals for a request: those of the registry, and over them those of the request. -/
def mergedGlobals (w : World) (r : Registry) (globals : Value) : Except Raised (List (Value × Value)) :=
  let registered := r.entries.map fun (name, v) => (Value.str name, v)
  if w.isTrue globals then w.updated registered globals else .ok registered

def entryNames (entries : List (Value × Value)) : List String :=
  entries.filterMap fun (k, _) => Request.text? k

/-- Whether the caller gives globals that are not the ones an expression is bound to. Only a mapping has
globals to compare. A value that has no place in the world is the same as every value equal to it; whether two such
values are one object is left out. -/
def staleGlobals (w : World) (c : Compiled) (globals : Value) : Except Raised Bool :=
  match globals with
  | .dict g => (w.dict g).anyM fun (k, v) => do
    return (← w.lookup (w.dict c.globals) k).getD .null ≠ v
  | v => if w.isTrue v then .error .noAttribute else .ok false

def staleFormatters (w : World) (c : Compiled) (formatters : Value) : Except Raised Bool :=
  if formatters = .null then .ok false
  else do
    let given ← w.updated [] formatters
    let bound ← w.updated [] c.formatters
    return !(← w.equalEntries given bound)

/-- Warns, once for each expression, that an expression is bound to other globals or formatters. -/
def warnStale (s : Service) (c : Compiled) : Service :=
  let expression := c.request.expression
  s.write (Log.warnOnce s.world logger (.str ("expr.cache.globals_mismatch:" ++ expression))
    (.str "cached expression reused with different globals/formatters")
    { fields := [("event", .str "expr.cache.globals_mismatch"), ("expression", .str expression)] })

def ofWorld {α : Type} (f : World → Except Raised α) : Action α := do
  match f (← get).world with
  | .ok a => return a
  | .error e => throw (.raised e)

def reuse (c : Compiled) (globals formatters : Value) : Action Compiled := do
  let oldGlobals ← ofWorld (staleGlobals · c globals)
  let oldFormatters ← ofWorld (staleFormatters · c formatters)
  if oldGlobals || oldFormatters then modify (·.warnStale c)
  modify (·.report 10 "cache hit" [("event", .str "expr.cache.hit"), ("expression", .str c.request.expression)])
  return c

def enterRequest (s : Service) (r : Request) : Service :=
  let mode := if r.setter then "setter" else "getter"
  { s with log := s.log.enter [("expression", .str r.expression), ("mode", .str mode)] }

def leaveRequest (s : Service) : Service := { s with log := s.log.leave }

def reportStop (s : Service) : Stop → Service
  | .rejected r => s.report 30 "expression rejected"
    [("event", .str "expr.compile.failed"), ("error", .str r.diagnostic)]
  | _ => s

def reportCompiled (s : Service) (config : Config) (r : Request) (source : String) : Service :=
  let (names, world) := s.world.newList (r.arguments.map .str)
  let s := { s with world }
  s.report 10 "compiled" ([("event", Value.str "expr.compile"), ("args", names)] ++
    (if config.logSource then [("source", Value.str source)] else []))

def newMapping (entries : List (Value × Value)) : Action Ref := do
  let s ← get
  set { s with world := (s.world.newDict entries).2 }
  return s.world.dicts.size

def compileNew (c : Compiler) (r : Request) (globals formatters : Value) : Action Compiled := do
  let registry := (← get).registryAt c.registry
  let entries ← ofWorld (mergedGlobals · registry globals)
  match Compile.run c.config.functionName (entryNames entries) r with
  | .error stop =>
    modify (·.reportStop stop)
    throw (.stopped stop)
  | .ok generated =>
    let own ← newMapping entries
    let formatters ← if formatters = .null then Value.dict <$> newMapping [] else pure formatters
    modify (·.reportCompiled c.config r generated.source)
    return {
      request := r
      program := generated.program
      source := generated.source
      globals := own
      formatters }

def inContext {α : Type} (r : Request) (x : Action α) : Action α := ExceptT.mk do
  modify (·.enterRequest r)
  let result ← x.run
  modify (·.leaveRequest)
  return result

def compile (i : Nat) (r : Request) (globals formatters : Value) : Action Compiled := do
  let c := (← get).compilerAt i
  match c.cached? r with
  | some x => reuse x globals formatters
  | none =>
    let x ← inContext r (compileNew c r globals formatters)
    modify (·.setCompiler i (c.remember r x))
    return x

def request (expression : Value) (arguments : List Value) : Action Request := do
  match Request.ofValues expression ((← get).world.spreadArguments arguments) false with
  | .ok r => return r
  | .error f => throw (.request f)

def parse (i : Nat) (expression : Value) (globals formatters : Value) (arguments : List Value) :
    Action Compiled := do
  let r ← request expression arguments
  compile i r globals formatters

def parseSetter (i : Nat) (expression : Value) (globals formatters : Value)
    (arguments : List Value) : Action Compiled := do
  let r ← request expression arguments
  match r.toSetter with
  | .ok r => compile i r globals formatters
  | .error f => throw (.request f)

def addRegistry (r : Registry) : Action Nat := do
  let s ← get
  set { s with registries := s.registries.push r }
  return s.registries.size

/-- Adds a compiler and gives its place. Without a registry it gets a new one, with the standard globals
unless they are switched off. -/
def addCompiler (config : Config) (registry : Option Nat) : Action Nat := do
  let registry ← match registry with
    | some i => pure i
    | none => addRegistry (if config.defaultGlobals then .standard else {})
  let s ← get
  set { s with compilers := s.compilers.push { config, registry } }
  return s.compilers.size

def changeRegistry (i : Nat) (f : Registry → World → Except Registry.Fault Registry) : Action Unit := do
  let s ← get
  match f (s.registryAt i) s.world with
  | .ok r => set (s.setRegistry i r)
  | .error e => throw (.registry e)

def updateRegistry (i : Nat) (values : Value) : Action Unit := do
  let s ← get
  let (r, fault) := (s.registryAt i).update s.world values
  set (s.setRegistry i r)
  match fault with
  | some f => throw (.registry f)
  | none => return

def askRegistry {α : Type} (i : Nat) (f : Registry → World → Except Registry.Fault α) : Action α := do
  let s ← get
  match f (s.registryAt i) s.world with
  | .ok a => return a
  | .error e => throw (.registry e)

def clearCache (i : Nat) : Action Unit := modify fun s => s.setCompiler i (s.compilerAt i).forget

/-- A mapping of its own with the globals that are registered now. -/
def snapshotRegistry (i : Nat) : Action Ref := do
  newMapping (((← get).registryAt i).entries.map fun (name, v) => (Value.str name, v))

def perform (x : Run Value) : Action Value := do
  let s ← get
  let (result, world) := x.run.run s.world
  set { s with world }
  match result with
  | .ok v => return v
  | .error e => throw (.raised e)

def call (host : Host) (c : Compiled) (this : Value) (args : List Value) : Action Value :=
  perform (c.call host this args)

def callAccess (host : Host) : Compiled.Access → List Value → Action Value
  | .itself c, args => call host c (args.headD .null) args.tail
  | .bound c this, args => call host c this args

/-- Calls a method of an object whose class has a compiled expression under that name. An attribute of the object itself
comes first. -/
def callMethod (host : Host) (c : Compiled) (name : String) (r : Ref) (args : List Value) : Action Value := do
  match ((← get).world.object r).attributes.lookup name with
  | some f => perform (Run.callValue host f args)
  | none => callAccess host (c.access (some (.object r))) args

end Service

end NullSafe
