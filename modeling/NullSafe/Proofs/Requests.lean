import NullSafe.Proofs.Mappings
import NullSafe.Proofs.Simulation
import NullSafe.Service

/-! # What requests do to a service

A request is answered from the cache, or it is compiled and the answer is remembered, or it fails. Each case
says what the service is afterwards.
-/

namespace NullSafe

def Action.outcome {α : Type} (x : Action α) (s : Service) : Except Failure α × Service := x.run.run s

namespace Action

variable {α β : Type}

@[simp] theorem outcome_pure (a : α) (s : Service) : (pure a : Action α).outcome s = (.ok a, s) := rfl

@[simp] theorem outcome_throw (f : Failure) (s : Service) : (throw f : Action α).outcome s = (.error f, s) := rfl

@[simp] theorem outcome_get (s : Service) : (get : Action Service).outcome s = (.ok s, s) := rfl

@[simp] theorem outcome_set (s t : Service) : (set t : Action PUnit).outcome s = (.ok ⟨⟩, t) := rfl

@[simp] theorem outcome_modify (g : Service → Service) (s : Service) :
    (modify g : Action PUnit).outcome s = (.ok ⟨⟩, g s) := rfl

theorem outcome_bind (x : Action α) (k : α → Action β) (s : Service) :
    (x >>= k).outcome s = match x.outcome s with
      | (.ok a, s') => (k a).outcome s'
      | (.error f, s') => (.error f, s') := by
  rcases hx : x.outcome s with ⟨f | a, s'⟩
  · exact run_bind_of_error hx k
  · exact run_bind_of_ok hx k

end Action

open NullSafe.Action

namespace Service

theorem outcome_ofWorld {α : Type} (f : World → Except Raised α) (s : Service) :
    (ofWorld f).outcome s = match f s.world with
      | .ok a => (.ok a, s)
      | .error e => (.error (.raised e), s) := by
  rw [ofWorld, outcome_bind, outcome_get]
  dsimp only
  cases f s.world <;> rfl

theorem outcome_newMapping (entries : Entries) (s : Service) :
    (newMapping entries).outcome s = (.ok s.world.dicts.size, { s with world := (s.world.newDict entries).2 }) := rfl

theorem outcome_inContext {α : Type} (r : Request) (x : Action α) (s : Service) :
    (inContext r x).outcome s = ((x.outcome (s.enterRequest r)).1, (x.outcome (s.enterRequest r)).2.leaveRequest) := rfl

/-- Whether a request that is answered from the cache gives other globals or formatters than the answer is
bound to. -/
def stale (w : World) (x : Compiled) (globals formatters : Value) : Except Raised Bool := do
  let oldGlobals ← staleGlobals w x globals
  let oldFormatters ← staleFormatters w x formatters
  return oldGlobals || oldFormatters

def reportReuse (s : Service) (x : Compiled) (stale : Bool) : Service :=
  (if stale then s.warnStale x else s).report 10 "cache hit"
    [("event", .str "expr.cache.hit"), ("expression", .str x.request.expression)]

theorem outcome_reuse (x : Compiled) (globals formatters : Value) (s : Service) :
    (reuse x globals formatters).outcome s = match stale s.world x globals formatters with
      | .ok b => (.ok x, s.reportReuse x b)
      | .error e => (.error (.raised e), s) := by
  rw [reuse, outcome_bind, outcome_ofWorld, stale]
  rcases staleGlobals s.world x globals with e | oldGlobals
  · rfl
  dsimp only
  rw [outcome_bind, outcome_ofWorld]
  rcases staleFormatters s.world x formatters with e | oldFormatters
  · rfl
  cases oldGlobals <;> cases oldFormatters <;> rfl

theorem mergedGlobals_of_hashable {w : World} {d : Ref} (h : ∀ e ∈ w.dict d, w.hashable e.1 = true)
    (registry : Registry) : ∃ entries, mergedGlobals w registry (.dict d) = .ok entries := by
  unfold mergedGlobals
  dsimp only
  split
  · exact World.updated_of_hashable h _
  · exact ⟨_, rfl⟩

/-- The globals for a request and the function compiled with them, or what stops that. -/
def prepare (s : Service) (c : Compiler) (r : Request) (globals : Value) :
    Except Failure (List (Value × Value) × Generated) :=
  match mergedGlobals s.world (s.registryAt c.registry) globals with
  | .error e => .error (.raised e)
  | .ok entries =>
    match Compile.run c.config.functionName (entryNames entries) r with
    | .error stop => .error (.stopped stop)
    | .ok generated => .ok (entries, generated)

theorem run_of_prepare {s : Service} {c : Compiler} {r : Request} {globals : Value}
    {entries : Entries} {generated : Generated}
    (h : s.prepare c r globals = .ok (entries, generated)) :
    mergedGlobals s.world (s.registryAt c.registry) globals = .ok entries ∧
      Compile.run c.config.functionName (entryNames entries) r = .ok generated := by
  unfold prepare at h
  split at h
  · cases h
  · rename_i hmerged
    split at h
    · cases h
    · rename_i hrun
      cases h
      exact ⟨hmerged, hrun⟩

end Service

/-- The world with the mappings of a new compiled expression, and the formatters it is bound to. -/
def World.bind (w : World) (entries : List (Value × Value)) (formatters : Value) : Value × World :=
  let w := (w.newDict entries).2
  if formatters = .null then w.newDict [] else (formatters, w)

theorem World.size_dicts_bind (w : World) (entries : Entries) (formatters : Value) :
    w.dicts.size < (w.bind entries formatters).2.dicts.size := by
  unfold World.bind
  split <;> simp only [World.newDict, Array.size_push] <;> omega

theorem World.dict_bind (w : World) (entries : Entries) (formatters : Value) :
    (w.bind entries formatters).2.dict w.dicts.size = entries := by
  have hnew : (w.dicts.push entries)[w.dicts.size]? = some entries := Array.getElem?_push_size
  have hkept : ((w.dicts.push entries).push [])[w.dicts.size]? = some entries := by
    rw [Array.getElem?_push, if_neg (by rw [Array.size_push]; exact Nat.ne_of_lt (Nat.lt_succ_self _)), hnew]
  unfold World.bind
  split
  · change ((w.dicts.push entries).push [])[w.dicts.size]?.getD [] = entries
    rw [hkept, Option.getD_some]
  · change (w.dicts.push entries)[w.dicts.size]?.getD [] = entries
    rw [hnew, Option.getD_some]

namespace Service

variable {s : Service} {r : Request} {globals : Value} {c : Compiler} {f : Failure} {i : Nat}

theorem outcome_compileNew_ok {entries : Entries} {generated : Generated}
    (h : s.prepare c r globals = .ok (entries, generated)) (formatters : Value) :
    (compileNew c r globals formatters).outcome s =
      (.ok ⟨r, generated.program, generated.source, s.world.dicts.size, (s.world.bind entries formatters).1⟩,
        { s with world := (s.world.bind entries formatters).2 }.reportCompiled c.config r generated.source) := by
  obtain ⟨hmerged, hrun⟩ := run_of_prepare h
  simp only [compileNew, outcome_bind, outcome_get, outcome_ofWorld, hmerged, hrun, outcome_newMapping]
  by_cases hf : formatters = .null
  · simp only [hf, if_true, World.bind]
    rfl
  · simp only [hf, if_false, World.bind]
    rfl

def reportFailure (s : Service) : Failure → Service
  | .stopped stop => s.reportStop stop
  | _ => s

theorem reportFailure_eq (s : Service) (f : Failure) :
    s.reportFailure f = { s with log := (s.reportFailure f).log } := by
  rcases f with f | stop | f | e
  · rfl
  · cases stop <;> rfl
  · rfl
  · rfl

theorem outcome_compileNew_failed (h : s.prepare c r globals = .error f) (formatters : Value) :
    (compileNew c r globals formatters).outcome s = (.error f, s.reportFailure f) := by
  unfold prepare at h
  split at h
  · rename_i e hmerged
    cases h
    simp only [compileNew, outcome_bind, outcome_get, outcome_ofWorld, hmerged]
    rfl
  rename_i hmerged
  split at h
  · rename_i stop hrun
    cases h
    simp only [compileNew, outcome_bind, outcome_get, outcome_ofWorld, hmerged, hrun,
      outcome_modify, outcome_throw]
    rfl
  · cases h

theorem outcome_compileNew_error (h : s.prepare c r globals = .error f) (formatters : Value) :
    ∃ log, (compileNew c r globals formatters).outcome s = (.error f, { s with log }) :=
  ⟨(s.reportFailure f).log, by rw [outcome_compileNew_failed h, ← reportFailure_eq]⟩

theorem outcome_compile_cached {x : Compiled}
    (hx : (s.compilerAt i).cached? r = some x) (globals formatters : Value) :
    (compile i r globals formatters).outcome s = match stale s.world x globals formatters with
      | .ok b => (.ok x, s.reportReuse x b)
      | .error e => (.error (.raised e), s) := by
  rw [compile, outcome_bind, outcome_get]
  dsimp only
  rw [hx]
  exact outcome_reuse x globals formatters s

theorem outcome_compile_missing
    (hx : (s.compilerAt i).cached? r = none) (globals formatters : Value) :
    (compile i r globals formatters).outcome s =
      match (compileNew (s.compilerAt i) r globals formatters).outcome (s.enterRequest r) with
      | (.ok x, s') => (.ok x, s'.leaveRequest.setCompiler i ((s.compilerAt i).remember r x))
      | (.error f, s') => (.error f, s'.leaveRequest) := by
  rw [compile, outcome_bind, outcome_get]
  dsimp only
  rw [hx]
  dsimp only
  rw [outcome_bind, outcome_inContext]
  rcases (compileNew (s.compilerAt i) r globals formatters).outcome (s.enterRequest r) with ⟨f | x, s'⟩ <;> rfl

theorem outcome_compile_failed
    (hx : (s.compilerAt i).cached? r = none) (hp : s.prepare (s.compilerAt i) r globals = .error f)
    (formatters : Value) :
    (compile i r globals formatters).outcome s = (.error f, ((s.enterRequest r).reportFailure f).leaveRequest) := by
  have hprepare : (s.enterRequest r).prepare (s.compilerAt i) r globals = .error f := hp
  rw [outcome_compile_missing hx, outcome_compileNew_failed hprepare]

theorem outcome_compile_ok
    {p : Entries × Generated} (hx : (s.compilerAt i).cached? r = none)
    (hp : s.prepare (s.compilerAt i) r globals = .ok p) (formatters : Value) :
    (compile i r globals formatters).outcome s =
      let x : Compiled := ⟨r, p.2.program, p.2.source, s.world.dicts.size, (s.world.bind p.1 formatters).1⟩
      (.ok x, ({ s.enterRequest r with world := (s.world.bind p.1 formatters).2 }.reportCompiled
        (s.compilerAt i).config r p.2.source).leaveRequest.setCompiler i ((s.compilerAt i).remember r x)) := by
  have hprepare : (s.enterRequest r).prepare (s.compilerAt i) r globals = .ok (p.1, p.2) := hp
  rw [outcome_compile_missing hx, outcome_compileNew_ok hprepare]
  rfl

/-- What answering a request can do. -/
inductive Answers (i : Nat) (r : Request) (globals formatters : Value) (s : Service) :
    Except Failure Compiled × Service → Prop where
  /-- The answer is in the cache. -/
  | reused {x : Compiled} {b : Bool} (hx : (s.compilerAt i).cached? r = some x)
      (hb : stale s.world x globals formatters = .ok b) :
      Answers i r globals formatters s (.ok x, s.reportReuse x b)
  /-- The answer is in the cache, but what is given cannot be compared with what it is bound to. -/
  | incomparable {x : Compiled} {e : Raised} (hx : (s.compilerAt i).cached? r = some x)
      (he : stale s.world x globals formatters = .error e) :
      Answers i r globals formatters s (.error (.raised e), s)
  /-- The request is compiled and the answer is remembered. -/
  | compiled {entries : List (Value × Value)} {generated : Generated} {x : Compiled} {s' : Service}
      (hx : (s.compilerAt i).cached? r = none)
      (hp : s.prepare (s.compilerAt i) r globals = .ok (entries, generated))
      (hx' : x = ⟨r, generated.program, generated.source, s.world.dicts.size, (s.world.bind entries formatters).1⟩)
      (hworld : s'.world = ((s.world.bind entries formatters).2.newList (r.arguments.map .str)).2)
      (hregistries : s'.registries = s.registries)
      (hcompilers : s'.compilers = s.compilers.setIfInBounds i ((s.compilerAt i).remember r x)) :
      Answers i r globals formatters s (.ok x, s')
  /-- The request cannot be compiled. -/
  | failed {f : Failure} {log : Log} (hx : (s.compilerAt i).cached? r = none)
      (hp : s.prepare (s.compilerAt i) r globals = .error f) :
      Answers i r globals formatters s (.error f, { s with log })

theorem answers_compile (i : Nat) (r : Request) (globals formatters : Value) (s : Service) :
    Answers i r globals formatters s ((compile i r globals formatters).outcome s) := by
  rcases hx : (s.compilerAt i).cached? r with _ | x
  · rw [outcome_compile_missing hx]
    have hprepare : (s.enterRequest r).prepare (s.compilerAt i) r globals = s.prepare (s.compilerAt i) r globals :=
      rfl
    rcases hp : s.prepare (s.compilerAt i) r globals with f | ⟨entries, generated⟩
    · obtain ⟨log, hout⟩ := outcome_compileNew_error (hprepare.trans hp) formatters
      rw [hout]
      exact .failed hx hp
    · rw [outcome_compileNew_ok (hprepare.trans hp)]
      exact .compiled hx hp rfl rfl rfl rfl
  · rw [outcome_compile_cached hx]
    rcases hb : stale s.world x globals formatters with e | b
    · exact .incomparable hx hb
    · exact .reused hx hb

def requestOf (w : World) (setter : Bool) (expression : Value) (arguments : List Value) :
    Except Request.Fault Request := do
  let r ← Request.ofValues expression (w.spreadArguments arguments) false
  if setter then r.toSetter else return r

theorem outcome_request (expression : Value) (arguments : List Value) (s : Service) :
    (request expression arguments).outcome s =
      match Request.ofValues expression (s.world.spreadArguments arguments) false with
      | .ok r => (.ok r, s)
      | .error f => (.error (.request f), s) := by
  rw [request, outcome_bind, outcome_get]
  dsimp only
  rcases Request.ofValues expression (s.world.spreadArguments arguments) false with f | r <;> rfl

def ask (i : Nat) (setter : Bool) (expression globals formatters : Value) (arguments : List Value) : Action Compiled :=
  if setter then parseSetter i expression globals formatters arguments
  else parse i expression globals formatters arguments

theorem outcome_ask (i : Nat) (setter : Bool) (expression globals formatters : Value) (arguments : List Value)
    (s : Service) :
    (ask i setter expression globals formatters arguments).outcome s =
      match requestOf s.world setter expression arguments with
      | .ok r => (compile i r globals formatters).outcome s
      | .error f => (.error (.request f), s) := by
  cases setter with
  | false =>
    change (parse i expression globals formatters arguments).outcome s = _
    rw [parse, outcome_bind, outcome_request, requestOf]
    rcases Request.ofValues expression (s.world.spreadArguments arguments) false with f | r <;> rfl
  | true =>
    change (parseSetter i expression globals formatters arguments).outcome s = _
    rw [parseSetter, outcome_bind, outcome_request, requestOf]
    rcases Request.ofValues expression (s.world.spreadArguments arguments) false with f | r
    · rfl
    dsimp only
    change _ = match r.toSetter with
      | .ok r => (compile i r globals formatters).outcome s
      | .error f => (.error (.request f), s)
    rcases r.toSetter with f | r' <;> rfl

end Service

end NullSafe
