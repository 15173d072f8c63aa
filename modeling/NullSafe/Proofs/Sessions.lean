import NullSafe.Proofs.FunctionNames
import NullSafe.Proofs.Reuse

/-! # Sessions

A session is what callers do with a service, one deed after the other, and what they are told. They are not told what
is in the log or how functions are named. So a session goes on in the same way after whatever was written before it,
and whatever the names of functions are, as long as each is as good as the other.
-/

namespace NullSafe

/-- The log with what another one has written put before what it has written itself. -/
def Log.after (l earlier : Log) : Log :=
  { l with
    entries := earlier.entries ++ l.entries
    out := earlier.out ++ l.out
    err := earlier.err ++ l.err }

def Log.emptied (l : Log) : Log := { l with entries := [], out := "", err := "" }

theorem Log.emptied_after (l : Log) : l.emptied.after l = l := by
  simp [Log.after, Log.emptied]

namespace Log

variable (w : World) (l earlier : Log)

theorem deliver_after (r : Record) (h : Handler) :
    deliver w r (l.after earlier) h = (deliver w r l h).after earlier := by
  unfold deliver
  split
  · rw [show (l.after earlier).contextFields = l.contextFields from rfl]
    split
    · split <;> simp [Log.after, String.append_assoc]
    · rfl
  · rfl

theorem foldl_deliver_after (r : Record) (hs : List Handler) :
    hs.foldl (deliver w r) (l.after earlier) = (hs.foldl (deliver w r) l).after earlier := by
  induction hs generalizing l with
  | nil => rfl
  | cons h hs ih => rw [List.foldl_cons, List.foldl_cons, deliver_after, ih]

theorem emit_after (r : Record) : (l.after earlier).emit w r = (l.emit w r).after earlier := by
  unfold emit
  dsimp only
  rw [← foldl_deliver_after]
  simp [Log.after, contextFields, entryOf]

namespace Writing

/-- Writing that takes no notice of what was written before. -/
def Onward {α : Type} (x : Writing α) : Prop :=
  ∀ l earlier : Log, x.outcome (l.after earlier) = ((x.outcome l).1, (x.outcome l).2.after earlier)

variable {α β : Type}

theorem onward_pure (a : α) : Onward (pure a) := fun _ _ => rfl

theorem onward_throw (e : Raised) : Onward (throw e : Writing α) := fun _ _ => rfl

theorem onward_lift (x : Except Raised α) : Onward (liftM x : Writing α) := fun l earlier => by
  rw [outcome_lift, outcome_lift]

theorem Onward.bind {x : Writing α} {k : α → Writing β} (hx : Onward x) (hk : ∀ a, Onward (k a)) :
    Onward (x >>= k) := by
  intro l earlier
  rw [outcome_bind, outcome_bind, hx l earlier]
  rcases x.outcome l with ⟨e | a, l'⟩
  · rfl
  · exact hk a l' earlier

theorem onward_ite {p : Prop} [Decidable p] {x y : Writing α} (hx : Onward x) (hy : Onward y) :
    Onward (if p then x else y) := by
  split
  · exact hx
  · exact hy

theorem onward_get_bind {k : Log → Writing β} (hk : ∀ l earlier : Log,
    (k (l.after earlier)).outcome (l.after earlier) = (((k l).outcome l).1, ((k l).outcome l).2.after earlier)) :
    Onward (get >>= k) := by
  intro l earlier
  rw [outcome_bind, outcome_bind, outcome_get, outcome_get]
  exact hk l earlier

end Writing

open Writing

theorem onward_logEnabled (logger : String) (level : Level) (msg : Value) (x : Extras) :
    Onward (logEnabled w logger level msg x) := by
  unfold logEnabled
  refine onward_ite (onward_throw _) ?_
  refine onward_ite (onward_throw _) ?_
  refine onward_get_bind fun l earlier => ?_
  change (Except.ok _, (l.after earlier).emit w _) = (Except.ok _, (l.emit w _).after earlier)
  rw [emit_after]
  rfl

theorem onward_logAt (logger : String) (level msg : Value) (x : Extras) : Onward (logAt w logger level msg x) := by
  refine onward_get_bind fun l earlier => ?_
  rw [show (l.after earlier).enabledLevel level = l.enabledLevel level from rfl]
  rcases l.enabledLevel level with e | _ | level
  · rfl
  · rfl
  · exact onward_logEnabled w logger level msg x l earlier

theorem onward_log (logger level msg : Value) (x : Extras) : Onward (log w logger level msg x) :=
  (onward_lift _).bind fun logger => onward_logAt w logger level msg x

theorem onward_warnOnce (logger code msg : Value) (x : Extras) : Onward (warnOnce w logger code msg x) := by
  refine (onward_lift _).bind fun logger => ?_
  refine onward_ite (onward_throw _) ?_
  refine onward_get_bind fun l earlier => ?_
  rw [show (l.after earlier).warned = l.warned from rfl]
  refine (onward_lift (w.lookup (l.warned.map (·, .null)) code)).bind (fun found => ?_) l earlier
  refine onward_ite (onward_pure _) ?_
  refine Onward.bind (fun _ _ => rfl) fun _ => ?_
  exact onward_ite (onward_throw _) (onward_logAt w _ _ _ _)

end Log

/-- What callers are not told of a service: what was written before, and the names of functions. -/
structure Disguise where
  earlier : Log
  names : Renaming

def Service.disguised (s : Service) (δ : Disguise) : Service :=
  { s with
    log := s.log.after δ.earlier
    compilers := s.compilers.map (·.renamed δ.names) }

open NullSafe.Action

namespace Service

variable (δ : Disguise) (s : Service)

theorem compilerAt_disguised (i : Nat) : (s.disguised δ).compilerAt i = (s.compilerAt i).renamed δ.names := by
  unfold compilerAt disguised
  dsimp only
  rw [Array.getElem?_map]
  cases s.compilers[i]? with
  | some c => rfl
  | none => simp [Compiler.renamed, δ.names.usual]

theorem setCompiler_disguised (i : Nat) (c : Compiler) :
    (s.disguised δ).setCompiler i (c.renamed δ.names) = (s.setCompiler i c).disguised δ := by
  simp [setCompiler, disguised, Array.map_setIfInBounds]

theorem write_disguised {x : Log.Writing Unit} (hx : x.Onward) : (s.disguised δ).write x = (s.write x).disguised δ := by
  have hlog : (x.outcome (s.log.after δ.earlier)).2 = (x.outcome s.log).2.after δ.earlier := by
    rw [hx s.log δ.earlier]
  exact congrArg (fun log : Log => { s.disguised δ with log }) hlog

theorem report_disguised (level : Int) (msg : String) (fields : Log.Fields) :
    (s.disguised δ).report level msg fields = (s.report level msg fields).disguised δ :=
  write_disguised δ s (Log.onward_log s.world _ _ _ _)

theorem reportReuse_disguised (x : Compiled) (stale : Bool) :
    (s.disguised δ).reportReuse (x.renamed δ.names) stale = (s.reportReuse x stale).disguised δ := by
  have hwarn : (s.disguised δ).warnStale (x.renamed δ.names) = (s.warnStale x).disguised δ :=
    write_disguised δ s (Log.onward_warnOnce s.world _ _ _ _)
  unfold reportReuse
  cases stale with
  | false => exact report_disguised δ s _ _ _
  | true =>
    rw [if_pos rfl, if_pos rfl, hwarn]
    exact report_disguised δ _ _ _ _

theorem enterRequest_disguised (r : Request) : (s.disguised δ).enterRequest r = (s.enterRequest r).disguised δ := rfl

theorem leaveRequest_disguised : (s.disguised δ).leaveRequest = s.leaveRequest.disguised δ := by
  have hleave : (s.log.after δ.earlier).leave = s.log.leave.after δ.earlier := by
    unfold Log.leave
    rw [show (s.log.after δ.earlier).saved = s.log.saved from rfl]
    cases s.log.saved <;> rfl
  exact congrArg (fun log : Log => { s.disguised δ with log }) hleave

theorem reportFailure_disguised (f : Failure) : (s.disguised δ).reportFailure f = (s.reportFailure f).disguised δ := by
  rcases f with f | stop | f | e
  · rfl
  · cases stop with
    | rejected r => exact report_disguised δ s _ _ _
    | badEscape | oversizedNumber | lostName => rfl
  · rfl
  · rfl

theorem reportCompiled_disguised (c : Compiler) (r : Request) (source : String) :
    (s.disguised δ).reportCompiled (c.renamed δ.names).config r source =
      (s.reportCompiled c.config r source).disguised δ :=
  report_disguised δ { s with world := (s.world.newList (r.arguments.map .str)).2 } _ _ _

theorem cached?_renamed (ρ : Renaming) (c : Compiler) (r : Request) :
    (c.renamed ρ).cached? r = (c.cached? r).map (·.renamed ρ) := by
  have hlookup : ∀ cache : List (Request × Compiled),
      (cache.map fun e => (e.1, e.2.renamed ρ)).lookup r = (cache.lookup r).map (·.renamed ρ) := by
    intro cache
    induction cache with
    | nil => rfl
    | cons e cache ih =>
      rw [List.map_cons, List.lookup_cons, List.lookup_cons, ih]
      cases r == e.1 <;> rfl
  unfold Compiler.cached?
  rw [show (c.renamed ρ).config.cacheEnabled = c.config.cacheEnabled from rfl]
  split
  · exact hlookup c.cache
  · rfl

theorem remember_renamed (ρ : Renaming) (c : Compiler) (r : Request) (x : Compiled) :
    (c.renamed ρ).remember r (x.renamed ρ) = (c.remember r x).renamed ρ := by
  unfold Compiler.remember
  rw [show (c.renamed ρ).config.cacheEnabled = c.config.cacheEnabled from rfl]
  split
  · simp [Compiler.renamed]
  · rfl

theorem prepare_disguised (c : Compiler) (r : Request) (globals : Value) :
    (s.disguised δ).prepare (c.renamed δ.names) r globals =
      (s.prepare c r globals).map fun p => (p.1, ⟨p.2.program.renamed δ.names, p.2.source⟩) := by
  unfold prepare
  rw [show mergedGlobals (s.disguised δ).world ((s.disguised δ).registryAt (c.renamed δ.names).registry) globals =
    mergedGlobals s.world (s.registryAt c.registry) globals from rfl]
  cases mergedGlobals s.world (s.registryAt c.registry) globals with
  | error e => rfl
  | ok entries =>
    dsimp only
    rw [show (c.renamed δ.names).config.functionName = δ.names.name c.config.functionName from rfl, Compile.run_renamed]
    cases Compile.run c.config.functionName (entryNames entries) r <;> rfl

/-- An action that does the same in a disguised service, and whose result then differs as is said. -/
def Heedless {α : Type} (δ : Disguise) (f : α → α) (x : Action α) : Prop :=
  ∀ s : Service, x.outcome (s.disguised δ) = ((x.outcome s).1.map f, (x.outcome s).2.disguised δ)

theorem heedless_compile (i : Nat) (r : Request) (globals formatters : Value) :
    Heedless δ (·.renamed δ.names) (compile i r globals formatters) := by
  intro s
  have hcached := cached?_renamed δ.names (s.compilerAt i) r
  cases hx : (s.compilerAt i).cached? r with
  | some x =>
    rw [hx, ← compilerAt_disguised] at hcached
    rw [outcome_compile_cached hcached, outcome_compile_cached hx]
    rw [show stale (s.disguised δ).world (x.renamed δ.names) globals formatters =
      stale s.world x globals formatters from rfl]
    cases stale s.world x globals formatters with
    | error e => rfl
    | ok b => exact congrArg (Prod.mk _) (reportReuse_disguised δ s x b)
  | none =>
    rw [hx, ← compilerAt_disguised] at hcached
    have hprepare := prepare_disguised δ s (s.compilerAt i) r globals
    rw [← compilerAt_disguised] at hprepare
    cases hp : s.prepare (s.compilerAt i) r globals with
    | error f =>
      rw [hp] at hprepare
      rw [outcome_compile_failed hx hp, outcome_compile_failed hcached hprepare, enterRequest_disguised,
        reportFailure_disguised, leaveRequest_disguised]
      rfl
    | ok p =>
      obtain ⟨entries, generated⟩ := p
      rw [hp] at hprepare
      rw [outcome_compile_ok hx hp, outcome_compile_ok hcached hprepare, compilerAt_disguised]
      let s' := { s.enterRequest r with world := (s.world.bind entries formatters).2 }
      let x : Compiled := ⟨r, generated.program, generated.source, s.world.dicts.size,
        (s.world.bind entries formatters).1⟩
      change (Except.ok (x.renamed δ.names),
        ((s'.disguised δ).reportCompiled ((s.compilerAt i).renamed δ.names).config r
          generated.source).leaveRequest.setCompiler i
            (((s.compilerAt i).renamed δ.names).remember r (x.renamed δ.names))) = _
      rw [reportCompiled_disguised, leaveRequest_disguised, remember_renamed, setCompiler_disguised]
      rfl

theorem heedless_ask (i : Nat) (setter : Bool) (expression globals formatters : Value) (arguments : List Value) :
    Heedless δ (·.renamed δ.names) (ask i setter expression globals formatters arguments) := by
  intro s
  rw [outcome_ask, outcome_ask]
  rw [show (s.disguised δ).world = s.world from rfl]
  cases requestOf s.world setter expression arguments with
  | error f => rfl
  | ok r => exact heedless_compile δ i r globals formatters s

theorem outcome_call (host : Host) (x : Compiled) (this : Value) (args : List Value) (s : Service) :
    (call host x this args).outcome s =
      (((x.call host this args).outcome s.world).1.mapError .raised,
        { s with world := ((x.call host this args).outcome s.world).2 }) := by
  rw [call, perform, outcome_bind, outcome_get]
  dsimp only
  rw [show (x.call host this args).run.run s.world = (x.call host this args).outcome s.world from rfl]
  rcases (x.call host this args).outcome s.world with ⟨e | v, w⟩ <;> rfl

theorem outcome_call_disguised (host : Host) (x : Compiled) (this : Value) (args : List Value) (s : Service) :
    (call host (x.renamed δ.names) this args).outcome (s.disguised δ) =
      (((call host x this args).outcome s).1, ((call host x this args).outcome s).2.disguised δ) := by
  rw [outcome_call, outcome_call, Compiled.call_renamed]
  rfl

theorem heedless_clearCache (i : Nat) : Heedless δ id (clearCache i) := by
  intro s
  have hforget : ((s.disguised δ).compilerAt i).forget = (s.compilerAt i).forget.renamed δ.names := by
    rw [compilerAt_disguised]
    rfl
  rw [clearCache, outcome_modify, outcome_modify, hforget, setCompiler_disguised]
  rfl

theorem heedless_changeRegistry (k : Nat) (f : Registry → World → Except Registry.Fault Registry) :
    Heedless δ id (changeRegistry k f) := by
  intro s
  unfold changeRegistry
  simp only [outcome_bind, outcome_get]
  rw [show f ((s.disguised δ).registryAt k) (s.disguised δ).world = f (s.registryAt k) s.world from rfl]
  cases f (s.registryAt k) s.world <;> rfl

theorem heedless_updateRegistry (k : Nat) (values : Value) : Heedless δ id (updateRegistry k values) := by
  intro s
  unfold updateRegistry
  simp only [outcome_bind, outcome_get, outcome_set]
  rw [show ((s.disguised δ).registryAt k).update (s.disguised δ).world values =
    (s.registryAt k).update s.world values from rfl]
  cases ((s.registryAt k).update s.world values).2 <;> rfl

theorem heedless_askRegistry {α : Type} (k : Nat) (f : Registry → World → Except Registry.Fault α) :
    Heedless δ id (askRegistry k f) := by
  intro s
  unfold askRegistry
  simp only [outcome_bind, outcome_get]
  rw [show f ((s.disguised δ).registryAt k) (s.disguised δ).world = f (s.registryAt k) s.world from rfl]
  cases f (s.registryAt k) s.world <;> rfl

inductive Deed where
  | ask (place : Nat) (setter : Bool) (expression globals formatters : Value) (arguments : List Value)
  /-- Calls one of the expressions that were compiled, counted from the first. -/
  | call (k : Nat) (this : Value) (args : List Value)
  | clearCache (place : Nat)
  | cacheSize (place : Nat)
  | register (registry : Nat) (name v : Value)
  | update (registry : Nat) (values : Value)
  | unregister (registry : Nat) (name : Value)
  | find (registry : Nat) (name : Value)
  | names (registry : Nat)
  /-- Values are made and changed. -/
  | evolve (change : World → World)

inductive Answer where
  | compiled (r : Request) (source : String) (globals : Ref) (formatters : Value)
  | value (v : Value)
  | size (n : Nat)
  | names (ns : List String)
  | done

/-- Does a deed, with the compiled expressions that the caller has. Gives the answer, and those the caller has then. -/
def Deed.perform (host : Host) (held : List Compiled) : Deed → Action (Answer × List Compiled)
  | ask i setter expression globals formatters arguments => do
    let x ← Service.ask i setter expression globals formatters arguments
    return (.compiled x.request x.source x.globals x.formatters, held ++ [x])
  | call k this args =>
    match held[k]? with
    | some x => do return (.value (← Service.call host x this args), held)
    | none => return (.done, held)
  | clearCache i => do
    Service.clearCache i
    return (.done, held)
  | cacheSize i => do return (.size ((← get).compilerAt i).cacheSize, held)
  | register k name v => do
    changeRegistry k fun r w => r.register w name v
    return (.done, held)
  | update k values => do
    updateRegistry k values
    return (.done, held)
  | unregister k name => do
    changeRegistry k fun r w => r.unregister w name
    return (.done, held)
  | find k name => do return (.value (← askRegistry k fun r w => r.get w name), held)
  | names k => do return (.names (← askRegistry k fun r _ => .ok r.names), held)
  | evolve change => do
    modify fun s => { s with world := change s.world }
    return (.done, held)

def session (host : Host) : List Deed → List Compiled → Service → List (Except Failure Answer) × Service
  | [], _, s => ([], s)
  | deed :: deeds, held, s =>
    match (deed.perform host held).outcome s with
    | (.ok (answer, held'), s') => (.ok answer :: (session host deeds held' s').1, (session host deeds held' s').2)
    | (.error f, s') => (.error f :: (session host deeds held s').1, (session host deeds held s').2)

section Performing

variable {δ} {host : Host} {held : List Compiled} {α β : Type}

theorem Heedless.outcome_answer {f : α → α} {x : Action α} (hx : Heedless δ f x) {k : β → β}
    {g g' : α → β} (hg : ∀ a, g' (f a) = k (g a)) (s : Service) :
    (x >>= fun a => pure (g' a)).outcome (s.disguised δ) =
      (((x >>= fun a => pure (g a)).outcome s).1.map k, ((x >>= fun a => pure (g a)).outcome s).2.disguised δ) := by
  rw [outcome_bind, outcome_bind, hx s]
  rcases x.outcome s with ⟨e | a, s'⟩
  · rfl
  · exact congrArg (fun b => (Except.ok b, s'.disguised δ)) (hg a)

theorem outcome_perform_disguised (deed : Deed) (s : Service) :
    (deed.perform host (held.map (·.renamed δ.names))).outcome (s.disguised δ) =
      (((deed.perform host held).outcome s).1.map fun p => (p.1, p.2.map (·.renamed δ.names)),
        ((deed.perform host held).outcome s).2.disguised δ) := by
  cases deed with
  | ask i setter expression globals formatters arguments =>
    refine (heedless_ask δ i setter expression globals formatters arguments).outcome_answer (fun x => ?_) s
    simp only [List.map_append]
    rfl
  | call k this args =>
    simp only [Deed.perform, List.getElem?_map]
    cases held[k]? with
    | none => rfl
    | some x =>
      dsimp only [Option.map_some]
      rw [outcome_bind, outcome_bind, outcome_call_disguised]
      rcases (call host x this args).outcome s with ⟨e | v, s'⟩ <;> rfl
  | clearCache i => exact (heedless_clearCache δ i).outcome_answer (fun _ => by rfl) s
  | cacheSize i =>
    have hsize : ((s.disguised δ).compilerAt i).cacheSize = (s.compilerAt i).cacheSize := by
      rw [compilerAt_disguised]
      exact List.length_map _
    change (Except.ok (Answer.size ((s.disguised δ).compilerAt i).cacheSize, _), _) = _
    rw [hsize]
    rfl
  | register k name v => exact (heedless_changeRegistry δ k _).outcome_answer (fun _ => by rfl) s
  | update k values => exact (heedless_updateRegistry δ k values).outcome_answer (fun _ => by rfl) s
  | unregister k name => exact (heedless_changeRegistry δ k _).outcome_answer (fun _ => by rfl) s
  | find k name => exact (heedless_askRegistry δ k _).outcome_answer (fun _ => by rfl) s
  | names k => exact (heedless_askRegistry δ k _).outcome_answer (fun _ => by rfl) s
  | evolve change => rfl

/-- A session goes on in the same way in a disguised service. -/
theorem session_disguised (δ : Disguise) (host : Host) (deeds : List Deed) (held : List Compiled) (s : Service) :
    session host deeds (held.map (·.renamed δ.names)) (s.disguised δ) =
      ((session host deeds held s).1, (session host deeds held s).2.disguised δ) := by
  induction deeds generalizing held s with
  | nil => rfl
  | cons deed deeds ih =>
    unfold session
    rw [outcome_perform_disguised]
    rcases (deed.perform host held).outcome s with ⟨f | ⟨answer, held'⟩, s'⟩
    · dsimp only [Except.map]
      rw [ih]
    · dsimp only [Except.map]
      rw [ih]

end Performing

end Service

end NullSafe
