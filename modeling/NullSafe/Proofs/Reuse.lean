import NullSafe.Proofs.Cache
import NullSafe.Proofs.Language

/-! # Answers from the cache

The cache does not tell requests apart by their globals and formatters. An answer from it that comes without a
warning has the globals that the request gives, as far as they are not missing, and formatters equal to
those that it gives. What a request does not give is not compared.
-/

namespace NullSafe

open Surface Literal List

section Names

namespace Surface.Expr

variable {ι : Type}

mutual

def names : Expr ι → List String
  | .number _ | .literal _ | .constant _ | .this => []
  | .name n => [n]
  | .array items => namesAll items
  | .object entries => namesEntries entries
  | .member target _ => names target
  | .index target key => names target ++ names key
  | .call callee arguments => names callee ++ namesAll arguments
  | .unary _ operand => names operand
  | .binary _ left right => names left ++ names right
  | .logical _ left right => names left ++ names right
  | .conditional test yes no => names test ++ (names yes ++ names no)
  | .assign target value => names target ++ names value

def namesAll : List (Expr ι) → List String
  | [] => []
  | t :: rest => names t ++ namesAll rest

def namesEntries : List (Key ι × Expr ι) → List String
  | [] => []
  | (_, t) :: rest => names t ++ namesEntries rest

end

end Surface.Expr

/-- Two scopes with the same arguments take names for the same. -/
structure Scope.Alike (scope scope' : Scope) (names : List String) : Prop where
  parameter? : scope.parameter? = scope'.parameter?
  classify : ∀ n ∈ names, scope.classify n = scope'.classify n

namespace Scope.Alike

variable {scope scope' : Scope} {ns ms : List String}

theorem left (h : scope.Alike scope' (ns ++ ms)) : scope.Alike scope' ns :=
  ⟨h.parameter?, fun n hn => h.classify n (mem_append_left _ hn)⟩

theorem right (h : scope.Alike scope' (ns ++ ms)) : scope.Alike scope' ms :=
  ⟨h.parameter?, fun n hn => h.classify n (mem_append_right _ hn)⟩

variable {ι : Type}

theorem chain_eq {n : String} (h : scope.Alike scope' [n]) : (scope.chain n : Chain ι) = scope'.chain n := by
  rw [Scope.chain, Scope.chain, h.parameter?, h.classify n (.head _)]

theorem assign_eq {n : String} (h : scope.Alike scope' [n]) (value : Emit (Code ι)) :
    scope.assign n value = scope'.assign n value := by
  rw [Scope.assign, Scope.assign, h.parameter?, h.classify n (.head _)]

mutual

/-- The code of an expression depends on what its names are taken for, and on nothing else of a scope. -/
theorem emitChain_eq : ∀ t : Expr ι, scope.Alike scope' t.names → emitChain scope t = emitChain scope' t
  | .number _, _ => rfl
  | .literal _, _ => rfl
  | .constant _, _ => rfl
  | .this, _ => rfl
  | .name n, h => by rw [emitChain, emitChain, h.chain_eq]
  | .array items, h => by rw [emitChain, emitChain, emitAll_eq items h]
  | .object entries, h => by rw [emitChain, emitChain, emitEntries_eq entries h]
  | .member target name, h => by rw [emitChain, emitChain, emitChain_eq target h]
  | .index target key, h => by rw [emitChain, emitChain, emitChain_eq target h.left, emitChain_eq key h.right]
  | .call callee arguments, h => by
    rw [emitChain, emitChain, emitChain_eq callee h.left, emitAll_eq arguments h.right]
  | .unary op operand, h => by rw [emitChain, emitChain, emitChain_eq operand h]
  | .binary op left right, h => by
    rw [emitChain, emitChain, emitChain_eq left h.left, emitChain_eq right h.right]
  | .logical op left right, h => by
    rw [emitChain, emitChain, emitChain_eq left h.left, emitChain_eq right h.right]
  | .conditional test yes no, h => by
    rw [emitChain, emitChain, emitChain_eq test h.left, emitChain_eq yes h.right.left, emitChain_eq no h.right.right]
  | .assign target value, h => by
    cases target with
    | name n => rw [emitChain, emitChain, emitChain_eq value h.right, h.left.assign_eq]
    | member target name =>
      rw [emitChain, emitChain, emitChain_eq target h.left, emitChain_eq value h.right]
    | index target key =>
      rw [emitChain, emitChain, emitChain_eq target h.left.left, emitChain_eq key h.left.right,
        emitChain_eq value h.right]
    | _ => rfl

theorem emitAll_eq : ∀ ts : List (Expr ι), scope.Alike scope' (Expr.namesAll ts) → emitAll scope ts = emitAll scope' ts
  | [], _ => rfl
  | t :: rest, h => by rw [emitAll, emitAll, emitChain_eq t h.left, emitAll_eq rest h.right]

theorem emitEntries_eq : ∀ es : List (Key ι × Expr ι), scope.Alike scope' (Expr.namesEntries es) →
    emitEntries scope es = emitEntries scope' es
  | [], _ => rfl
  | (k, t) :: rest, h => by rw [emitEntries, emitEntries, emitChain_eq t h.left, emitEntries_eq rest h.right]

end

end Scope.Alike

theorem Scope.alike_ofNames {globals globals' names ns : List String} (h : ∀ n ∈ ns, n ∈ globals ↔ n ∈ globals') :
    (Scope.ofNames globals names).Alike (Scope.ofNames globals' names) ns where
  parameter? := rfl
  classify n hn := by
    have hglobals : globals.contains n = globals'.contains n :=
      Bool.eq_iff_iff.2 (by rw [contains_iff_mem, contains_iff_mem, h n hn])
    unfold Scope.classify
    rw [show (Scope.ofNames globals names).globals.contains n = (Scope.ofNames globals' names).globals.contains n
      from hglobals]
    rfl

/-- The expression of a request uses a bare name. -/
def Request.Mentions (r : Request) (n : String) : Prop :=
  ∃ text t, desugar (isolate r.expression.toList) = .ok text ∧ parse (replaceWords text) = .ok t ∧ n ∈ t.names

theorem generate_eq {scope scope' : Scope} {text : List Char}
    (h : ∀ t, parse (replaceWords text) = .ok t → scope.Alike scope' t.names) :
    generate scope text = generate scope' text := by
  cases ht : parse (replaceWords text) with
  | error f => rw [generate_of_unparsed ht, generate_of_unparsed ht]
  | ok t =>
    have hemit : emit scope t = emit scope' t := by rw [emit, emit, (h t ht).emitChain_eq t]
    rw [generate_of_parse ht, generate_of_parse ht, hemit]

/-- Of the globals, only those that a request mentions matter to its compilation. -/
theorem Compile.run_eq_of_mentions {functionName : String} {globals globals' : List String} {r : Request}
    (h : ∀ n, r.Mentions n → (n ∈ globals ↔ n ∈ globals')) :
    Compile.run functionName globals r = Compile.run functionName globals' r := by
  have hanalyse : Compile.analyse (Scope.ofNames globals r.arguments) (isolate r.expression.toList) =
      Compile.analyse (Scope.ofNames globals' r.arguments) (isolate r.expression.toList) := by
    unfold Compile.analyse
    cases htext : desugar (isolate r.expression.toList) with
    | error f => rfl
    | ok text =>
      dsimp only
      rw [generate_eq fun t ht => Scope.alike_ofNames fun n hn => h n ⟨text, t, htext, ht, hn⟩]
  unfold Compile.run
  dsimp only
  rw [hanalyse]
  rfl

end Names

section Warnings

/-- How writing to a log ends: with a result or an error, and what the log is then. -/
def Log.Writing.outcome {α : Type} (x : Log.Writing α) (l : Log) : Except Raised α × Log := x.run.run l

namespace Log

open Writing

theorem Writing.outcome_bind {α β : Type} (x : Writing α) (k : α → Writing β) (l : Log) :
    (x >>= k).outcome l = match x.outcome l with
      | (.ok a, l') => (k a).outcome l'
      | (.error e, l') => (.error e, l') := by
  rcases hx : x.outcome l with ⟨f | a, l'⟩
  · exact run_bind_of_error hx k
  · exact run_bind_of_ok hx k

theorem Writing.outcome_lift {α : Type} (x : Except Raised α) (l : Log) : (liftM x : Writing α).outcome l = (x, l) := by
  cases x <;> rfl

theorem Writing.outcome_get (l : Log) : (get : Writing Log).outcome l = (.ok l, l) := rfl

theorem Writing.outcome_modify (g : Log → Log) (l : Log) : (modify g : Writing PUnit).outcome l = (.ok ⟨⟩, g l) := rfl

variable (w : World) (l : Log)

theorem exists_foldl_deliver (r : Record) (hs : List Handler) :
    ∃ out err, hs.foldl (deliver w r) l = { l with out, err } := by
  induction hs generalizing l with
  | nil => exact ⟨_, _, rfl⟩
  | cons h hs ih =>
    obtain ⟨out, err, hline⟩ : ∃ out err, deliver w r l h = { l with out, err } := by
      unfold deliver
      split
      · split
        · split <;> exact ⟨_, _, rfl⟩
        · exact ⟨_, _, rfl⟩
      · exact ⟨_, _, rfl⟩
    rw [foldl_cons, hline]
    exact ih _

/-- Logging adds records and lines, and changes nothing else. -/
theorem exists_logAt (logger : String) (level msg : Value) (x : Extras) :
    ∃ entries out err, ((logAt w logger level msg x).outcome l).2 = { l with entries, out, err } := by
  rw [logAt, outcome_bind, outcome_get]
  dsimp only
  split
  · exact ⟨_, _, _, rfl⟩
  · exact ⟨_, _, _, rfl⟩
  unfold logEnabled
  by_cases hlevel : (x.fields.lookup "stacklevel").any (·.number?.isNone) = true
  · rw [if_pos hlevel]
    exact ⟨_, _, _, rfl⟩
  · rw [if_neg hlevel]
    by_cases hclash : (recordFields w x).any (clashes ·.1) = true
    · simp only [hclash]
      exact ⟨_, _, _, rfl⟩
    · simp only [hclash]
      exact ⟨_, exists_foldl_deliver ..⟩

theorem warned_logAt (logger : String) (level msg : Value) (x : Extras) :
    ((logAt w logger level msg x).outcome l).2.warned = l.warned := by
  obtain ⟨_, _, _, h⟩ := exists_logAt w l logger level msg x
  rw [h]

theorem mem_warned_warnOnce (code : String) (msg : Value) {x : Extras}
    (hx : x.hasOne ["logger", "code", "msg"] = false) :
    .str code ∈ ((warnOnce w Service.logger (.str code) msg x).outcome l).2.warned := by
  rw [warnOnce, Service.logger, outcome_bind, outcome_lift]
  dsimp only [loggerName]
  rw [if_neg (by simp [hx]), outcome_bind, outcome_get]
  dsimp only
  rw [outcome_bind, outcome_lift, World.lookup_str]
  dsimp only
  cases hcode : (l.warned.map (·, Value.null)).lookup (.str code) with
  | some v =>
    obtain ⟨before, after, hmap, -⟩ := lookup_eq_some_iff.1 hcode
    have hmem : (Value.str code, v) ∈ l.warned.map (·, Value.null) := by rw [hmap]; simp
    obtain ⟨_, hwarned, ⟨⟩⟩ := mem_map.1 hmem
    exact hwarned
  | none =>
    rw [if_neg (by simp), outcome_bind, outcome_modify]
    dsimp only
    split
    · exact mem_concat_self
    · rw [warned_logAt]
      exact mem_concat_self

end Log

namespace Service

def mismatch (expression : String) : Value := .str ("expr.cache.globals_mismatch:" ++ expression)

theorem warned_report (s : Service) (level : Int) (msg : String) (fields : Log.Fields) :
    (s.report level msg fields).log.warned = s.log.warned :=
  Log.warned_logAt ..

/-- An answer from the cache that comes with a warning leaves its code behind. -/
theorem mem_warned_reportReuse (s : Service) (x : Compiled) :
    mismatch x.request.expression ∈ (s.reportReuse x true).log.warned := by
  rw [reportReuse, warned_report]
  exact Log.mem_warned_warnOnce _ _ _ _ rfl

end Service

end Warnings

namespace Service

section Origins

variable {i : Nat} {c : Compiler} {es : List Event} {s : Service} {r : Request} {x : Compiled}

/-- A step answers a request with an object that it makes. -/
structure Makes (i : Nat) (r : Request) (x : Compiled) (step : Step) (s : Service) : Prop where
  event : (step.take s).1 = .answered i r x
  missing : (s.compilerAt i).cached? r = none
  made : Made (s.compilerAt i).config x (step.take s).2.world

theorem makes_or_answered (h : Recorded i c es s) (hc : c.config.cacheEnabled = true) {step : Step}
    (hevent : (step.take s).1 = .answered i r x) : .answered i r x ∈ es ∨ Makes i r x step s := by
  have htakes := takes_take i step s
  generalize hp : step.take s = p at htakes hevent
  cases htakes with
  | reused hx =>
    cases hevent
    rw [h.cached?_eq hc] at hx
    exact .inl (answered_of_mem_remembered (mem_of_lookup_eq_some hx))
  | compiled hx hr hglobals hmade =>
    cases hevent
    exact .inr ⟨by rw [hp], hx, by rw [hp]; exact hmade⟩
  | cleared => cases hevent
  | aside hanswered => exact absurd hevent (hanswered r x)

/-- Every object that a run answers with was made in it, or was there before. -/
theorem exists_makes (h : Recorded i c es s) (hc : c.config.cacheEnabled = true) {steps : List Step}
    (hmem : .answered i r x ∈ (run steps s).1) :
    .answered i r x ∈ es ∨ ∃ before step after, steps = before ++ step :: after ∧
      Makes i r x step (run before s).2 := by
  induction steps generalizing es s with
  | nil => cases hmem
  | cons step steps ih =>
    have hfirst (hevent : (step.take s).1 = .answered i r x) : .answered i r x ∈ es ∨
        ∃ before step' after, step :: steps = before ++ step' :: after ∧ Makes i r x step' (run before s).2 :=
      (makes_or_answered h hc hevent).imp_right fun hmakes => ⟨[], step, steps, rfl, hmakes⟩
    rcases mem_cons.1 hmem with hevent | hrest
    · exact hfirst hevent.symm
    · rcases ih (h.step hc (takes_take i step s)) hrest with hold | ⟨before, step', after, rfl, hmakes⟩
      · rcases mem_append.1 hold with hold | hevent
        · exact .inl hold
        · exact hfirst (mem_singleton.1 hevent).symm
      · exact .inr ⟨step :: before, step', after, rfl, hmakes⟩

end Origins

section Comparing

variable {w : World} {x : Compiled} {globals formatters : Value} {entries : Entries}

theorem anyM_eq_false {α ε : Type} {p : α → Except ε Bool} {as : List α} (h : as.anyM p = .ok false) :
    ∀ a ∈ as, p a = .ok false := by
  induction as with
  | nil => exact forall_mem_nil _
  | cons a as ih =>
    rw [List.anyM] at h
    rcases ha : p a with e | _ | _ <;> rw [ha] at h
    · cases h
    · exact forall_mem_cons.2 ⟨ha, ih h⟩
    · cases h

/-- Globals that are not stale are the ones that an object is bound to; a missing one may also be unbound. -/
theorem lookup_of_not_stale {d : Ref} (h : staleGlobals w x (.dict d) = .ok false) {k v : Value}
    (hmem : (k, v) ∈ w.dict d) : ∃ o, w.lookup (w.dict x.globals) k = .ok o ∧ o.getD .null = v := by
  have hentry := anyM_eq_false h (k, v) hmem
  dsimp only at hentry
  rcases ho : w.lookup (w.dict x.globals) k with e | o <;> rw [ho] at hentry
  · cases hentry
  · refine ⟨o, rfl, ?_⟩
    simpa [bind, Except.bind, pure, Except.pure] using hentry

theorem lookup_name_of_not_stale {d : Ref} (h : staleGlobals w x (.dict d) = .ok false) {n : String} {v : Value}
    (hmem : (.str n, v) ∈ w.dict d) (hv : v ≠ .null) : (w.dict x.globals).lookup (.str n) = some v := by
  obtain ⟨o, ho, hov⟩ := lookup_of_not_stale h hmem
  rw [World.lookup_str] at ho
  cases ho
  cases hlookup : (w.dict x.globals).lookup (.str n) with
  | none =>
    rw [hlookup] at hov
    exact absurd hov.symm hv
  | some u =>
    rw [hlookup] at hov
    exact congrArg some hov

theorem hashable_of_lookup {k : Value} {o : Option Value} (h : w.lookup entries k = .ok o) : w.hashable k = true := by
  unfold World.lookup at h
  split at h
  · cases h
  · simp_all

/-- What a request gives is what an object is bound to. -/
structure Agrees (w : World) (x : Compiled) (globals formatters : Value) : Prop where
  globals : ∀ d n v, globals = .dict d → (.str n, v) ∈ w.dict d → v ≠ .null →
    (w.dict x.globals).lookup (.str n) = some v
  formatters : formatters ≠ .null → ∃ given bound, w.updated [] formatters = .ok given ∧
    w.updated [] x.formatters = .ok bound ∧ w.equalEntries given bound = .ok true

theorem stale_eq_false (h : stale w x globals formatters = .ok false) :
    staleGlobals w x globals = .ok false ∧ staleFormatters w x formatters = .ok false := by
  unfold stale at h
  rcases hg : staleGlobals w x globals with e | a <;> rw [hg] at h
  · cases h
  rcases hf : staleFormatters w x formatters with e | b <;> rw [hf] at h
  · cases h
  replace h : (a || b) = false := Except.ok.inj h
  rw [Bool.or_eq_false_iff] at h
  exact ⟨by rw [h.1], by rw [h.2]⟩

theorem agrees_of_not_stale (h : stale w x globals formatters = .ok false) : Agrees w x globals formatters := by
  obtain ⟨hglobals, hformatters⟩ := stale_eq_false h
  constructor
  · rintro d n v rfl hmem hv
    exact lookup_name_of_not_stale hglobals hmem hv
  · intro hf
    rw [staleFormatters, if_neg hf] at hformatters
    rcases hgiven : w.updated [] formatters with e | given <;> rw [hgiven] at hformatters
    · cases hformatters
    rcases hbound : w.updated [] x.formatters with e | bound <;> rw [hbound] at hformatters
    · cases hformatters
    change (w.equalEntries given bound >>= fun b => pure !b) = _ at hformatters
    refine ⟨given, bound, rfl, rfl, ?_⟩
    rcases hequal : w.equalEntries given bound with e | b <;> rw [hequal] at hformatters
    · cases hformatters
    · replace hformatters : (!b) = false := Except.ok.inj hformatters
      rw [Bool.not_eq_false'] at hformatters
      rw [hformatters]

/-- A request gives a value for a name. -/
def Gives (w : World) (globals : Value) (n : String) : Prop :=
  ∃ d v, globals = .dict d ∧ (.str n, v) ∈ w.dict d ∧ v ≠ .null

theorem mem_entryNames_iff {n : String} : n ∈ entryNames entries ↔ (entries.lookup (.str n)).isSome := by
  constructor
  · intro h
    obtain ⟨⟨k, v⟩, hmem, hk⟩ := mem_filterMap.1 h
    have hk : k = .str n := by cases k <;> cases hk; rfl
    exact lookup_isSome_iff.2 ⟨_, hmem, by simp [hk]⟩
  · intro h
    obtain ⟨v, hv⟩ := Option.isSome_iff_exists.1 h
    exact mem_filterMap.2 ⟨_, mem_of_lookup_eq_some hv, rfl⟩

/-- The globals for a request are those that it gives, and those of the registry for the other names. -/
theorem lookup_merged {registry : Registry} {d : Ref}
    (h : mergedGlobals w registry (.dict d) = .ok entries) (n : String) :
    entries.lookup (.str n) = ((w.dict d).reverse.lookup (.str n)).or
      ((registry.entries.map fun (name, v) => (Value.str name, v)).lookup (.str n)) := by
  unfold mergedGlobals at h
  dsimp only at h
  split at h
  · exact World.lookup_updated h n
  · rename_i hempty
    cases h
    rw [show w.dict d = [] by simpa [World.isTrue] using hempty]
    rfl

/-- Globals that are not stale can be merged with those of any registry. What they give is what the object is bound
to. -/
theorem merged_of_not_stale (h : staleGlobals w x globals = .ok false) (registry : Registry) :
    ∃ entries, mergedGlobals w registry globals = .ok entries ∧
      ∀ n, Gives w globals n → entries.lookup (.str n) = (w.dict x.globals).lookup (.str n) := by
  by_cases hdict : ∃ d, globals = .dict d
  · obtain ⟨d, rfl⟩ := hdict
    have hkeys : ∀ e ∈ w.dict d, w.hashable e.1 = true := fun e he => by
      obtain ⟨o, ho, -⟩ := lookup_of_not_stale h he
      exact hashable_of_lookup ho
    obtain ⟨entries, hentries⟩ := mergedGlobals_of_hashable hkeys registry
    refine ⟨entries, hentries, ?_⟩
    rintro n ⟨_, v, ⟨⟩, hmem, hv⟩
    have hsome : ((w.dict d).reverse.lookup (.str n)).isSome := lookup_isSome_iff.2 ⟨_, mem_reverse.2 hmem, by simp⟩
    obtain ⟨v', hv'⟩ := Option.isSome_iff_exists.1 hsome
    -- Values that the mapping gives one name would all be compared with the one that the object is bound to.
    obtain ⟨o, ho, hov⟩ := lookup_of_not_stale h (mem_reverse.1 (mem_of_lookup_eq_some hv'))
    have hbound := lookup_name_of_not_stale h hmem hv
    rw [World.lookup_str, hbound] at ho
    cases ho
    rw [lookup_merged hentries, hv', hbound, Option.some_or, ← hov]
    rfl
  · have hfalse : w.isTrue globals ≠ true := by
      intro htrue
      unfold staleGlobals at h
      split at h
      · exact hdict ⟨_, rfl⟩
      · rw [if_pos htrue] at h
        cases h
    have hmerged : mergedGlobals w registry globals =
        .ok (registry.entries.map fun (name, v) => (Value.str name, v)) := if_neg hfalse
    exact ⟨_, hmerged, fun n ⟨d, _, hd, _⟩ => absurd ⟨d, hd⟩ hdict⟩

end Comparing

section Reused

variable {s₀ start s s' : Service} {config : Config} {registry : Option Nat} {i : Nat} {steps : List Step}
  {es : List Event} {setter : Bool} {expression globals formatters : Value} {arguments : List Value}
  {r : Request} {x : Compiled}

theorem recorded_addCompiler (h : (addCompiler config registry).outcome s₀ = (.ok i, start)) :
    ∃ k, Recorded i ⟨config, k, []⟩ [] start := by
  obtain ⟨k, hcompiler⟩ := compiler_addCompiler config registry s₀
  have hplace : ((addCompiler config registry).outcome s₀).1 = .ok s₀.compilers.size := by
    cases registry <;> rfl
  rw [h] at hplace hcompiler
  cases hplace
  exact ⟨k, .nil hcompiler rfl⟩

/-- Compiling a request with the globals that it gives would make an object again: the same function, and the same
values for the names that it mentions. -/
structure Regains (s : Service) (i : Nat) (r : Request) (globals : Value) (x : Compiled)
    (entries : List (Value × Value)) : Prop where
  prepared : s.prepare (s.compilerAt i) r globals = .ok (entries, ⟨x.program, x.source⟩)
  values : ∀ n, r.Mentions n → entries.lookup (.str n) = (s.world.dict x.globals).lookup (.str n)

theorem regains_of_made {w : World} {entries : Entries}
    (hmade : Made (s.compilerAt i).config x w) (hkept : s.world.dict x.globals = w.dict x.globals)
    (hentries : mergedGlobals s.world (s.registryAt (s.compilerAt i).registry) globals = .ok entries)
    (hvalues : ∀ n, x.request.Mentions n → entries.lookup (.str n) = (s.world.dict x.globals).lookup (.str n)) :
    Regains s i x.request globals x entries := by
  refine ⟨?_, hvalues⟩
  have hprogram : Compile.run (s.compilerAt i).config.functionName (entryNames entries) x.request =
      .ok ⟨x.program, x.source⟩ := by
    rw [Made, ← hkept] at hmade
    rw [← hmade]
    refine Compile.run_eq_of_mentions fun n hn => ?_
    rw [mem_entryNames_iff, mem_entryNames_iff, hvalues n hn]
  rw [prepare, hentries]
  dsimp only
  rw [hprogram]

/-- An answer from the cache, over every run of a new compiler. If there is no warning for its expression, what the
request gives is what the answer is bound to. If the answer also has, for the names that the expression
mentions and the request does not give, what the request would be compiled with now, then compiling the
request would make it again, as long as its globals are those that it was compiled with. -/
theorem reuse_agrees (hc : config.cacheEnabled = true)
    (hstart : (addCompiler config registry).outcome s₀ = (.ok i, start)) (hrun : run steps start = (es, s))
    (hr : requestOf s.world setter expression arguments = .ok r) (hx : (s.compilerAt i).cached? r = some x)
    (hask : (ask i setter expression globals formatters arguments).outcome s = (.ok x, s'))
    (hwarned : mismatch r.expression ∉ s'.log.warned) :
    Agrees s.world x globals formatters ∧
      ∃ before step after, steps = before ++ step :: after ∧ Makes i r x step (run before start).2 ∧
        ∃ entries, mergedGlobals s.world (s.registryAt (s.compilerAt i).registry) globals = .ok entries ∧
          (s.world.dict x.globals = (step.take (run before start).2).2.world.dict x.globals →
            (∀ n, r.Mentions n → ¬ Gives s.world globals n →
              entries.lookup (.str n) = (s.world.dict x.globals).lookup (.str n)) →
            Regains s i r globals x entries) := by
  obtain ⟨k, hnew⟩ := recorded_addCompiler hstart
  have hrecorded : Recorded i ⟨config, k, []⟩ es s := by
    have h := hnew.run hc steps
    rwa [hrun] at h
  have hanswered : .answered i r x ∈ es := by
    rw [hrecorded.cached?_eq hc] at hx
    exact answered_of_mem_remembered (mem_of_lookup_eq_some hx)
  obtain ⟨rfl, -⟩ := hrecorded.places r x hanswered
  have hfresh : stale s.world x globals formatters = .ok false := by
    have hanswers := answers_compile i x.request globals formatters s
    rw [outcome_ask, hr] at hask
    dsimp only at hask
    rw [hask] at hanswers
    cases hanswers with
    | @reused _ b _ hb =>
      cases b with
      | false => exact hb
      | true => exact absurd (mem_warned_reportReuse s x) hwarned
    | compiled hnone => rw [hx] at hnone; cases hnone
  refine ⟨agrees_of_not_stale hfresh, ?_⟩
  have hmakes := exists_makes hnew hc (by rw [hrun]; exact hanswered)
  obtain ⟨before, step, after, hsteps, hmakes⟩ := hmakes.resolve_left List.not_mem_nil
  obtain ⟨entries, hentries, hgiven⟩ :=
    merged_of_not_stale (stale_eq_false hfresh).1 (s.registryAt (s.compilerAt i).registry)
  refine ⟨before, step, after, hsteps, hmakes, entries, hentries, fun hkept hothers => ?_⟩
  refine regains_of_made ?_ hkept hentries fun n hn => ?_
  · have hmade := hmakes.made
    rw [compilerAt_eq (hnew.run hc before).compiler] at hmade
    rw [compilerAt_eq hrecorded.compiler]
    exact hmade
  · by_cases hgives : Gives s.world globals n
    · exact hgiven n hgives
    · exact hothers n hn hgives

end Reused

section OneName

def nameRequest : Request := ⟨"x", [], false⟩

def nameGenerated (isGlobal : Bool) : Generated :=
  if isGlobal then ⟨⟨"expression", [], ⟨0, .global "x"⟩, false⟩, "return _globals_['x']"⟩
  else ⟨⟨"expression", [], ⟨0, .operate .get [.this, .key "x"]⟩, false⟩, "return _get_(this, 'x')"⟩

theorem parse_name : Surface.parse "x".toList = .ok (.name "x") := by
  rw [Surface.parse, show tokenize "x".toList = .ok [⟨.name ['x'], 0⟩] by decide +kernel]
  refine ofTokens_eq_ok_of_derives ?_ (not_overflows_of_fit ?_)
  · exact derives_primary ⟨.name ['x'] (by decide), by simp [Derivation.Valid],
      by simp [Derivation.yield, lexemes], by rw [Derivation.meaning]; rfl⟩
  · exact fit_cons.2 ⟨rfl, fit_nil⟩

theorem mentions_name {n : String} (h : nameRequest.Mentions n) : n = "x" := by
  obtain ⟨text, t, htext, ht, hn⟩ := h
  rw [show desugar (isolate nameRequest.expression.toList) = .ok "x".toList by decide +kernel] at htext
  cases htext
  rw [show replaceWords "x".toList = "x".toList by decide, parse_name] at ht
  cases ht
  rw [Expr.names] at hn
  exact mem_singleton.1 hn

theorem emit_name (globals : List String) :
    emit (Scope.ofNames globals []) (.name "x" : Expr Placeholder) =
      .ok ⟨0, if globals.contains "x" then .global "x" else .operate .get [.this, .key "x"]⟩ := by
  have hclassify : (Scope.ofNames globals []).classify "x" =
      if globals.contains "x" then .global else .context := rfl
  rw [emit, emitChain, Scope.chain, hclassify]
  cases globals.contains "x" <;> rfl

theorem analyse_name (globals : List String) :
    Compile.analyse (Scope.ofNames globals []) (isolate "x".toList) =
      .ok ⟨0, if globals.contains "x" then .global "x" else .operate .get [.this, .key "x"]⟩ := by
  rw [show isolate "x".toList = "x".toList by decide +kernel, Compile.analyse,
    show desugar "x".toList = .ok "x".toList by decide]
  dsimp only
  rw [generate_of_parse (by rw [show replaceWords "x".toList = "x".toList by decide, parse_name]), emit_name]

theorem run_name (globals : List String) :
    Compile.run "expression" globals nameRequest = .ok (nameGenerated (globals.contains "x")) := by
  have hplain : Text.isPlainName "expression".toList = true := by decide
  have hparams : (Scope.ofNames globals []).parameters = [] := rfl
  have hbody : ∀ b, Compile.isBuildable "expression" [] (nameGenerated b).program.body = true ∧
      Compile.bodyText false (nameGenerated b).program.body = (nameGenerated b).source := by
    decide
  have hfill : ∀ b, (Body.mk 0 (if b then .global "x" else .operate .get [.this, .key "x"]) :
      Body Placeholder).fill [] = .ok (nameGenerated b).program.body := by
    rintro (_ | _) <;> rfl
  unfold Compile.run nameRequest
  dsimp only
  rw [analyse_name, show literals "x".toList = [] by decide +kernel, hparams]
  dsimp only
  rw [hfill]
  simp only [hbody, hplain]
  cases globals.contains "x" <;> rfl

def oneName : Service :=
  ((addCompiler {} none).outcome { world := (World.initial.newDict [(.str "x", .int 1)]).2 }).2

def askName (globals : Value) : Step := .ask 0 false (.str "x") globals .null []

def boundName : Compiled :=
  ⟨nameRequest, (nameGenerated true).program, (nameGenerated true).source, 1, .dict 2⟩

def standardEntries : List (Value × Value) :=
  Registry.standard.entries.map fun (name, v) => (Value.str name, v)

theorem prepare_oneName : oneName.prepare (oneName.compilerAt 0) nameRequest (.dict 0) =
    .ok (standardEntries ++ [(Value.str "x", Value.int 1)], nameGenerated true) := by
  have hmerged : mergedGlobals oneName.world (oneName.registryAt 0) (.dict 0) =
      .ok (standardEntries ++ [(Value.str "x", Value.int 1)]) := rfl
  rw [prepare, show (oneName.compilerAt 0).registry = 0 from rfl, hmerged]
  dsimp only
  rw [show (oneName.compilerAt 0).config.functionName = "expression" from rfl, run_name]
  rfl

structure Answered (s : Service) : Prop where
  run_eq : run [askName (.dict 0)] oneName = ([.answered 0 nameRequest boundName], s)
  cached : (s.compilerAt 0).cached? nameRequest = some boundName
  registry : s.registryAt (s.compilerAt 0).registry = .standard
  functionName : (s.compilerAt 0).config.functionName = "expression"
  given : s.world.dict 0 = [(.str "x", .int 1)]
  own : s.world.dict 1 = standardEntries ++ [(Value.str "x", Value.int 1)]
  warned : s.log.warned = []

theorem exists_answered : ∃ s, Answered s := by
  have hr : requestOf oneName.world false (.str "x") [] = .ok nameRequest := rfl
  have hnone : (oneName.compilerAt 0).cached? nameRequest = none := rfl
  have hprepare : (oneName.enterRequest nameRequest).prepare (oneName.compilerAt 0) nameRequest (.dict 0) =
      .ok (standardEntries ++ [(Value.str "x", Value.int 1)], nameGenerated true) := prepare_oneName
  have hout := outcome_ask 0 false (.str "x") (.dict 0) .null [] oneName
  rw [hr] at hout
  dsimp only at hout
  rw [outcome_compile_missing hnone, outcome_compileNew_ok hprepare] at hout
  have hrun := run.eq_2 oneName (askName (.dict 0)) []
  rw [run, askName, Step.take, hr, hout] at hrun
  exact ⟨_, hrun, rfl, rfl, rfl, rfl, rfl, warned_report ..⟩

theorem Answered.reused {s : Service} (h : Answered s) {globals : Value}
    (hfresh : stale s.world boundName globals .null = .ok false) :
    ∃ s', (ask 0 false (.str "x") globals .null []).outcome s = (.ok boundName, s') ∧
      mismatch nameRequest.expression ∉ s'.log.warned := by
  have hout := outcome_ask 0 false (.str "x") globals .null [] s
  rw [show requestOf s.world false (.str "x") [] = .ok nameRequest from rfl] at hout
  dsimp only at hout
  rw [outcome_compile_cached h.cached, hfresh] at hout
  refine ⟨_, hout, ?_⟩
  rw [reportReuse, warned_report, if_neg nofun, h.warned]
  exact not_mem_nil

/-- Asking for the name with its global, and then without it, gives the first answer with no warning, but the name
would now be compiled to a read from the context. -/
theorem silent_reuse : ∃ s s', run [askName (.dict 0)] oneName = ([.answered 0 nameRequest boundName], s) ∧
    (ask 0 false (.str "x") .null .null []).outcome s = (.ok boundName, s') ∧
    mismatch nameRequest.expression ∉ s'.log.warned ∧
    ∃ entries fresh, s.prepare (s.compilerAt 0) nameRequest .null = .ok (entries, fresh) ∧
      fresh.source ≠ boundName.source := by
  obtain ⟨s, h⟩ := exists_answered
  obtain ⟨s', hask, hwarned⟩ := @Answered.reused s h .null rfl
  refine ⟨s, s', h.run_eq, hask, hwarned, standardEntries, nameGenerated false, ?_, by decide⟩
  rw [prepare, h.registry, show mergedGlobals s.world .standard .null = .ok standardEntries from rfl]
  dsimp only
  rw [h.functionName, run_name]
  rfl

/-- Asked for again with its global, the name would be compiled to the answer that is reused. -/
theorem reuse_agrees_name : ∃ s, run [askName (.dict 0)] oneName = ([.answered 0 nameRequest boundName], s) ∧
    Agrees s.world boundName (.dict 0) .null ∧
    ∃ entries, Regains s 0 nameRequest (.dict 0) boundName entries := by
  obtain ⟨s, h⟩ := exists_answered
  have hstart : (addCompiler {} none).outcome { world := (World.initial.newDict [(.str "x", .int 1)]).2 } =
      (.ok 0, oneName) := rfl
  have hr : requestOf s.world false (.str "x") [] = .ok nameRequest := rfl
  have hlookup : s.world.lookup (s.world.dict boundName.globals) (.str "x") = .ok (some (.int 1)) := by
    rw [World.lookup_str, show s.world.dict boundName.globals = _ from h.own]
    rfl
  have hfresh : staleGlobals s.world boundName (.dict 0) = .ok false := by
    rw [staleGlobals, h.given, List.anyM]
    dsimp only
    rw [hlookup]
    rfl
  obtain ⟨s', hask, hwarned⟩ := h.reused (by rw [stale, hfresh]; rfl)
  obtain ⟨hagrees, before, step, after, hsteps, hmakes, entries, hentries, hregains⟩ :=
    reuse_agrees rfl hstart h.run_eq hr h.cached hask hwarned
  refine ⟨s, h.run_eq, hagrees, entries, hregains ?_ fun n hn hgives => ?_⟩
  · obtain ⟨rfl, rfl⟩ : before = [] ∧ step = askName (.dict 0) := by
      cases before with
      | nil => exact ⟨rfl, (List.cons.inj hsteps).1.symm⟩
      | cons _ before => exact absurd (List.cons.inj hsteps).2.symm (by simp)
    exact congrArg (·.2.world.dict 1) h.run_eq.symm
  · rw [mentions_name hn] at hgives
    exact absurd ⟨0, .int 1, rfl, by rw [h.given]; exact List.mem_singleton_self _, by rintro ⟨⟩⟩ hgives

end OneName

end Service

end NullSafe
