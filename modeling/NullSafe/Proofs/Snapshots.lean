import NullSafe.Proofs.GlobalAssignments
import NullSafe.Proofs.Sessions

/-! # Globals of compiled expressions

A compiled expression is bound to a mapping of its own, with the globals that the registry and the caller had when it
was compiled. Over a whole run nothing changes that mapping: no other request, no change of a registry and none of the
caller's own mapping. A call that assigns to a global changes one entry of it.
-/

namespace NullSafe

theorem World.extends_bind (w : World) (entries : Entries) (formatters : Value) :
    w.Extends (w.bind entries formatters).2 := by
  unfold World.bind
  dsimp only
  split
  · exact (World.extends_newDict _ _).trans (World.extends_newDict _ _)
  · exact World.extends_newDict _ _

theorem Request.namesProblem?_of_ofValues {expression : Value} {arguments : List Value} {setter : Bool} {r : Request}
    (h : Request.ofValues expression arguments setter = .ok r) : Request.namesProblem? r.arguments = none := by
  obtain ⟨_, -, hnames, rfl⟩ := Request.ofValues_eq_ok h
  exact hnames

open NullSafe.Action Surface

namespace Service

theorem namesProblem?_of_requestOf {w : World} {setter : Bool} {expression : Value} {arguments : List Value}
    {r : Request} (h : requestOf w setter expression arguments = .ok r) : Request.namesProblem? r.arguments = none := by
  unfold requestOf at h
  rcases hr : Request.ofValues expression (w.spreadArguments arguments) false with f | r₀ <;> rw [hr] at h
  · cases h
  cases setter with
  | false =>
    cases h
    exact Request.namesProblem?_of_ofValues hr
  | true => exact Request.namesProblem?_of_ofValues h

theorem lookup_registered (registry : Registry) (n : String) :
    (registry.entries.map fun (name, v) => (Value.str name, v)).lookup (.str n) = registry.find? n := by
  unfold Registry.find?
  induction registry.entries with
  | nil => rfl
  | cons e rest ih =>
    rw [List.map_cons, World.lookup_entry, List.lookup_cons, ih]
    by_cases he : e.1 = n
    · simp [he]
    · simp [he, beq_false_of_ne (Ne.symm he)]

/-- An expression is compiled with entries for globals, which are put into a new mapping. -/
structure BuiltAt (s : Service) (i : Nat) (r : Request) (globals : Value) (x : Compiled)
    (entries : List (Value × Value)) : Prop where
  own : x.globals = s.world.dicts.size
  compiled : Compile.run (s.compilerAt i).config.functionName (entryNames entries) r = .ok ⟨x.program, x.source⟩
  merged : mergedGlobals s.world (s.registryAt (s.compilerAt i).registry) globals = .ok entries
  /-- A name has the value that the request gives it, and otherwise the registered one. -/
  given : ∀ d, globals = .dict d → ∀ n, entries.lookup (.str n) =
    ((s.world.dict d).reverse.lookup (.str n)).or ((s.registryAt (s.compilerAt i).registry).find? n)
  missing : s.world.isTrue globals = false → ∀ n, entries.lookup (.str n) =
    (s.registryAt (s.compilerAt i).registry).find? n

theorem Answers.builtAt {s s' : Service} {i : Nat} {r : Request} {globals formatters : Value} {x : Compiled}
    (h : Answers i r globals formatters s (.ok x, s')) (hmissing : (s.compilerAt i).cached? r = none) :
    ∃ entries, s.BuiltAt i r globals x entries ∧ x.formatters = (s.world.bind entries formatters).1 ∧
      x.globals < s'.world.dicts.size ∧ s'.world.dict x.globals = entries := by
  cases h with
  | reused hx =>
    rw [hx] at hmissing
    cases hmissing
  | @compiled entries generated _ _ _ hprepare hx hworld _ _ =>
    obtain ⟨hmerged, hrun⟩ := run_of_prepare hprepare
    have hplace := World.size_dicts_bind s.world entries formatters
    subst hx
    refine ⟨entries, ⟨rfl, hrun, hmerged, ?_, ?_⟩, rfl, ?_, ?_⟩
    · rintro d rfl n
      rw [lookup_merged hmerged, lookup_registered]
    · intro hfalse n
      rw [mergedGlobals, if_neg (by rw [hfalse]; exact Bool.false_ne_true)] at hmerged
      cases hmerged
      exact lookup_registered _ n
    · rw [hworld]
      exact hplace
    · rw [hworld, (World.extends_newList _ _).dict_eq hplace]
      exact World.dict_bind _ _ _

section Steps

variable {s : Service} {step : Step} {i : Nat} {r : Request} {x : Compiled}

theorem answers_of_answered (h : (step.take s).1 = .answered i r x) :
    ∃ setter expression globals formatters arguments,
      step = .ask i setter expression globals formatters arguments ∧
        requestOf s.world setter expression arguments = .ok r ∧
        Answers i r globals formatters s (.ok x, (step.take s).2) := by
  cases step with
  | ask j setter expression globals formatters arguments =>
    rw [Step.take, outcome_ask] at h ⊢
    rcases hr : requestOf s.world setter expression arguments with f | r' <;> rw [hr] at h
    · cases h
    have hanswers := answers_compile j r' globals formatters s
    dsimp only at h ⊢
    rcases hout : (compile j r' globals formatters).outcome s with ⟨f | y, s'⟩ <;> rw [hout] at h hanswers
    · cases h
    · cases h
      exact ⟨setter, expression, globals, formatters, arguments, rfl, hr, by simpa only [hr, hout] using hanswers⟩
  | clearCache | register | update | unregister | evolve => cases h

theorem compilerAt_of_compilers_eq {s' : Service} {c : Compiler} (h : s'.compilers = s.compilers.setIfInBounds i c) :
    s'.compilerAt i = c ∨ s'.compilerAt i = s.compilerAt i := by
  unfold compilerAt
  rw [h, Array.getElem?_setIfInBounds_self]
  split
  · exact .inl rfl
  · rename_i hi
    rw [Array.getElem?_eq_none (Nat.le_of_not_lt hi)]
    exact .inr rfl

theorem cached?_remember {c : Compiler} {r' : Request} {y : Compiled} (h : (c.remember r x).cached? r' = some y) :
    c.cached? r' = some y ∨ (r' = r ∧ y = x) := by
  unfold Compiler.remember at h
  split at h
  · rename_i hc
    rw [Compiler.cached?, if_pos hc] at h ⊢
    rw [List.lookup_append] at h
    rcases Option.or_eq_some_iff.1 h with h | ⟨-, h⟩
    · exact .inl h
    · cases List.mem_singleton.1 (mem_of_lookup_eq_some h)
      exact .inr ⟨rfl, rfl⟩
  · exact .inl h

theorem cached?_take (h : ((step.take s).2.compilerAt i).cached? r = some x) :
    (s.compilerAt i).cached? r = some x ∨ (step.take s).1 = .answered i r x := by
  have htakes := takes_take i step s
  generalize step.take s = p at h htakes ⊢
  cases htakes with
  | reused _ _ hcompiler | aside _ _ _ hcompiler =>
    left
    rwa [compilerAt, hcompiler, ← compilerAt] at h
  | cleared _ hcompiler =>
    rcases compilerAt_of_compilers_eq hcompiler with hc | hc <;> rw [hc] at h
    · rw [Compiler.cached?, Compiler.forget, List.lookup_nil, ite_self] at h
      cases h
    · exact .inl h
  | compiled _ _ _ _ _ hcompiler =>
    rcases compilerAt_of_compilers_eq hcompiler with hc | hc <;> rw [hc] at h
    · rcases cached?_remember h with h | ⟨rfl, rfl⟩
      · exact .inl h
      · exact .inr rfl
    · exact .inl h

theorem ask_keeps (i : Nat) (setter : Bool) (expression globals formatters : Value) (arguments : List Value)
    (s : Service) : ((Step.ask i setter expression globals formatters arguments).take s).2.registries = s.registries ∧
      s.world.Extends ((Step.ask i setter expression globals formatters arguments).take s).2.world := by
  rw [Step.take, outcome_ask]
  rcases requestOf s.world setter expression arguments with f | r
  · exact ⟨rfl, .refl _⟩
  dsimp only
  have hanswers := answers_compile i r globals formatters s
  generalize (compile i r globals formatters).outcome s = out at hanswers ⊢
  cases hanswers with
  | incomparable | failed => exact ⟨rfl, .refl _⟩
  | @reused _ b => cases b <;> exact ⟨rfl, .refl _⟩
  | compiled _ _ _ hworld hregistries =>
    exact ⟨hregistries, hworld ▸ (World.extends_bind _ _ _).trans (World.extends_newList _ _)⟩

theorem dict_take {d : Ref} (hd : d < s.world.dicts.size)
    (hstep : ∀ change keeps, step = .evolve change keeps → (change s.world).dict d = s.world.dict d) :
    (step.take s).2.world.dict d = s.world.dict d := by
  cases step with
  | ask => exact (ask_keeps ..).2.dict_eq hd
  | clearCache => rfl
  | register k name v => exact congrArg (·.dict d) (outcome_changeRegistry k _ s).1
  | update k values => exact congrArg (·.dict d) (outcome_updateRegistry k values s).1
  | unregister k name => exact congrArg (·.dict d) (outcome_changeRegistry k _ s).1
  | evolve change keeps => exact hstep change keeps rfl

theorem size_dicts_take (step : Step) (s : Service) : s.world.dicts.size ≤ (step.take s).2.world.dicts.size := by
  have htakes := takes_take 0 step s
  generalize step.take s = p at htakes
  cases htakes with
  | compiled _ _ _ _ hplaces => exact hplaces.le
  | reused _ hplaces | cleared hplaces | aside _ _ hplaces => exact hplaces

end Steps

section Runs

variable {s₀ : Service} {steps : List Step} {i : Nat} {r : Request} {x : Compiled} {step : Step}

theorem run_concat (steps : List Step) (step : Step) (s : Service) :
    run (steps ++ [step]) s = ((run steps s).1 ++ [(step.take (run steps s).2).1], (step.take (run steps s).2).2) := by
  induction steps generalizing s with
  | nil => rfl
  | cons first steps ih =>
    rw [List.cons_append, run, ih]
    rfl

/-- No change of values at will touches the mapping of an expression that was given before. -/
def Undisturbed (steps : List Step) (s : Service) : Prop :=
  ∀ before change keeps after, steps = before ++ Step.evolve change keeps :: after →
    ∀ i r x, .answered i r x ∈ (run before s).1 →
      (change (run before s).2.world).dict x.globals = (run before s).2.world.dict x.globals

theorem Undisturbed.init (h : Undisturbed (steps ++ [step]) s₀) : Undisturbed steps s₀ :=
  fun before change keeps after hsteps => h before change keeps (after ++ [step]) (by rw [hsteps]; simp)

/-- An expression was compiled at some moment of a run, with the entries that its mapping still has. -/
structure Snapshot (s₀ : Service) (steps : List Step) (i : Nat) (r : Request) (x : Compiled)
    (entries : List (Value × Value)) : Prop where
  built : ∃ before setter expression globals formatters arguments after,
    steps = before ++ Step.ask i setter expression globals formatters arguments :: after ∧
      requestOf (run before s₀).2.world setter expression arguments = .ok r ∧
      (run before s₀).2.BuiltAt i r globals x entries
  there : x.globals < (run steps s₀).2.world.dicts.size
  kept : (run steps s₀).2.world.dict x.globals = entries

theorem Snapshot.concat {entries : Entries} (h : Snapshot s₀ steps i r x entries)
    (hundisturbed : Undisturbed (steps ++ [step]) s₀) (hx : .answered i r x ∈ (run steps s₀).1) :
    Snapshot s₀ (steps ++ [step]) i r x entries := by
  obtain ⟨before, setter, expression, globals, formatters, arguments, after, hsteps, hrequest, hbuilt⟩ := h.built
  refine ⟨⟨before, setter, expression, globals, formatters, arguments, after ++ [step], ?_, hrequest, hbuilt⟩, ?_, ?_⟩
  · rw [hsteps]
    simp
  · rw [run_concat]
    exact h.there.trans_le (size_dicts_take step _)
  · rw [run_concat, ← h.kept]
    refine dict_take h.there fun change keeps hstep => ?_
    exact hundisturbed steps change keeps [] (by rw [hstep]) i r x hx

/-- What is known of the expressions that a run has given. -/
structure Snapshots (s₀ : Service) (steps : List Step) : Prop where
  known : ∀ i r x, ((run steps s₀).2.compilerAt i).cached? r = some x → .answered i r x ∈ (run steps s₀).1
  snapshot : ∀ i r x, .answered i r x ∈ (run steps s₀).1 → ∃ entries, Snapshot s₀ steps i r x entries
  apart : ∀ i r x j r' y, .answered i r x ∈ (run steps s₀).1 → .answered j r' y ∈ (run steps s₀).1 →
    y.globals = x.globals → y = x

theorem snapshots_nil (h : ∀ i, (s₀.compilerAt i).cache = []) : Snapshots s₀ [] where
  known i r x hx := by
    change (s₀.compilerAt i).cached? r = some x at hx
    rw [Compiler.cached?, h i, List.lookup_nil, ite_self] at hx
    cases hx
  snapshot i r x hx := nomatch hx
  apart i r x j r' y hx := nomatch hx

/-- The answer to a request was given before, or it is an expression with a new mapping. -/
theorem Snapshots.answer (h : Snapshots s₀ steps) (hx : (step.take (run steps s₀).2).1 = .answered i r x) :
    .answered i r x ∈ (run steps s₀).1 ∨
      (x.globals = (run steps s₀).2.world.dicts.size ∧ ∃ entries, Snapshot s₀ (steps ++ [step]) i r x entries) := by
  obtain ⟨setter, expression, globals, formatters, arguments, hstep, hrequest, hanswers⟩ := answers_of_answered hx
  cases hcached : ((run steps s₀).2.compilerAt i).cached? r with
  | some y =>
    obtain rfl : x = y := by
      generalize (step.take (run steps s₀).2).2 = s' at hanswers
      cases hanswers with
      | reused hy => exact Option.some.inj (hy.symm.trans hcached)
      | compiled hnone => rw [hcached] at hnone; cases hnone
    exact .inl (h.known i r x hcached)
  | none =>
    obtain ⟨entries, hbuilt, -, hplace, hdict⟩ := hanswers.builtAt hcached
    refine .inr ⟨hbuilt.own, entries, ⟨steps, setter, expression, globals, formatters, arguments, [], ?_, hrequest,
      hbuilt⟩, ?_, ?_⟩
    · rw [hstep]
    · rwa [run_concat]
    · rwa [run_concat]

theorem Snapshots.concat (h : Snapshots s₀ steps) (hundisturbed : Undisturbed (steps ++ [step]) s₀) :
    Snapshots s₀ (steps ++ [step]) := by
  have hanswer : ∀ i r x, .answered i r x ∈ (run (steps ++ [step]) s₀).1 → .answered i r x ∈ (run steps s₀).1 ∨
      ((step.take (run steps s₀).2).1 = .answered i r x ∧ x.globals = (run steps s₀).2.world.dicts.size ∧
        ∃ entries, Snapshot s₀ (steps ++ [step]) i r x entries) := by
    intro i r x hx
    rw [run_concat] at hx
    rcases List.mem_append.1 hx with hx | hx
    · exact .inl hx
    · have hx := (List.mem_singleton.1 hx).symm
      exact (h.answer hx).imp_right fun hnew => ⟨hx, hnew⟩
  have hold : ∀ i r x, .answered i r x ∈ (run steps s₀).1 → x.globals < (run steps s₀).2.world.dicts.size :=
    fun i r x hx => (h.snapshot i r x hx).elim fun _ hsnapshot => hsnapshot.there
  refine ⟨?_, ?_, ?_⟩
  · intro i r x hx
    rw [run_concat] at hx ⊢
    rcases cached?_take hx with hx | hx
    · exact List.mem_append_left _ (h.known i r x hx)
    · exact List.mem_append_right _ (by rw [hx]; exact .head _)
  · intro i r x hx
    rcases hanswer i r x hx with hx | ⟨-, -, hsnapshot⟩
    · obtain ⟨entries, hsnapshot⟩ := h.snapshot i r x hx
      exact ⟨entries, hsnapshot.concat hundisturbed hx⟩
    · exact hsnapshot
  · intro i r x j r' y hx hy hxy
    rcases hanswer i r x hx with hx | ⟨hx, hplace, -⟩ <;> rcases hanswer j r' y hy with hy | ⟨hy, hplace', -⟩
    · exact h.apart i r x j r' y hx hy hxy
    · exact absurd (hxy ▸ hplace' ▸ hold i r x hx) (Nat.lt_irrefl _)
    · exact absurd (hxy ▸ hold j r' y hy) (by rw [hplace]; exact Nat.lt_irrefl _)
    · cases hx.symm.trans hy
      rfl

theorem snapshots_run (hempty : ∀ i, (s₀.compilerAt i).cache = []) (hundisturbed : Undisturbed steps s₀) :
    Snapshots s₀ steps := by
  induction steps using List.reverseRecOn with
  | nil => exact snapshots_nil hempty
  | append_singleton steps step ih => exact (ih hundisturbed.init).concat hundisturbed

end Runs

section Assignment

def assignRequest : Request := ⟨"x=this", [], false⟩

theorem isTree_assignRequest : assignRequest.IsTree (.assign (.name "x") .this) := by
  let d : Derivation .assign := .assign (.unconditional (Derivation.single (.chain (.name ['x'] (by decide)) .linked)))
    (.alone (.single (.chain (.name "this".toList (by decide)) .linked)))
  refine ⟨"x=this".toList, d.meaning, by decide +kernel, ?_, rfl⟩
  rw [show replaceWords "x=this".toList = "x=this".toList by decide +kernel]
  exact parse_of_derivation d (by decide +kernel) (by unfold Fit; decide +kernel) (by repeat' constructor)

def assignSteps : List Step :=
  [.ask 0 false (.str "x=this") (.dict 0) .null [],
    .evolve (fun w => { w with dicts := w.dicts.setIfInBounds 0 [] }) fun w => by simp,
    .register 0 (.str "x") (.int 3)]

def assignEntries : List (Value × Value) := standardEntries ++ [(Value.str "x", Value.int 1)]

theorem exists_prepare_assign :
    ∃ generated, oneName.prepare (oneName.compilerAt 0) assignRequest (.dict 0) = .ok (assignEntries, generated) := by
  have hmerged : mergedGlobals oneName.world (oneName.registryAt 0) (.dict 0) = .ok assignEntries := rfl
  have hdeclare : Compile.canDeclare "expression" [] = true := by decide +kernel
  have hexists : ∃ generated, Compile.run "expression" (entryNames assignEntries) assignRequest = .ok generated :=
    (Compile.exists_run_iff isTree_assignRequest).2 ⟨hdeclare, rfl, rfl⟩
  obtain ⟨generated, hrun⟩ := hexists
  refine ⟨generated, ?_⟩
  rw [prepare, show (oneName.compilerAt 0).registry = 0 from rfl, hmerged]
  dsimp only
  rw [show (oneName.compilerAt 0).config.functionName = "expression" from rfl, hrun]

/-- The service after the assignment is compiled, and what it is compiled to. -/
theorem exists_answered_assign : ∃ x s, x.globals = 1 ∧
    run (assignSteps.take 1) oneName = ([.answered 0 assignRequest x], s) := by
  obtain ⟨generated, hprepare⟩ := exists_prepare_assign
  have hr : requestOf oneName.world false (.str "x=this") [] = .ok assignRequest := rfl
  have hout := outcome_ask 0 false (.str "x=this") (.dict 0) .null [] oneName
  rw [hr] at hout
  dsimp only at hout
  rw [outcome_compile_ok rfl hprepare] at hout
  have htake := run.eq_2 oneName (.ask 0 false (.str "x=this") (.dict 0) .null []) []
  rw [run, Step.take, hr, hout] at htake
  exact ⟨_, _, rfl, htake⟩

theorem undisturbed_assignSteps : Undisturbed assignSteps oneName := by
  intro before change keeps after hsteps i r x hx
  obtain ⟨x', s, hglobals, hrun⟩ := exists_answered_assign
  match before, hsteps with
  | [], hsteps => cases hsteps
  | [_], hsteps =>
    cases hsteps
    change run [_] oneName = _ at hrun
    rw [hrun] at hx ⊢
    cases List.mem_singleton.1 hx
    rw [hglobals]
    simp [World.dict]
  | [_, _], hsteps => cases hsteps
  | _ :: _ :: _ :: before, hsteps => simp [assignSteps] at hsteps

theorem cache_oneName (i : Nat) : (oneName.compilerAt i).cache = [] := by
  have hcompilers : oneName.compilers = #[⟨{}, 0, []⟩] := rfl
  unfold compilerAt
  rw [hcompilers]
  cases i <;> simp

theorem Snapshot.entries_assignSteps {x : Compiled} {entries : Entries}
    (h : Snapshot oneName assignSteps 0 assignRequest x entries) : entries = assignEntries := by
  obtain ⟨before, setter, expression, globals, formatters, arguments, after, hsteps, -, hbuilt⟩ := h.built
  match before, hsteps with
  | [], hsteps =>
    cases hsteps
    have hmerged : mergedGlobals oneName.world (oneName.registryAt 0) (.dict 0) = .ok assignEntries := rfl
    exact Except.ok.inj (hbuilt.merged.symm.trans hmerged)
  | [_], hsteps => cases hsteps
  | [_, _], hsteps => cases hsteps
  | _ :: _ :: _ :: before, hsteps => simp [assignSteps] at hsteps

end Assignment

end Service

end NullSafe
