import Mathlib.Data.List.Induction
import NullSafe.Proofs.ConfinedTrees
import NullSafe.Proofs.Reading

/-! # Stages of a pipeline

A pipeline is a nest of calls, the last formatter outermost. Its value is that of the stages one after the other: the
value, then each formatter on what came before. Formatters are looked up first, from the last to the first, and a
missing one leaves out everything before it.
-/

namespace NullSafe

open Surface List Direct

/-- A formatter of a pipeline, with the arguments that are written for it. -/
structure Stage (ι : Type) where
  name : String
  arguments : List (Expr ι)

section Definitions

variable {ι : Type}

def Stage.call (value : Expr ι) (s : Stage ι) : Expr ι :=
  .call (.member (.member (.name "_formatters_") s.name) "call") (.this :: value :: s.arguments)

def Stage.nest (value : Expr ι) (stages : List (Stage ι)) : Expr ι := stages.foldl Stage.call value

namespace World

def formatter? (w : World) (formatters : Value) (name : String) : Option Function :=
  match formatters with
  | .dict r =>
    match (w.dict r).lookup (.str name) with
    | some (.function f) => some f
    | _ => none
  | _ => none

/-- Whether a mapping has nothing under a name, or a function without a `call` of its own. -/
def holdsFormatter (w : World) (formatters : Value) (name : String) : Bool :=
  match formatters with
  | .dict r =>
    match (w.dict r).lookup (.str name) with
    | none | some .null => true
    | some (.function f) => ((w.functionAttributes f).lookup "call").isNone
    | _ => false
  | _ => false

/-- The stages behind the last one that has no formatter, with their formatters, and whether these are all. -/
def live (w : World) (formatters : Value) : List (Stage ι) → Bool × List (Function × Stage ι)
  | [] => (true, [])
  | s :: rest =>
    match w.live formatters rest, w.formatter? formatters s.name with
    | (true, later), some f => (true, (f, s) :: later)
    | (_, later), _ => (false, later)

/-- The world in which the `call` of each of the given functions has been read. -/
def withCalls (w : World) (fs : List Function) : World :=
  fs.foldl (fun w f => (w.newObject ⟨.bound, [("fn", .function f)]⟩).2) w

end World

/-- Calls a formatter on a value, once the arguments that are written for it are evaluated. -/
def Stage.apply (host : Host) (scope : Scope) (v : Value) (stage : Function × Stage Leaf) : Direct Value := do
  let vs ← values ⟨host, host.operate⟩ scope stage.2.arguments
  let this := (← get).this
  let aware := host.isContextAware (← getThe World) (.function stage.1)
  Run.callValue host (.function stage.1) (if aware then this :: v :: vs else v :: vs)

def Stage.run (host : Host) (scope : Scope) (value : Direct Value) (stages : List (Stage Leaf)) : Direct Value := do
  let live := (← getThe World).live (← get).formatters stages
  modifyThe World (·.withCalls (live.2.map (·.1)).reverse)
  let start ← (if live.1 then value else pure .null : Direct Value)
  live.2.foldlM (Stage.apply host scope) start

end Definitions

section Lookups

variable {ι : Type} {w : World} {formatters : Value}

theorem World.live_concat (w : World) (formatters : Value) (stages : List (Stage ι)) (s : Stage ι) :
    w.live formatters (stages ++ [s]) = match w.formatter? formatters s.name with
      | some f => ((w.live formatters stages).1, (w.live formatters stages).2 ++ [(f, s)])
      | none => (false, []) := by
  induction stages with
  | nil =>
    rw [nil_append, live, live]
    rcases w.formatter? formatters s.name with _ | f <;> rfl
  | cons s' rest ih =>
    rw [cons_append, live, ih]
    rcases w.formatter? formatters s.name with _ | f
    · rfl
    · dsimp only
      rw [live]
      rcases w.live formatters rest with ⟨_ | _, later⟩ <;> rcases w.formatter? formatters s'.name with _ | f' <;> rfl

theorem World.withCalls_append (w : World) (fs gs : List Function) :
    w.withCalls (fs ++ gs) = (w.withCalls fs).withCalls gs :=
  foldl_append

/-- Reading `call` makes a new object, and leaves the rest of the world as it is. -/
theorem World.live_withCalls (w : World) (f : Function) (formatters : Value) (stages : List (Stage ι)) :
    (w.withCalls [f]).live formatters stages = w.live formatters stages := by
  induction stages with
  | nil => rfl
  | cons s rest ih =>
    rw [live, live, ih]
    rfl

theorem World.holdsFormatter_withCalls (w : World) (f : Function) (formatters : Value) (name : String) :
    (w.withCalls [f]).holdsFormatter formatters name = w.holdsFormatter formatters name := rfl

theorem World.object_withCalls (w : World) (f : Function) :
    (w.withCalls [f]).object w.objects.size = ⟨.bound, [("fn", .function f)]⟩ := by
  simp [World.withCalls, World.newObject, World.object]

end Lookups

section Calls

variable {host : Host} {scope : Scope} {w : World} {e : Env} {f : Function} {name : String} {r : Ref}

theorem World.formatter?_eq_none (h : w.holdsFormatter (.dict r) name = true)
    (hnone : w.formatter? (.dict r) name = none) : ((w.dict r).lookup (.str name)).getD .null = .null := by
  unfold holdsFormatter at h
  unfold formatter? at hnone
  dsimp only at h hnone
  split at h
  · rename_i heq
    rw [heq]
    rfl
  · rename_i heq
    rw [heq]
    rfl
  · rename_i heq
    rw [heq] at hnone
    cases hnone
  · cases h

theorem World.formatter?_eq_some (h : w.holdsFormatter (.dict r) name = true)
    (hsome : w.formatter? (.dict r) name = some f) :
    (w.dict r).lookup (.str name) = some (.function f) ∧ (w.functionAttributes f).lookup "call" = none := by
  unfold holdsFormatter at h
  unfold formatter? at hsome
  dsimp only at h hsome
  split at hsome
  · rename_i heq
    cases hsome
    rw [heq] at h
    exact ⟨heq, Option.isNone_iff_eq_none.1 h⟩
  · cases hsome

theorem World.exists_dict {formatters : Value} (h : w.holdsFormatter formatters name = true) :
    ∃ r, formatters = .dict r := by
  cases formatters with
  | dict r => exact ⟨r, rfl⟩
  | _ => cases h

variable (hkeyword : scope.classify "_formatters_" = .keyword)

include hkeyword

theorem outcome_lookup (he : e.formatters = .dict r) (name : String) (host : Host) (w : World) :
    ((reach ⟨host, host.operate⟩ scope (.member (.name "_formatters_") name)).run e).outcome w =
      (.ok (some (((w.dict r).lookup (.str name)).getD .null), e), w) := by
  have hname : ((reach ⟨host, host.operate⟩ scope (.name "_formatters_")).run e).outcome w =
      (.ok (some (.dict r), e), w) := by
    rw [reach, Direct.readName, outcome_map, outcome_bind, outcome_get, hkeyword]
    dsimp only
    rw [if_neg (by decide), he]
    rfl
  have hpresent : isPresent scope (.name "_formatters_" : Expr Leaf) = true := by
    rw [isPresent, hkeyword]
    rfl
  have hthere : ((Direct.isThere scope (.name "_formatters_" : Expr Leaf) (.dict r)).run e).outcome w =
      (.ok (true, e), w) := by
    rw [Direct.isThere, hpresent]
    rfl
  have hget : (host.operate .get [.dict r, .str name]).outcome w =
      (.ok (((w.dict r).lookup (.str name)).getD .null), w) := by
    rw [Host.operate_of_head (by simp)]
    change (Run.getProperty (.dict r) (.str name)).outcome w = _
    rw [Run.getProperty_dict, World.lookup_str]
    rfl
  rw [reach, outcome_onward_next hname hthere, outcome_map, outcome_lift, hget]

theorem outcome_callee_missing (he : e.formatters = .dict r) (h : ((w.dict r).lookup (.str name)).getD .null = .null) :
    ((reach ⟨host, host.operate⟩ scope (.member (.member (.name "_formatters_") name) "call")).run e).outcome w =
      (.ok (none, e), w) := by
  have hlookup := outcome_lookup hkeyword he name host w
  rw [h] at hlookup
  rw [reach]
  exact outcome_onward_stop hlookup (outcome_isThere rfl _ e w)

theorem outcome_callee (he : e.formatters = .dict r) (hf : (w.dict r).lookup (.str name) = some (.function f))
    (hcall : (w.functionAttributes f).lookup "call" = none) :
    ((reach ⟨host, host.operate⟩ scope (.member (.member (.name "_formatters_") name) "call")).run e).outcome w =
      (.ok (some (.object w.objects.size), e), w.withCalls [f]) := by
  have hlookup := outcome_lookup hkeyword he name host w
  rw [hf, Option.getD_some] at hlookup
  have hget : (host.operate .get [.function f, .str "call"]).outcome w =
      (.ok (.object w.objects.size), w.withCalls [f]) := by
    have hattribute : w.attribute? (.function f) "call" = none := hcall
    rw [Host.operate_of_head (by simp)]
    change (Run.getProperty (.function f) (.str "call")).outcome w = _
    rw [Run.getProperty_other (show w.sequence? (.function f) = none from rfl) nofun nofun, Run.named,
      Run.attributeOf_none hattribute]
    rfl
  have hthere : ((Direct.isThere scope (.member (.name "_formatters_") name : Expr Leaf)
      (.function f)).run e).outcome w = (.ok (true, e), w) := outcome_isThere rfl _ e w
  rw [reach, outcome_onward_next hlookup hthere, outcome_map, outcome_lift, hget]

omit hkeyword

/-- Calling the `call` of a formatter calls the formatter, with the binding context if it wants it. -/
theorem outcome_callValue_bound (h : w.object r = ⟨.bound, [("fn", .function f)]⟩) (this : Value)
    (args : List Value) : (Run.callValue host (.object r) (this :: args)).outcome w =
      (Run.callValue host (.function f)
        (if host.isContextAware w (.function f) then this :: args else args)).outcome w := by
  have hcall : ∀ (fuel : Nat) (args : List Value),
      (Run.callWithin host (fuel + 1) (.function f) args) = Run.callWithin host 1 (.function f) args := by
    intro fuel args
    cases f <;> rfl
  unfold Run.callValue
  rw [Run.outcome_bind, Run.outcome_get, Run.outcome_bind, Run.outcome_get]
  dsimp only
  rw [hcall, Run.callWithin]
  unfold Run.callObject
  rw [Run.outcome_bind, Run.outcome_get]
  dsimp only
  rw [h]
  dsimp only
  rw [Run.outcome_bind, Run.outcome_get]
  change (if host.isContextAware w (.function f) then _ else _ : Run Value).outcome w = _
  split <;> exact congrArg (Run.outcome · w) (hcall _ _)

theorem Direct.whole_some (x : Direct Value) : whole (some <$> x) = x := by
  simp [whole]

theorem Direct.outcome_canBeCalled (host : Host) (v : Value) (e : Env) (w : World) :
    ((Direct.canBeCalled ⟨host, host.operate⟩ v).run e).outcome w = (.ok (w.isCallable v, e), w) := rfl

theorem Direct.values_this_cons (s : Surroundings) (t : Expr Leaf) (ts : List (Expr Leaf)) :
    values s scope (.this :: t :: ts) = do
      let e ← get
      let v ← eval s scope t
      let vs ← values s scope ts
      return e.this :: v :: vs := by
  simp only [values, reach, eval, Direct.whole, bind_assoc, pure_bind, Option.getD_some]

/-- The call of a formatter that is missing is not made, and nothing that is passed is evaluated. -/
theorem outcome_call_missing (hkeyword : scope.classify "_formatters_" = .keyword) {s : Stage Leaf}
    (hs : w.holdsFormatter e.formatters s.name = true) (hnone : w.formatter? e.formatters s.name = none)
    (t : Expr Leaf) : ((eval ⟨host, host.operate⟩ scope (Stage.call t s)).run e).outcome w = (.ok (.null, e), w) := by
  obtain ⟨r, he⟩ := World.exists_dict hs
  rw [he] at hs hnone
  rw [eval, Stage.call, outcome_whole, reach,
    outcome_onward_none (outcome_callee_missing hkeyword he (World.formatter?_eq_none hs hnone))]
  rfl

/-- The call of a formatter is that of its `call` on what is passed. -/
theorem outcome_call (hkeyword : scope.classify "_formatters_" = .keyword) {s : Stage Leaf}
    (hs : w.holdsFormatter e.formatters s.name = true) (hsome : w.formatter? e.formatters s.name = some f)
    (t : Expr Leaf) :
    ((eval ⟨host, host.operate⟩ scope (Stage.call t s)).run e).outcome w =
      ((do
        let v ← eval ⟨host, host.operate⟩ scope t
        let vs ← values ⟨host, host.operate⟩ scope s.arguments
        Run.callValue host (.object w.objects.size) (e.this :: v :: vs) : Direct Value).run e).outcome
          (w.withCalls [f]) := by
  obtain ⟨r, he⟩ := World.exists_dict hs
  rw [he] at hs hsome
  obtain ⟨hf, hattribute⟩ := World.formatter?_eq_some hs hsome
  have hcallable : ((Direct.canBeCalled ⟨host, host.operate⟩ (.object w.objects.size)).run e).outcome
      (w.withCalls [f]) = (.ok (true, e), w.withCalls [f]) := by
    rw [outcome_canBeCalled, World.isCallable, World.object_withCalls]
  rw [eval, Stage.call, reach,
    outcome_whole_onward (outcome_callee hkeyword he hf hattribute) hcallable, values_this_cons]
  simp only [bind_assoc, pure_bind]
  rw [outcome_bind, outcome_get]

end Calls

section Runs

variable {α β : Type} {host : Host} {scope : Scope} {hidden : Ref → Prop} {w : World} {e : Env} {f : Function}

theorem Value.Open.orLast {n : Nat} {v : Value} (h : v.Open n hidden) : v.Open (n + 1) fun r => hidden r ∨ r = n :=
  h.imp fun _ h => ⟨Nat.lt_succ_of_lt h.1, fun h' => h'.elim h.2 (Nat.ne_of_lt h.1)⟩

theorem World.size_withCalls (w : World) (f : Function) : (w.withCalls [f]).objects.size = w.objects.size + 1 :=
  Array.size_push _

theorem World.open_withCalls (f : Function) {v : Value} (h : w.Open hidden v) :
    (w.withCalls [f]).Open (fun r => hidden r ∨ r = w.objects.size) v := by
  rw [World.Open, World.size_withCalls]
  exact h.orLast

theorem World.Hides.withCalls (h : w.Hides hidden) (f : Function) :
    (w.withCalls [f]).Hides fun r => hidden r ∨ r = w.objects.size := by
  have hopen := fun {v} => @World.open_withCalls hidden w f v
  refine ⟨?_, fun items hi v hv => hopen (h.lists items hi v hv), fun items hi v hv => hopen (h.tuples items hi v hv),
    fun entries hi x hx => (h.dicts entries hi x hx).imp hopen hopen, ?_,
    fun g hg a ha => hopen (h.functions g hg a ha)⟩
  · rw [World.size_withCalls]
    rintro r (hr | rfl)
    · exact Nat.lt_succ_of_lt (h.there r hr)
    · exact Nat.lt_succ_self _
  · intro o ho a ha
    rcases Array.mem_push.1 ho with ho | rfl
    · exact hopen (h.objects o ho a ha)
    · rw [mem_singleton.1 ha]
      trivial

theorem Env.Open.withCalls (h : e.Open w hidden) (f : Function) :
    e.Open (w.withCalls [f]) fun r => hidden r ∨ r = w.objects.size :=
  ⟨w.open_withCalls f h.this, w.open_withCalls f h.globals, w.open_withCalls f h.formatters,
    fun a ha => w.open_withCalls f (h.arguments a ha)⟩

/-- What follows an evaluation may be replaced by what is the same as long as the hidden objects are as they were. -/
theorem ConfinesTree.outcome_bind_congr {P : World → α → Prop} {x : Direct α} {k k' : α → Direct β}
    (hx : ConfinesTree hidden e w x P) (hw : w.Hides hidden) (he : e.Open w hidden)
    (h : ∀ a e' w', w.Spares hidden w' → w'.Hides hidden → e'.Open w' hidden → e'.this = e.this →
      ((k a).run e').outcome w' = ((k' a).run e').outcome w') :
    ((x >>= k).run e).outcome w = ((x >>= k').run e).outcome w := by
  have hend := hx he hw
  rw [outcome_bind, outcome_bind]
  rcases hrun : (x.run e).outcome w with ⟨r | ⟨a, e'⟩, w'⟩
  · rfl
  · rw [hrun] at hend
    obtain ⟨hhides, hspares, hresult⟩ := hend
    obtain ⟨-, hopen, hthis⟩ := hresult (a, e') rfl
    exact h a e' w' hspares hhides hopen hthis

theorem Stage.outcome_run (value : Direct Value) (stages : List (Stage Leaf)) (e : Env) (w : World) :
    ((Stage.run host scope value stages).run e).outcome w =
      (((if (w.live e.formatters stages).1 then value else pure .null) >>=
        (w.live e.formatters stages).2.foldlM (Stage.apply host scope) : Direct Value).run e).outcome
          (w.withCalls ((w.live e.formatters stages).2.map (·.1)).reverse) := rfl

theorem Stage.outcome_run_concat {s : Stage Leaf} (hsome : w.formatter? e.formatters s.name = some f)
    (value : Direct Value) (stages : List (Stage Leaf)) :
    ((Stage.run host scope value (stages ++ [s])).run e).outcome w =
      ((Stage.run host scope value stages >>= fun v => Stage.apply host scope v (f, s)).run e).outcome
        (w.withCalls [f]) := by
  have hlive := w.live_concat e.formatters stages s
  rw [hsome] at hlive
  rw [outcome_run, hlive, Direct.outcome_bind_congr (outcome_run value stages e (w.withCalls [f])),
    World.live_withCalls]
  simp only [map_append, map_cons, map_nil, reverse_append, reverse_cons, reverse_nil,
    nil_append, World.withCalls_append, foldlM_append, foldlM_cons, foldlM_nil, bind_pure,
    bind_assoc]

theorem Stage.outcome_run_missing {s : Stage Leaf} (hnone : w.formatter? e.formatters s.name = none)
    (value : Direct Value) (stages : List (Stage Leaf)) :
    ((Stage.run host scope value (stages ++ [s])).run e).outcome w = (.ok (.null, e), w) := by
  have hlive := w.live_concat e.formatters stages s
  rw [hnone] at hlive
  rw [outcome_run, hlive]
  rfl

/-- The nested calls of formatters evaluate as their stages do. -/
theorem Stage.outcome_nest (hhost : host.Confined) (hkeyword : scope.classify "_formatters_" = .keyword)
    (value : Expr Leaf) {stages : List (Stage Leaf)} (hw : w.Hides hidden) (he : e.Open w hidden)
    (hstages : ∀ s ∈ stages, w.holdsFormatter e.formatters s.name = true) :
    ((eval ⟨host, host.operate⟩ scope (Stage.nest value stages)).run e).outcome w =
      ((Stage.run host scope (eval ⟨host, host.operate⟩ scope value) stages).run e).outcome w := by
  -- the last formatter is the outermost call, and its `call` is hidden while the calls within are evaluated
  induction stages using List.reverseRecOn generalizing w hidden with
  | nil =>
    rw [Stage.outcome_run]
    change _ = ((eval ⟨host, host.operate⟩ scope value >>= pure).run e).outcome w
    rw [bind_pure]
    rfl
  | append_singleton stages s ih =>
    obtain ⟨hstages, hs⟩ := forall_mem_append.1 hstages
    rw [forall_mem_singleton] at hs
    rw [Stage.nest, foldl_append]
    change ((eval _ scope (Stage.call (Stage.nest value stages) s)).run e).outcome w = _
    rcases hf : w.formatter? e.formatters s.name with _ | f
    · rw [outcome_call_missing hkeyword hs hf, Stage.outcome_run_missing hf]
    · have hw' := hw.withCalls f
      have he' := he.withCalls f
      have hinner := ih hw' he' fun s hs => (World.holdsFormatter_withCalls ..).trans (hstages s hs)
      rw [outcome_call hkeyword hs hf, Stage.outcome_run_concat hf, ← Direct.outcome_bind_congr hinner]
      refine (confines_reach hhost _).whole.outcome_bind_congr hw' he' fun v e₁ w₁ hw₁ hhides₁ hopen₁ hthis₁ => ?_
      refine (confines_values hhost _).outcome_bind_congr hhides₁ hopen₁ fun vs e₂ w₂ hw₂ _ _ hthis₂ => ?_
      have hbound : w₂.object w.objects.size = ⟨.bound, [("fn", .function f)]⟩ := by
        rw [(hw₁.trans hw₂).object _ (.inr rfl), World.object_withCalls]
      rw [outcome_lift, outcome_callValue_bound hbound, ← outcome_lift _ e₂, ← hthis₁, ← hthis₂]
      rfl

end Runs

section Places

/-- Where a value is stored. -/
inductive Place where
  | argument (name : String)
  | property (obj key : Value)

namespace Direct

/-- Finds the place that a target stands for. There is none if the object that it would be in is missing. -/
def place (s : Surroundings) (scope : Scope) : Expr Leaf → Direct (Option Place)
  | .name n =>
    match scope.classify n with
    | .argument => return some (.argument n)
    | .global => return some (.property (← get).globals (.str n))
    | .keyword => throw .mistyped
    | .context => return some (.property (← get).this (.str n))
  | .member target name => do
    let obj ← onward (reach s scope target) (isThere scope target) pure
    return obj.map (.property · (.str name))
  | .index target key => do
    match ← onward (reach s scope target) (isThere scope target) pure with
    | none => return none
    | some obj => return some (.property obj (← whole (reach s scope key)))
  | _ => throw .mistyped

def store (s : Surroundings) (v : Value) : Place → Direct Value
  | .argument name => do
    modify (·.setArgument name v)
    return v
  | .property obj key => s.operate .set [obj, key, v]

def assignTo (s : Surroundings) (scope : Scope) (target : Expr Leaf) (value : Direct Value) : Direct Value := do
  match ← place s scope target with
  | none => return .null
  | some p => store s (← value) p

theorem whole_onward (x : Direct (Option Value)) (test : Value → Direct Bool) (next : Value → Direct Value) :
    whole (onward x test next) = onward x test pure >>= fun o => o.elim (pure .null) next := by
  unfold whole onward
  rw [bind_assoc, bind_assoc]
  refine congrArg (x >>= ·) (funext fun o => ?_)
  rcases o with _ | v
  · rfl
  · dsimp only
    rw [bind_assoc, bind_assoc]
    refine congrArg (test v >>= ·) (funext fun b => ?_)
    cases b
    · rfl
    · simp

/-- An assignment finds the place of its target, evaluates its value and stores it there. -/
theorem eval_assign (s : Surroundings) (scope : Scope) (target value : Expr Leaf) :
    eval s scope (.assign target value) = assignTo s scope target (eval s scope value) := by
  unfold eval assignTo
  cases target with
  | name n =>
    rw [reach, whole_some, place, writeName]
    rcases scope.classify n with _ | _ | _ | _ <;> rfl
  | member target name =>
    rw [reach, whole_some, whole_onward, place, bind_assoc]
    refine congrArg (_ >>= ·) (funext fun o => ?_)
    cases o <;> rfl
  | index target key =>
    rw [reach, whole_some, whole_onward, place, bind_assoc]
    refine congrArg (_ >>= ·) (funext fun o => ?_)
    rcases o with _ | obj
    · rfl
    · simp only [Option.elim, bind_assoc, pure_bind, store]
  | _ =>
    simp only [reach, place]
    rfl

end Direct

variable {host : Host} {scope : Scope} {hidden : Ref → Prop} {w : World} {e : Env}

theorem confines_place (hhost : host.Confined) (scope : Scope) (target : Expr Leaf) :
    ConfinesTree hidden e w (place ⟨host, host.operate⟩ scope target) fun _ _ => True := by
  have hobject : ∀ t : Expr Leaf, ConfinesTree hidden e w
      (Direct.onward (reach ⟨host, host.operate⟩ scope t) (Direct.isThere scope t) pure) (OpenReached hidden) :=
    fun t => (confines_reach hhost t).onward (fun v _ _ _ _ => .isThere t v) fun v _ _ _ hv => .pure hv
  unfold place
  split
  · split
    · exact .pure trivial
    · exact .get_bind fun _ => .pure trivial
    · exact .throw _
    · exact .get_bind fun _ => .pure trivial
  · exact (hobject _).bind fun _ _ _ _ _ _ => .pure trivial
  · refine (hobject _).bind fun o _ _ _ _ _ => ?_
    cases o
    · exact .pure trivial
    · exact (confines_reach hhost _).whole.bind fun _ _ _ _ _ _ => .pure trivial
  · exact .throw _

end Places

/-- A value that formatters are called on, one after the other. -/
structure Piped (ι : Type) where
  target : Option (Expr ι)
  value : Expr ι
  stages : List (Stage ι)

namespace Piped

/-- The stages as they are called. Where the value is assigned, the first formatter is told so. -/
def calls {ι : Type} (p : Piped ι) : List (Stage ι) :=
  match p.target, p.stages with
  | some _, s :: rest => { s with arguments := s.arguments ++ [Expr.constant .yes] } :: rest
  | _, stages => stages

def tree {ι : Type} (p : Piped ι) : Expr ι :=
  match p.target with
  | none => Stage.nest p.value p.calls
  | some target => .assign target (Stage.nest p.value p.calls)

variable {host : Host} {scope : Scope} {hidden : Ref → Prop} {w : World} {e : Env} {p : Piped Leaf}

/-- The value of a pipeline, stage by stage. It is stored where the target stands for, which is found first. -/
def run (host : Host) (scope : Scope) (p : Piped Leaf) : Direct Value :=
  let value := Stage.run host scope (eval ⟨host, host.operate⟩ scope p.value) p.calls
  match p.target with
  | none => value
  | some target => assignTo ⟨host, host.operate⟩ scope target value

/-- The formatters are missing or functions without a `call` of their own, when the stages begin. -/
def Fits (p : Piped Leaf) (host : Host) (scope : Scope) (e : Env) (w : World) : Prop :=
  match p.target with
  | none => ∀ s ∈ p.stages, w.holdsFormatter e.formatters s.name = true
  | some target => ∀ place e' w',
      ((Direct.place ⟨host, host.operate⟩ scope target).run e).outcome w = (.ok (some place, e'), w') →
        ∀ s ∈ p.stages, w'.holdsFormatter e'.formatters s.name = true

theorem forall_calls {P : String → Prop} (h : ∀ s ∈ p.stages, P s.name) : ∀ s ∈ p.calls, P s.name := by
  rcases p with ⟨_ | target, value, _ | ⟨s, rest⟩⟩
  · exact h
  · exact h
  · exact h
  · obtain ⟨hs, hrest⟩ := forall_mem_cons.1 h
    exact forall_mem_cons.2 ⟨hs, hrest⟩

theorem outcome_eval (hhost : host.Confined) (hkeyword : scope.classify "_formatters_" = .keyword) (hw : w.Hides hidden)
    (he : e.Open w hidden) (hp : p.Fits host scope e w) :
    ((eval ⟨host, host.operate⟩ scope p.tree).run e).outcome w = ((p.run host scope).run e).outcome w := by
  unfold Fits at hp
  unfold tree run
  rcases htarget : p.target with _ | target <;> rw [htarget] at hp
  · exact Stage.outcome_nest hhost hkeyword p.value hw he
      (forall_calls (P := (w.holdsFormatter e.formatters · = true)) hp)
  · dsimp only at hp ⊢
    rw [eval_assign]
    have hend := confines_place hhost scope target he hw
    unfold assignTo
    rw [outcome_bind, outcome_bind]
    rcases hplace : ((place ⟨host, host.operate⟩ scope target).run e).outcome w with ⟨r | ⟨_ | place, e'⟩, w'⟩
    · rfl
    · rfl
    · rw [hplace] at hend
      obtain ⟨hhides, -, hresult⟩ := hend
      obtain ⟨-, hopen, -⟩ := hresult _ rfl
      have hcalls := forall_calls (P := (w'.holdsFormatter e'.formatters · = true)) (hp place e' w' hplace)
      exact Direct.outcome_bind_congr (Stage.outcome_nest hhost hkeyword p.value hhides hopen hcalls) _

end Piped

end NullSafe
