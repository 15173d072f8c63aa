import Mathlib.Data.List.Dedup
import Mathlib.Data.List.DropRight
import NullSafe.Proofs.Requests

/-! # The cache over whole runs

A run is a sequence of requests, clearings and changes of registries, with whatever else happens in the world
between them. What a compiler remembers is told by what was seen of the run: one object for each request
answered since its cache was last cleared, and nothing at all if it does not remember answers.
-/

open NullSafe.Action

namespace NullSafe.Service

open List

inductive Step where
  | ask (place : Nat) (setter : Bool) (expression globals formatters : Value) (arguments : List Value)
  | clearCache (place : Nat)
  | register (registry : Nat) (name v : Value)
  | update (registry : Nat) (values : Value)
  | unregister (registry : Nat) (name : Value)
  /-- Values are made and changed. No mapping is ever given up. -/
  | evolve (change : World → World) (keeps : ∀ w, w.dicts.size ≤ (change w).dicts.size)

inductive Event where
  | answered (place : Nat) (r : Request) (x : Compiled)
  | failed (place : Nat)
  | cleared (place : Nat)
  | other

def Step.take : Step → Service → Event × Service
  | ask i setter expression globals formatters arguments, s =>
    match requestOf s.world setter expression arguments,
      (Service.ask i setter expression globals formatters arguments).outcome s with
    | .ok r, (.ok x, s') => (.answered i r x, s')
    | _, (_, s') => (.failed i, s')
  | clearCache i, s => (.cleared i, ((Service.clearCache i).outcome s).2)
  | register i name v, s => (.other, ((changeRegistry i fun r w => r.register w name v).outcome s).2)
  | update i values, s => (.other, ((updateRegistry i values).outcome s).2)
  | unregister i name, s => (.other, ((changeRegistry i fun r w => r.unregister w name).outcome s).2)
  | evolve change _, s => (.other, { s with world := change s.world })

def run : List Step → Service → List Event × Service
  | [], s => ([], s)
  | step :: steps, s => ((step.take s).1 :: (run steps (step.take s).2).1, (run steps (step.take s).2).2)

/-- An object is what its own request is compiled to with the globals that it has in a world. -/
def Made (config : Config) (x : Compiled) (w : World) : Prop :=
  Compile.run config.functionName (entryNames (w.dict x.globals)) x.request = .ok ⟨x.program, x.source⟩

section Steps

variable {i : Nat} {s : Service}

/-- What a step can do to the compiler at a place. -/
inductive Takes (i : Nat) (s : Service) : Event × Service → Prop where
  | reused {r : Request} {x : Compiled} {s' : Service} (hx : (s.compilerAt i).cached? r = some x)
      (hplaces : s.world.dicts.size ≤ s'.world.dicts.size) (hcompiler : s'.compilers[i]? = s.compilers[i]?) :
      Takes i s (.answered i r x, s')
  | compiled {r : Request} {x : Compiled} {s' : Service} (hx : (s.compilerAt i).cached? r = none)
      (hr : x.request = r) (hglobals : x.globals = s.world.dicts.size)
      (hmade : Made (s.compilerAt i).config x s'.world) (hplaces : s.world.dicts.size < s'.world.dicts.size)
      (hcompiler : s'.compilers = s.compilers.setIfInBounds i ((s.compilerAt i).remember r x)) :
      Takes i s (.answered i r x, s')
  | cleared {s' : Service} (hplaces : s.world.dicts.size ≤ s'.world.dicts.size)
      (hcompiler : s'.compilers = s.compilers.setIfInBounds i (s.compilerAt i).forget) :
      Takes i s (.cleared i, s')
  /-- The step is not about the compiler, or it is a request that failed. -/
  | aside {e : Event} {s' : Service} (hanswered : ∀ r x, e ≠ .answered i r x) (hcleared : e ≠ .cleared i)
      (hplaces : s.world.dicts.size ≤ s'.world.dicts.size) (hcompiler : s'.compilers[i]? = s.compilers[i]?) :
      Takes i s (e, s')

theorem outcome_changeRegistry (k : Nat) (f : Registry → World → Except Registry.Fault Registry) (s : Service) :
    ((changeRegistry k f).outcome s).2.world = s.world ∧
      ((changeRegistry k f).outcome s).2.compilers = s.compilers := by
  rw [changeRegistry, outcome_bind, outcome_get]
  dsimp only
  split <;> exact ⟨rfl, rfl⟩

theorem outcome_updateRegistry (k : Nat) (values : Value) (s : Service) :
    ((updateRegistry k values).outcome s).2.world = s.world ∧
      ((updateRegistry k values).outcome s).2.compilers = s.compilers := by
  rw [updateRegistry, outcome_bind, outcome_get]
  dsimp only
  rw [outcome_bind, outcome_set]
  dsimp only
  split <;> exact ⟨rfl, rfl⟩

@[simp] theorem world_reportReuse (s : Service) (x : Compiled) (b : Bool) : (s.reportReuse x b).world = s.world := by
  cases b <;> rfl

@[simp] theorem compilers_reportReuse (s : Service) (x : Compiled) (b : Bool) :
    (s.reportReuse x b).compilers = s.compilers := by
  cases b <;> rfl

theorem takes_ask (i j : Nat) (setter : Bool) (expression globals formatters : Value) (arguments : List Value)
    (s : Service) : Takes i s ((Step.ask j setter expression globals formatters arguments).take s) := by
  rw [Step.take, outcome_ask]
  rcases requestOf s.world setter expression arguments with f | r
  · exact .aside nofun nofun le_rfl rfl
  dsimp only
  have hanswers := answers_compile j r globals formatters s
  generalize (compile j r globals formatters).outcome s = out at hanswers ⊢
  cases hanswers with
  | incomparable hx he => exact .aside nofun nofun le_rfl rfl
  | failed hx hp => exact .aside nofun nofun le_rfl rfl
  | reused hx hb =>
    by_cases hj : j = i
    · subst hj
      exact .reused hx (by simp) (by simp)
    · exact .aside (fun r x h => hj (Event.answered.inj h).1) nofun (by simp) (by simp)
  | @compiled entries _ x s' hx hp hx' hworld hregistries hcompilers =>
    have hplaces : s.world.dicts.size < s'.world.dicts.size := by
      rw [hworld]
      exact s.world.size_dicts_bind entries formatters
    by_cases hj : j = i
    · subst hj
      have hmade : Made (s.compilerAt j).config x s'.world := by
        have hdict : s'.world.dict s.world.dicts.size = entries := by
          rw [hworld]
          exact s.world.dict_bind entries formatters
        rw [Made, hx', hdict]
        exact (run_of_prepare hp).2
      exact .compiled hx (by rw [hx']) (by rw [hx']) hmade hplaces hcompilers
    · refine .aside (fun r x h => hj (Event.answered.inj h).1) nofun hplaces.le ?_
      rw [hcompilers, Array.getElem?_setIfInBounds_ne hj]

theorem takes_take (i : Nat) (step : Step) (s : Service) : Takes i s (step.take s) := by
  cases step with
  | ask j setter expression globals formatters arguments => exact takes_ask ..
  | clearCache j =>
    by_cases hj : j = i
    · subst hj
      exact .cleared le_rfl rfl
    · exact .aside nofun (fun h => hj (Event.cleared.inj h)) le_rfl (Array.getElem?_setIfInBounds_ne hj)
  | register k name v =>
    obtain ⟨hworld, hcompilers⟩ := outcome_changeRegistry k (fun r w => r.register w name v) s
    exact .aside nofun nofun (by rw [hworld]) (by rw [hcompilers])
  | update k values =>
    obtain ⟨hworld, hcompilers⟩ := outcome_updateRegistry k values s
    exact .aside nofun nofun (by rw [hworld]) (by rw [hcompilers])
  | unregister k name =>
    obtain ⟨hworld, hcompilers⟩ := outcome_changeRegistry k (fun r w => r.unregister w name) s
    exact .aside nofun nofun (by rw [hworld]) (by rw [hcompilers])
  | evolve change keeps => exact .aside nofun nofun (keeps s.world) rfl

end Steps

section Records

variable {cache : List (Request × Compiled)}

/-- What is remembered after an event at a place, if it was remembered what is given. -/
def note (i : Nat) (cache : List (Request × Compiled)) : Event → List (Request × Compiled)
  | .answered j r x => if j = i ∧ cache.lookup r = none then cache ++ [(r, x)] else cache
  | .cleared j => if j = i then [] else cache
  | _ => cache

def remembered (i : Nat) (es : List Event) : List (Request × Compiled) := es.foldl (note i) []

variable {i : Nat} {e : Event} {es : List Event} {r : Request} {x : Compiled}

theorem remembered_concat (i : Nat) (es : List Event) (e : Event) :
    remembered i (es ++ [e]) = note i (remembered i es) e := by
  rw [remembered, foldl_concat]
  rfl

theorem note_miss (h : cache.lookup r = none) : note i cache (.answered i r x) = cache ++ [(r, x)] := if_pos ⟨rfl, h⟩

theorem note_hit {y : Compiled} (h : cache.lookup r = some y) : note i cache (.answered i r x) = cache :=
  if_neg fun hnone => Option.some_ne_none y (h.symm.trans hnone.2)

theorem note_cleared (cache : List (Request × Compiled)) : note i cache (.cleared i) = [] := if_pos rfl

theorem note_aside (cache : List (Request × Compiled)) (hanswered : ∀ r x, e ≠ .answered i r x)
    (hcleared : e ≠ .cleared i) : note i cache e = cache := by
  cases e with
  | answered j r x => exact if_neg fun h => hanswered r x (by rw [h.1])
  | cleared j => exact if_neg fun h => hcleared (by rw [h])
  | failed | other => rfl

theorem lookup_note (h : cache.lookup r = some x) (he : e ≠ .cleared i) : (note i cache e).lookup r = some x := by
  by_cases hanswered : ∃ r' x', e = .answered i r' x'
  · obtain ⟨r', x', rfl⟩ := hanswered
    cases hr' : cache.lookup r' with
    | some y => rwa [note_hit hr']
    | none => rw [note_miss hr', lookup_append, h, Option.some_or]
  · rwa [note_aside cache (fun r' x' h' => hanswered ⟨r', x', h'⟩) he]

theorem answered_of_mem_remembered (h : (r, x) ∈ remembered i es) : .answered i r x ∈ es := by
  induction es using List.reverseRecOn with
  | nil => cases h
  | append_singleton es e ih =>
    rw [remembered_concat] at h
    rw [mem_append, mem_singleton]
    cases e with
    | answered j r' x' =>
      rw [note] at h
      split at h
      · rename_i hj
        rcases mem_append.1 h with h | h
        · exact .inl (ih h)
        · cases mem_singleton.1 h
          exact .inr (by rw [hj.1])
      · exact .inl (ih h)
    | cleared j =>
      rw [note] at h
      split at h
      · cases h
      · exact .inl (ih h)
    | failed | other => exact .inl (ih h)

/-- The compiler at a place remembers what the events of a run say, and they say what it may. -/
structure Recorded (i : Nat) (c : Compiler) (es : List Event) (s : Service) : Prop where
  compiler : s.compilers[i]? = some { c with cache := remembered i es }
  places : ∀ r x, .answered i r x ∈ es → x.request = r ∧ x.globals < s.world.dicts.size
  apart : ∀ r x r' y, .answered i r x ∈ es → .answered i r' y ∈ es → x.globals = y.globals → r = r'
  current : ∀ before r x after, es = before ++ Event.answered i r x :: after → Event.cleared i ∉ after →
    (remembered i es).lookup r = some x
  same : ∀ before r x between y after,
    es = before ++ Event.answered i r x :: (between ++ Event.answered i r y :: after) → Event.cleared i ∉ between →
      x = y

variable {c : Compiler} {s s' : Service}

theorem compilerAt_eq (h : s.compilers[i]? = some c) : s.compilerAt i = c := by
  rw [compilerAt, h, Option.getD_some]

theorem getElem?_setIfInBounds {c' : Compiler} (h : s.compilers[i]? = some c) :
    (s.compilers.setIfInBounds i c')[i]? = some c' := by
  rw [Array.getElem?_setIfInBounds_self, if_pos (Array.getElem?_eq_some_iff.1 h).1]

theorem append_cons_concat {α : Type} {es before after : List α} {a e : α} (h : es ++ [e] = before ++ a :: after) :
    (after = [] ∧ es = before ∧ e = a) ∨ ∃ rest, after = rest ++ [e] ∧ es = before ++ a :: rest := by
  induction after using List.reverseRecOn with
  | nil =>
    obtain ⟨hes, he⟩ := append_inj' h rfl
    exact .inl ⟨rfl, hes, singleton_inj.1 he⟩
  | append_singleton rest e' _ =>
    rw [← cons_append, ← append_assoc] at h
    obtain ⟨hes, he⟩ := append_inj' h rfl
    exact .inr ⟨rest, by rw [singleton_inj.1 he], hes⟩

namespace Recorded

theorem nil (h : s.compilers[i]? = some c) (hempty : c.cache = []) : Recorded i c [] s :=
  ⟨by rw [h, ← show c.cache = remembered i [] from hempty], by simp, by simp, by simp, by simp⟩

variable (h : Recorded i c es s)

include h

theorem cached?_eq (hc : c.config.cacheEnabled = true) (r : Request) :
    (s.compilerAt i).cached? r = (remembered i es).lookup r := by
  rw [compilerAt_eq h.compiler]
  exact if_pos hc

/-- One more event. An answer is the remembered one, or a new object if none is. -/
theorem concat (hplaces : s.world.dicts.size ≤ s'.world.dicts.size)
    (hcompiler : s'.compilers[i]? = some { c with cache := note i (remembered i es) e })
    (hanswer : ∀ r x, e = .answered i r x → (remembered i es).lookup r = some x ∨
      ((remembered i es).lookup r = none ∧ x.request = r ∧ s.world.dicts.size ≤ x.globals ∧
        x.globals < s'.world.dicts.size)) : Recorded i c (es ++ [e]) s' := by
  have hold : ∀ r x, .answered i r x ∈ es ++ [e] → .answered i r x ∈ es ∨
      (.answered i r x = e ∧ x.request = r ∧ s.world.dicts.size ≤ x.globals ∧ x.globals < s'.world.dicts.size) := by
    intro r x hmem
    rcases mem_append.1 hmem with hmem | hmem
    · exact .inl hmem
    · have he := mem_singleton.1 hmem
      rcases hanswer r x he.symm with hhit | ⟨-, hnew⟩
      · exact .inl (answered_of_mem_remembered (mem_of_lookup_eq_some hhit))
      · exact .inr ⟨he, hnew⟩
  refine ⟨by rw [remembered_concat, hcompiler], ?_, ?_, ?_, ?_⟩
  · intro r x hmem
    rcases hold r x hmem with hmem | ⟨-, hr, -, hx⟩
    · obtain ⟨hr, hx⟩ := h.places r x hmem
      exact ⟨hr, hx.trans_le hplaces⟩
    · exact ⟨hr, hx⟩
  · intro r x r' y hmem hmem' hxy
    rcases hold r x hmem with hmem | ⟨he, -, hx, -⟩ <;> rcases hold r' y hmem' with hmem' | ⟨he', -, hy, -⟩
    · exact h.apart r x r' y hmem hmem' hxy
    · exact absurd (hxy ▸ (h.places r x hmem).2) (Nat.not_lt.2 hy)
    · exact absurd (hxy ▸ (h.places r' y hmem').2) (Nat.not_lt.2 hx)
    · exact (Event.answered.inj (he.trans he'.symm)).2.1
  · intro before r x after hes hafter
    rw [remembered_concat]
    rcases append_cons_concat hes with ⟨-, -, rfl⟩ | ⟨rest, rfl, hrest⟩
    · rcases hanswer r x rfl with hhit | ⟨hmiss, -⟩
      · rwa [note_hit hhit]
      · rw [note_miss hmiss, lookup_append, hmiss, Option.none_or]
        exact lookup_cons_self
    · rw [mem_append, not_or] at hafter
      exact lookup_note (h.current before r x rest hrest hafter.1) fun he => hafter.2 (by rw [he]; exact .head _)
  · intro before r x between y after hes hbetween
    rw [← cons_append, ← append_assoc] at hes
    rcases append_cons_concat hes with ⟨-, hrest, rfl⟩ | ⟨rest, rfl, hrest⟩
    · have hx := h.current before r x between hrest hbetween
      rcases hanswer r y rfl with hhit | ⟨hmiss, -⟩
      · exact Option.some.inj (hx.symm.trans hhit)
      · rw [hmiss] at hx
        cases hx
    · exact h.same before r x between y rest (by rw [hrest, append_assoc, cons_append]) hbetween

theorem step (hc : c.config.cacheEnabled = true) {p : Event × Service}
    (ht : Takes i s p) : Recorded i c (es ++ [p.1]) p.2 := by
  cases ht with
  | reused hx hplaces hcompiler =>
    rw [h.cached?_eq hc] at hx
    refine h.concat hplaces ?_ ?_
    · rw [note_hit hx, hcompiler, h.compiler]
    · rintro r x ⟨⟩
      exact .inl hx
  | compiled hx hr hglobals _ hplaces hcompiler =>
    rw [h.cached?_eq hc] at hx
    refine h.concat hplaces.le ?_ ?_
    · rw [hcompiler, getElem?_setIfInBounds h.compiler, compilerAt_eq h.compiler, note_miss hx]
      exact congrArg some (if_pos hc)
    · rintro r x ⟨⟩
      exact .inr ⟨hx, hr, hglobals.ge, hglobals ▸ hplaces⟩
  | cleared hplaces hcompiler =>
    refine h.concat hplaces ?_ nofun
    rw [hcompiler, getElem?_setIfInBounds h.compiler, compilerAt_eq h.compiler, note_cleared]
    rfl
  | aside hanswered hcleared hplaces hcompiler =>
    refine h.concat hplaces ?_ fun r x he => absurd he (hanswered r x)
    rw [note_aside _ hanswered hcleared, hcompiler, h.compiler]

theorem run (hc : c.config.cacheEnabled = true) (steps : List Step) :
    Recorded i c (es ++ (Service.run steps s).1) (Service.run steps s).2 := by
  induction steps generalizing es s with
  | nil => rwa [Service.run, append_nil]
  | cons step steps ih =>
    have hrest := ih (h.step hc (takes_take i step s))
    rwa [append_assoc, singleton_append] at hrest

end Recorded

end Records

section Requests

/-- Whether an event clears the cache of the compiler at a place. -/
def Event.clears (i : Nat) : Event → Bool
  | cleared j => j = i
  | _ => false

def Event.request? (i : Nat) : Event → Option Request
  | answered j r _ => if j = i then some r else none
  | _ => none

def requestsSinceClear (i : Nat) (es : List Event) : List Request :=
  (es.rtakeWhile fun e => !e.clears i).filterMap (·.request? i)

theorem requestsSinceClear_cleared (i : Nat) (es : List Event) :
    requestsSinceClear i (es ++ [Event.cleared i]) = [] := by
  rw [requestsSinceClear, rtakeWhile_concat, if_neg (by simp [Event.clears])]
  rfl

theorem requestsSinceClear_answered (i : Nat) (es : List Event) (r : Request) (x : Compiled) :
    requestsSinceClear i (es ++ [Event.answered i r x]) = requestsSinceClear i es ++ [r] := by
  rw [requestsSinceClear, rtakeWhile_concat, if_pos (by rfl), filterMap_append]
  simp [Event.request?, requestsSinceClear]

theorem requestsSinceClear_aside {i : Nat} {e : Event} (es : List Event)
    (hanswered : ∀ r x, e ≠ .answered i r x) (hcleared : e ≠ .cleared i) :
    requestsSinceClear i (es ++ [e]) = requestsSinceClear i es := by
  have hclears : e.clears i = false := by
    cases e with
    | cleared j => exact decide_eq_false fun h => hcleared (by rw [h])
    | answered | failed | other => rfl
  have hrequest : e.request? i = none := by
    cases e with
    | answered j r x => exact if_neg fun h => hanswered r x (by rw [h])
    | cleared | failed | other => rfl
  rw [requestsSinceClear, rtakeWhile_concat, if_pos (by rw [hclears]; rfl), filterMap_append]
  simp [hrequest, requestsSinceClear]

theorem not_mem_of_lookup {cache : List (Request × Compiled)} {r : Request} (h : cache.lookup r = none) :
    r ∉ cache.map Prod.fst := by
  intro hmem
  obtain ⟨p, hp, rfl⟩ := mem_map.1 hmem
  simpa using lookup_eq_none_iff.1 h p hp

/-- A compiler remembers each request that it answered since its cache was last cleared, and each once. -/
theorem requests_remembered (i : Nat) (es : List Event) :
    ((remembered i es).map Prod.fst).Nodup ∧ ∀ r, r ∈ (remembered i es).map Prod.fst ↔ r ∈ requestsSinceClear i es := by
  induction es using List.reverseRecOn with
  | nil => exact ⟨nodup_nil, fun _ => Iff.rfl⟩
  | append_singleton es e ih =>
    obtain ⟨hnodup, hmem⟩ := ih
    rw [remembered_concat]
    by_cases hcleared : e = .cleared i
    · subst hcleared
      rw [note_cleared, requestsSinceClear_cleared]
      exact ⟨nodup_nil, fun _ => Iff.rfl⟩
    by_cases hanswered : ∃ r x, e = .answered i r x
    · obtain ⟨r, x, rfl⟩ := hanswered
      rw [requestsSinceClear_answered]
      cases hr : (remembered i es).lookup r with
      | none =>
        have hconcat := hnodup.concat (not_mem_of_lookup hr)
        rw [concat_eq_append] at hconcat
        rw [note_miss hr, map_append]
        refine ⟨hconcat, fun r' => ?_⟩
        rw [mem_append, mem_append, hmem]
        exact Iff.rfl
      | some y =>
        have hold : r ∈ requestsSinceClear i es := (hmem r).1 (mem_map_of_mem (mem_of_lookup_eq_some hr))
        rw [note_hit hr]
        refine ⟨hnodup, fun r' => ?_⟩
        rw [hmem, mem_append, mem_singleton]
        exact ⟨.inl, fun h => h.elim id fun h => h ▸ hold⟩
    · have hno : ∀ r x, e ≠ .answered i r x := fun r x h => hanswered ⟨r, x, h⟩
      rw [note_aside _ hno hcleared, requestsSinceClear_aside es hno hcleared]
      exact ⟨hnodup, hmem⟩

theorem length_remembered (i : Nat) (es : List Event) :
    (remembered i es).length = (requestsSinceClear i es).dedup.length := by
  obtain ⟨hnodup, hmem⟩ := requests_remembered i es
  have hperm : ((remembered i es).map Prod.fst).Perm (requestsSinceClear i es).dedup :=
    (perm_ext_iff_of_nodup hnodup (nodup_dedup _)).2 fun r => by rw [hmem, mem_dedup]
  rw [← hperm.length_eq, length_map]

end Requests

section Renewal

/-- The object with which the compiler at a place answers in an event, by the place of its globals. -/
def Event.object? (i : Nat) : Event → Option Ref
  | answered j _ x => if j = i then some x.globals else none
  | _ => none

/-- A compiler that does not remember answers gave only objects that are new since the start of a run. -/
structure Renewed (i : Nat) (c : Compiler) (start : Nat) (es : List Event) (s : Service) : Prop where
  compiler : s.compilers[i]? = some c
  new : ∀ o ∈ es.filterMap (Event.object? i), start ≤ o ∧ o < s.world.dicts.size
  apart : (es.filterMap (Event.object? i)).Nodup
  later : start ≤ s.world.dicts.size

variable {i start : Nat} {c : Compiler} {es : List Event} {s : Service}

theorem Renewed.step (h : Renewed i c start es s) (hc : c.config.cacheEnabled = false) (hempty : c.cache = [])
    {p : Event × Service} (ht : Takes i s p) : Renewed i c start (es ++ [p.1]) p.2 := by
  have hcached : ∀ r, (s.compilerAt i).cached? r = none := fun r => by
    rw [compilerAt_eq h.compiler]
    exact if_neg (by rw [hc]; exact Bool.false_ne_true)
  have haside : ∀ {e : Event} {s' : Service}, e.object? i = none →
      s.world.dicts.size ≤ s'.world.dicts.size → s'.compilers[i]? = some c → Renewed i c start (es ++ [e]) s' := by
    intro e s' he hplaces hcompiler
    have hobjects : (es ++ [e]).filterMap (Event.object? i) = es.filterMap (Event.object? i) := by
      simp [he]
    refine ⟨hcompiler, ?_, hobjects ▸ h.apart, h.later.trans hplaces⟩
    rw [hobjects]
    exact fun o ho => ⟨(h.new o ho).1, (h.new o ho).2.trans_le hplaces⟩
  cases ht with
  | reused hx => rw [hcached] at hx; cases hx
  | @compiled r x s' hx hr hglobals _ hplaces hcompiler =>
    have hobjects : (es ++ [Event.answered i r x]).filterMap (Event.object? i) =
        es.filterMap (Event.object? i) ++ [s.world.dicts.size] := by
      simp [Event.object?, hglobals]
    refine ⟨?_, ?_, ?_, h.later.trans hplaces.le⟩
    · rw [hcompiler, getElem?_setIfInBounds h.compiler, compilerAt_eq h.compiler]
      exact congrArg some (if_neg (by rw [hc]; exact Bool.false_ne_true))
    · rw [hobjects]
      intro o ho
      rcases mem_append.1 ho with ho | ho
      · exact ⟨(h.new o ho).1, (h.new o ho).2.trans hplaces⟩
      · rw [mem_singleton.1 ho]
        exact ⟨h.later, hplaces⟩
    · rw [hobjects, ← concat_eq_append]
      exact h.apart.concat fun ho => (h.new _ ho).2.false
  | cleared hplaces hcompiler =>
    refine haside rfl hplaces ?_
    rw [hcompiler, getElem?_setIfInBounds h.compiler, compilerAt_eq h.compiler, Compiler.forget, ← hempty]
  | @aside e s' hanswered hcleared hplaces hcompiler =>
    refine haside ?_ hplaces (hcompiler.trans h.compiler)
    cases e with
    | answered j r x => exact if_neg fun hj => hanswered r x (by rw [hj])
    | cleared | failed | other => rfl

theorem Renewed.run (h : Renewed i c start es s) (hc : c.config.cacheEnabled = false) (hempty : c.cache = [])
    (steps : List Step) : Renewed i c start (es ++ (Service.run steps s).1) (Service.run steps s).2 := by
  induction steps generalizing es s with
  | nil => rwa [Service.run, append_nil]
  | cons step steps ih =>
    have hrest := ih (h.step hc hempty (takes_take i step s))
    rwa [append_assoc, singleton_append] at hrest

end Renewal

section Runs

/-- What a compiler that remembers answers does over a run. -/
structure Remembers (i : Nat) (es : List Event) (c : Compiler) : Prop where
  /-- Under a request there is an object for it. -/
  keyed : ∀ r x, (r, x) ∈ c.cache → x.request = r
  /-- A request gets the same object until the cache is cleared. -/
  same : ∀ before r x between y after,
    es = before ++ Event.answered i r x :: (between ++ Event.answered i r y :: after) → Event.cleared i ∉ between →
      x = y
  /-- Different requests never get the same object. -/
  apart : ∀ r x r' y, .answered i r x ∈ es → .answered i r' y ∈ es → r ≠ r' → x.globals ≠ y.globals
  /-- There is one object for each request answered since the cache was last cleared. -/
  size : c.cacheSize = (requestsSinceClear i es).dedup.length

/-- What a compiler that does not remember answers does over a run, before which there were mappings at the
places below the given one. -/
structure Renews (i start : Nat) (es : List Event) (c : Compiler) : Prop where
  new : ∀ r x, .answered i r x ∈ es → start ≤ x.globals
  apart : (es.filterMap (Event.object? i)).Nodup
  size : c.cacheSize = 0

theorem compiler_addCompiler (config : Config) (registry : Option Nat) (s : Service) :
    ∃ k, ((addCompiler config registry).outcome s).2.compilers[s.compilers.size]? = some ⟨config, k, []⟩ := by
  cases registry with
  | some k => exact ⟨k, Array.getElem?_push_size⟩
  | none => exact ⟨s.registries.size, Array.getElem?_push_size⟩

/-- Over every run, a new compiler keeps one object for each request until its cache is cleared, or makes a new
object for every answer, as its settings say. -/
theorem run_cache (s₀ : Service) (config : Config) (registry : Option Nat) (steps : List Step) :
    let s := ((addCompiler config registry).outcome s₀).2
    let es := (run steps s).1
    let c := (run steps s).2.compilerAt s₀.compilers.size
    if config.cacheEnabled then Remembers s₀.compilers.size es c
    else Renews s₀.compilers.size s.world.dicts.size es c := by
  intro s es c
  obtain ⟨k, hcompiler⟩ := compiler_addCompiler config registry s₀
  split
  · rename_i hc
    have hrun : Recorded s₀.compilers.size ⟨config, k, []⟩ es (run steps s).2 :=
      (Recorded.nil hcompiler rfl).run hc steps
    have hcache : c.cache = remembered s₀.compilers.size es :=
      congrArg Compiler.cache (compilerAt_eq hrun.compiler)
    refine ⟨fun r x hmem => ?_, hrun.same, fun r x r' y hx hy hne heq => hne ?_, ?_⟩
    · rw [hcache] at hmem
      exact (hrun.places r x (answered_of_mem_remembered hmem)).1
    · exact hrun.apart r x r' y hx hy heq
    · rw [Compiler.cacheSize, hcache, length_remembered]
  · rename_i hc
    have hdisabled : config.cacheEnabled = false := Bool.eq_false_iff.2 hc
    have hnew : Renewed s₀.compilers.size ⟨config, k, []⟩ s.world.dicts.size [] s :=
      ⟨hcompiler, nofun, List.nodup_nil, le_rfl⟩
    have hrun : Renewed s₀.compilers.size ⟨config, k, []⟩ s.world.dicts.size es (run steps s).2 :=
      hnew.run hdisabled rfl steps
    refine ⟨fun r x hx => (hrun.new x.globals ?_).1, hrun.apart, ?_⟩
    · exact List.mem_filterMap.2 ⟨_, hx, if_pos rfl⟩
    · exact congrArg Compiler.cacheSize (compilerAt_eq hrun.compiler)

end Runs

end NullSafe.Service
