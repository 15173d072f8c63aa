import NullSafe.Proofs.Failures
import NullSafe.Proofs.Sessions

/-! # Requests that fail

A request that fails, at whichever stage, leaves records in the log and nothing else. So whatever is done afterwards
has the results that it would have had without the request, and writes the records that it would have written.
-/

namespace NullSafe

namespace Log

theorem emptied_eq_iff {l l' : Log} : l'.emptied = l.emptied ↔ l'.level = l.level ∧ l'.handlers = l.handlers ∧
    l'.context = l.context ∧ l'.saved = l.saved ∧ l'.warned = l.warned ∧ l'.now = l.now := by
  simp [emptied]

variable (w : World) (l : Log)

open Writing

theorem emptied_log (logger level msg : Value) (x : Extras) :
    ((log w logger level msg x).outcome l).2.emptied = l.emptied := by
  rw [log, outcome_bind, outcome_lift]
  cases loggerName w logger with
  | error e => rfl
  | ok logger =>
    obtain ⟨_, _, _, h⟩ := exists_logAt w l logger level msg x
    dsimp only
    rw [h]
    rfl

theorem emptied_leave {l l' : Log} (h : l'.emptied = l.emptied) : l'.leave.emptied = l.leave.emptied := by
  have hsaved : l'.saved = l.saved := (emptied_eq_iff.1 h).2.2.2.1
  unfold leave
  rw [hsaved]
  cases l.saved with
  | nil => exact h
  | cons context rest => exact congrArg (fun l : Log => { l with context := context, saved := rest }) h

end Log

open NullSafe.Action

namespace Service

/-- Two services that differ in nothing but what is written in the log. -/
structure EqualButRecords (s s' : Service) : Prop where
  world : s.world = s'.world
  registries : s.registries = s'.registries
  compilers : s.compilers = s'.compilers
  level : s.log.level = s'.log.level
  handlers : s.log.handlers = s'.log.handlers
  context : s.log.context = s'.log.context
  saved : s.log.saved = s'.log.saved
  warned : s.log.warned = s'.log.warned

section Failing

variable {s s' : Service} {f : Failure}

/-- What a failed request leaves behind. -/
theorem emptied_ask {i : Nat} {setter : Bool} {expression globals formatters : Value} {arguments : List Value}
    (h : (ask i setter expression globals formatters arguments).outcome s = (.error f, s')) :
    s' = { s with log := s'.log } ∧ s'.log.emptied = s.log.emptied := by
  rw [outcome_ask] at h
  cases hr : requestOf s.world setter expression arguments with
  | error e =>
    rw [hr] at h
    cases h
    exact ⟨rfl, rfl⟩
  | ok r =>
    rw [hr] at h
    dsimp only at h
    cases hx : (s.compilerAt i).cached? r with
    | some x =>
      rw [outcome_compile_cached hx] at h
      split at h
      · cases h
      · cases h
        exact ⟨rfl, rfl⟩
    | none =>
      cases hp : s.prepare (s.compilerAt i) r globals with
      | ok p =>
        rw [outcome_compile_ok hx hp] at h
        cases h
      | error e =>
        rw [outcome_compile_failed hx hp] at h
        cases h
        have hreport : ((s.enterRequest r).reportFailure f).log.emptied = (s.enterRequest r).log.emptied := by
          rcases f with f | stop | f | e
          · rfl
          · cases stop with
            | rejected r => exact Log.emptied_log ..
            | badEscape | oversizedNumber | lostName => rfl
          · rfl
          · rfl
        refine ⟨?_, Log.emptied_leave hreport⟩
        rw [reportFailure_eq]
        rfl

theorem disguised_refl (s : Service) (earlier : Log) :
    s.disguised ⟨earlier, .refl⟩ = { s with log := s.log.after earlier } := by
  have hrenamed : ∀ c : Compiler, c.renamed .refl = c := fun c => by
    change { c with cache := c.cache.map fun e => e } = c
    rw [List.map_id']
  have hcompilers : s.compilers.map (·.renamed .refl) = s.compilers := by
    simp [hrenamed]
  rw [disguised, hcompilers]

theorem disguised_emptied (hs : s' = { s with log := s'.log }) (hlog : s'.log.emptied = s.log.emptied) :
    { s with log := s.log.emptied }.disguised ⟨s'.log, .refl⟩ = s' := by
  rw [disguised_refl]
  dsimp only
  rw [← hlog, Log.emptied_after]
  exact hs.symm

/-- A request that fails leaves everything but the records of the log as it was, and every later session has the
answers, the services and the further records that it would have had without the request. -/
theorem session_of_failed {i : Nat} {setter : Bool} {expression globals formatters : Value} {arguments : List Value}
    (h : (ask i setter expression globals formatters arguments).outcome s = (.error f, s')) :
    EqualButRecords s' s ∧ ∀ (host : Host) (held : List Compiled) (deeds : List Deed),
      (session host deeds held s').1 = (session host deeds held s).1 ∧
      ∃ t : Service, (session host deeds held s').2 = { t with log := t.log.after s'.log } ∧
        (session host deeds held s).2 = { t with log := t.log.after s.log } := by
  obtain ⟨hs, hlog⟩ := emptied_ask h
  have hequal : EqualButRecords s' s := by
    obtain ⟨hlevel, hhandlers, hcontext, hsaved, hwarned, -⟩ := Log.emptied_eq_iff.1 hlog
    exact ⟨by rw [hs], by rw [hs], by rw [hs], hlevel, hhandlers, hcontext, hsaved, hwarned⟩
  refine ⟨hequal, fun host held deeds => ?_⟩
  -- Both services are one that has written nothing, in two disguises.
  let t := { s with log := s.log.emptied }
  have hheld : held.map (·.renamed .refl) = held := List.map_id _
  have hafter := session_disguised ⟨s'.log, .refl⟩ host deeds held t
  have hbefore := session_disguised ⟨s.log, .refl⟩ host deeds held t
  rw [disguised_emptied hs hlog, hheld] at hafter
  rw [disguised_emptied rfl rfl, hheld] at hbefore
  rw [hafter, hbefore]
  refine ⟨rfl, (session host deeds held t).2, ?_, ?_⟩
  · rw [disguised_refl]
  · rw [disguised_refl]

end Failing

section Unclosed

open Surface in
theorem run_unclosed (functionName : String) (globals : List String) :
    ∃ rejection, Compile.run functionName globals ⟨"(", [], false⟩ = .error (.rejected rejection) := by
  have hanalyse : Compile.analyse (Scope.ofNames globals []) (Literal.isolate "(".toList) =
      .error (['('], .fault ⟨.unexpectedEnd, some 1⟩) := by
    have hparse : Surface.parse "(".toList = .error (.fault ⟨.unexpectedEnd, some 1⟩) := by
      refine parse_of_unary_error (show tokenize _ = .ok [⟨.symbol .openParen, 0⟩] by decide +kernel) ?_
      rw [Parser.unary_result_cons, Parser.primary_result_cons]
      dsimp only [Parser.unaryOf]
      rw [Parser.assign_result_error _ (Parser.unary_result_nil _)]
      rfl
    rw [show Literal.isolate "(".toList = "(".toList by decide +kernel, Compile.analyse,
      show desugar "(".toList = .ok "(".toList by decide]
    dsimp only
    rw [generate_of_unparsed (show Surface.parse (replaceWords "(".toList) = _ from hparse)]
    rfl
  unfold Compile.run
  dsimp only
  rw [hanalyse]
  exact ⟨_, rfl⟩

theorem exists_failed_unclosed {s : Service} {i : Nat} (hx : (s.compilerAt i).cached? ⟨"(", [], false⟩ = none) :
    ∃ f s', (ask i false (.str "(") .null .null []).outcome s = (.error f, s') := by
  have hprepare : ∃ f, s.prepare (s.compilerAt i) ⟨"(", [], false⟩ .null = .error f := by
    unfold prepare
    split
    · exact ⟨_, rfl⟩
    · rename_i entries _
      obtain ⟨rejection, hrun⟩ := run_unclosed (s.compilerAt i).config.functionName (entryNames entries)
      rw [hrun]
      exact ⟨_, rfl⟩
  obtain ⟨f, hf⟩ := hprepare
  have hrequest : requestOf s.world false (.str "(") [] = .ok ⟨"(", [], false⟩ := rfl
  rw [outcome_ask, hrequest]
  exact ⟨f, _, outcome_compile_failed hx hf .null⟩

/-- After an unclosed parenthesis was refused, every session is as it would have been. -/
theorem session_of_failed_unclosed : ∃ f s', (ask 0 false (.str "(") .null .null []).outcome single = (.error f, s') ∧
    EqualButRecords s' single ∧ ∀ host deeds, (session host deeds [] s').1 = (session host deeds [] single).1 := by
  have hx : (single.compilerAt 0).cached? ⟨"(", [], false⟩ = none := rfl
  obtain ⟨f, s', h⟩ := exists_failed_unclosed hx
  obtain ⟨hequal, hsession⟩ := session_of_failed h
  exact ⟨f, s', h, hequal, fun host deeds => (hsession host [] deeds).1⟩

end Unclosed

end Service

end NullSafe
