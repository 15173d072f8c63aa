import NullSafe.Proofs.Isolation
import NullSafe.Proofs.Requests

/-! # How requests fail

A request that cannot be compiled is refused with its own text, unless one of three things stops it in another
way: a numeral that cannot be converted, an escape that denotes no code point, or a function name under which
the function is not found.
-/

namespace NullSafe.Literal

/-- A string literal has an escape with a number above the last code point. -/
def Overruns (raw : List Char) : Prop :=
  raw.head? ≠ some '/' ∧ ∃ hex, .escape hex ∈ units (raw.drop 1).dropLast ∧ 0x110000 ≤ Text.ofHex hex

theorem mapM_error_iff {α β ε : Type} {g : α → Except ε β} {as : List α} :
    (∃ f, as.mapM g = .error f) ↔ ∃ a ∈ as, ∃ f, g a = .error f := by
  induction as with
  | nil => simp [pure, Except.pure]
  | cons a as ih =>
    rw [List.mapM_cons, List.exists_mem_cons_iff, ← ih]
    cases ha : g a with
    | error f => exact ⟨fun _ => .inl ⟨f, rfl⟩, fun _ => ⟨f, rfl⟩⟩
    | ok b =>
      cases has : as.mapM g with
      | error f => exact ⟨fun _ => .inr ⟨f, rfl⟩, fun _ => ⟨f, rfl⟩⟩
      | ok bs => simp [bind, Except.bind, pure, Except.pure]

theorem codePoint_error_iff (u : Unit) :
    (∃ f, u.codePoint = .error f) ↔ ∃ hex, u = .escape hex ∧ 0x110000 ≤ Text.ofHex hex := by
  cases u with
  | code n => simp [Unit.codePoint]
  | escape hex =>
    rw [Unit.codePoint, codePoint]
    by_cases hn : Text.ofHex hex < 0x110000
    · rw [if_pos hn]
      constructor
      · rintro ⟨_, ⟨⟩⟩
      · rintro ⟨_, ⟨⟩, h⟩
        omega
    · rw [if_neg hn]
      refine ⟨fun _ => ⟨hex, rfl, Nat.not_lt.1 hn⟩, fun _ => ?_⟩
      split <;> exact ⟨_, rfl⟩

theorem ofRaw_error_iff (raw : List Char) : (∃ f, ofRaw raw = .error f) ↔ Overruns raw := by
  have htext : (∃ f, (unescape (raw.drop 1).dropLast).map Literal.text = .error f) ↔
      ∃ hex, .escape hex ∈ units (raw.drop 1).dropLast ∧ 0x110000 ≤ Text.ofHex hex := by
    have hmap : (∃ f, (unescape (raw.drop 1).dropLast).map Literal.text = .error f) ↔
        ∃ f, unescape (raw.drop 1).dropLast = .error f := by
      cases unescape (raw.drop 1).dropLast <;> simp [Except.map]
    rw [hmap, unescape, mapM_error_iff]
    simp only [codePoint_error_iff]
    constructor
    · rintro ⟨u, hu, hex, rfl, hn⟩
      exact ⟨hex, hu, hn⟩
    · rintro ⟨hex, hu, hn⟩
      exact ⟨_, hu, hex, rfl, hn⟩
  unfold ofRaw Overruns
  split
  · simp
  · rename_i hslash
    rw [htext]
    refine ⟨fun h => ⟨fun hhead => ?_, h⟩, fun h => h.2⟩
    obtain ⟨rest, rfl⟩ := List.head?_eq_some_iff.1 hhead
    exact hslash rest rfl

theorem mapM_error_iff_overruns {queue : List (List Char)} :
    (∃ f, queue.mapM ofRaw = .error f) ↔ ∃ raw ∈ queue, Overruns raw := by
  simp only [mapM_error_iff, ofRaw_error_iff]

end NullSafe.Literal

namespace NullSafe

def Stop.Refuses (expression : String) : Stop → Prop
  | .rejected r => r.expression = expression
  | _ => False

namespace Compile

open Surface Literal

variable {functionName : String} {globals : List String} {r : Request}

/-- Ways to end the compilation of a request without a function and without a refusal. -/
inductive Escapes (functionName : String) (globals : List String) (r : Request) : Prop where
  /-- A numeral that cannot be converted stands where a sentence can have one. -/
  | number {text : List Char} {ts : List Token} (htext : desugar (isolate r.expression.toList) = .ok text)
      (hts : tokenize (replaceWords text) = .ok ts) (h : Overflows (lexemes ts))
  /-- A literal has an escape that denotes no code point. -/
  | escape {body : Body Placeholder} {raw : List Char}
      (hbody : analyse (Scope.ofNames globals r.arguments) (isolate r.expression.toList) = .ok body)
      (hraw : raw ∈ literals r.expression.toList) (h : Overruns raw)
  /-- The function is made, but its name is kept in another spelling. -/
  | name {body : Body Placeholder} {filled : Body Leaf}
      (hbody : analyse (Scope.ofNames globals r.arguments) (isolate r.expression.toList) = .ok body)
      (hfilled : body.fill (literals r.expression.toList) = .ok filled)
      (hbuildable : isBuildable functionName (Scope.ofNames globals r.arguments).parameters filled = true)
      (h : Text.isPlainName functionName.toList = false)

theorem generate_oversized_iff (scope : Scope) (text : List Char) :
    generate scope text = .error .oversizedNumber ↔ parse (replaceWords text) = .error .oversizedNumber := by
  cases hparse : parse (replaceWords text) with
  | error f => simp [generate_of_unparsed hparse]
  | ok t =>
    rw [generate_of_parse hparse]
    cases emit scope t <;> simp

/-- A compilation meets a numeral that cannot be converted exactly if parsing does. -/
theorem analyse_oversized_iff (scope : Scope) (cs : List Char) :
    (∃ reached, analyse scope cs = .error (reached, .oversizedNumber)) ↔
      ∃ text ts, desugar cs = .ok text ∧ tokenize (replaceWords text) = .ok ts ∧ Overflows (lexemes ts) := by
  unfold analyse
  cases htext : desugar cs with
  | error f => simp
  | ok text =>
    have hparse : generate scope text = .error .oversizedNumber ↔
        ∃ ts, tokenize (replaceWords text) = .ok ts ∧ Overflows (lexemes ts) :=
      (generate_oversized_iff scope text).trans (parse_oversized_iff _)
    simp only [Except.ok.injEq, exists_and_left, exists_eq_left', ← hparse]
    cases generate scope text <;> simp

/-- Filling fails exactly if a literal denotes nothing: there is a placeholder for each. -/
theorem fill_error_iff {body : Body Placeholder} {cs : List Char} {names : List String}
    (h : analyse (Scope.ofNames globals names) (isolate cs) = .ok body) :
    (∃ f, body.fill (literals cs) = .error f) ↔ ∃ raw ∈ literals cs, Overruns raw := by
  obtain ⟨text, t, htext, ht, hbody⟩ := analyse_eq_ok h
  obtain ⟨hleaves, hshows⟩ := placeholders_of_analyse htext ht hbody
  have hlength : (literals cs).length ≤ body.code.leaves.length := by
    rw [Code.leaves, hshows.leaves, ← List.length_map Placeholder.delimiter, hleaves]
    exact length_literals_le cs
  have hfill := Code.leaves_fill hlength
  rw [← mapM_error_iff_overruns, Body.fill]
  rcases hcode : body.code.fill.run (literals cs) with f | ⟨code, rest⟩ <;>
    rcases hdenote : (literals cs).mapM ofRaw with f' | ls <;> rw [hcode, hdenote] at hfill
  · exact ⟨fun _ => ⟨f', rfl⟩, fun _ => ⟨f, rfl⟩⟩
  · cases hfill
  · cases hfill
  · constructor <;> rintro ⟨_, ⟨⟩⟩

section Ends

variable {body : Body Placeholder} {filled : Body Leaf}

theorem not_escapes_of_fault {reached : List Char} {f : Fault}
    (h : analyse (r.scope globals) (isolate r.expression.toList) = .error (reached, .fault f)) :
    ¬ Escapes functionName globals r := by
  rintro (⟨htext, hts, hov⟩ | ⟨hbody, -, -⟩ | ⟨hbody, -, -, -⟩)
  · obtain ⟨reached', h'⟩ := (analyse_oversized_iff _ _).2 ⟨_, _, htext, hts, hov⟩
    rw [h] at h'
    cases h'
  · rw [h] at hbody
    cases hbody
  · rw [h] at hbody
    cases hbody

theorem escapes_iff_of_fill (h : analyse (r.scope globals) (isolate r.expression.toList) = .ok body)
    (hfill : body.fill (literals r.expression.toList) = .ok filled) :
    Escapes functionName globals r ↔
      isBuildable functionName (r.scope globals).parameters filled = true ∧
        Text.isPlainName functionName.toList = false := by
  refine ⟨?_, fun ⟨hbuildable, hname⟩ => .name h hfill hbuildable hname⟩
  rintro (⟨htext, hts, hov⟩ | ⟨-, hraw, hov⟩ | ⟨hbody, hfilled, hbuildable, hname⟩)
  · obtain ⟨reached, h'⟩ := (analyse_oversized_iff _ _).2 ⟨_, _, htext, hts, hov⟩
    rw [h] at h'
    cases h'
  · obtain ⟨f, h'⟩ := (fill_error_iff h).2 ⟨_, hraw, hov⟩
    rw [hfill] at h'
    cases h'
  · rw [h] at hbody
    cases hbody
    rw [hfill] at hfilled
    cases hfilled
    exact ⟨hbuildable, hname⟩

/-- A compilation that fails refuses the text of its request, unless it ends in one of the other ways. -/
theorem run_refuses_iff (functionName : String) (globals : List String) (r : Request) :
    (∀ stop, run functionName globals r = .error stop → stop.Refuses r.expression) ↔
      ¬ Escapes functionName globals r := by
  unfold run
  dsimp only
  rcases hbody : analyse (r.scope globals) (isolate r.expression.toList) with
    ⟨reached, f | _⟩ | body
  · refine iff_of_true (fun stop h => ?_) (not_escapes_of_fault hbody)
    cases h
    rfl
  · obtain ⟨text, ts, htext, hts, h⟩ := (analyse_oversized_iff _ _).1 ⟨reached, hbody⟩
    exact iff_of_false (fun h => h _ rfl) (not_not_intro (.number htext hts h))
  · dsimp only
    rcases hfill : body.fill (literals r.expression.toList) with f | filled
    · obtain ⟨raw, hraw, h⟩ := (fill_error_iff hbody).1 ⟨f, hfill⟩
      exact iff_of_false (fun h => h _ rfl) (not_not_intro (.escape hbody hraw h))
    · rw [escapes_iff_of_fill hbody hfill]
      dsimp only
      cases hbuildable : isBuildable functionName (r.scope globals).parameters filled with
      | false =>
        refine iff_of_true (fun stop h => ?_) (by simp)
        cases h
        rfl
      | true =>
        cases hname : Text.isPlainName functionName.toList with
        | false => exact iff_of_false (fun h => h _ rfl) (by simp)
        | true => exact iff_of_true (fun stop h => nomatch h) (by simp)

end Ends

end Compile

namespace Request

open Surface

theorem ofValues_eq_ok {expression : Value} {arguments : List Value} {setter : Bool} {r : Request}
    (h : ofValues expression arguments setter = .ok r) :
    ∃ text, expression = .str text ∧ namesProblem? (arguments.filterMap text?) = none ∧
      r = ⟨text, arguments.filterMap text?, setter⟩ := by
  unfold ofValues argumentProblems at h
  dsimp only at h
  split at h
  · rename_i text htext hproblems
    cases h
    cases expression <;> cases htext
    refine ⟨_, rfl, ?_, rfl⟩
    split at hproblems
    · exact Option.toList_eq_nil_iff.1 hproblems
    · contradiction
  · cases h
  · cases h

theorem notTexts_map_str (n : Nat) (names : List String) : notTexts n (names.map .str) = [] := by
  induction names generalizing n with
  | nil => rfl
  | cons name names ih => exact ih (n + 1)

theorem filterMap_text?_map_str (names : List String) : (names.map Value.str).filterMap text? = names := by
  rw [List.filterMap_map]
  exact List.filterMap_some

def setterRequest (r : Request) : Request :=
  ⟨String.ofList (setterText r.expression.toList), valueName :: r.arguments, true⟩

theorem namesProblem?_cons_valueName {names : List String} (h : namesProblem? names = none) :
    namesProblem? (valueName :: names) = if valueName ∈ names then some .duplicateArguments else none := by
  have hvalue : nameProblem? valueName = none := by decide
  unfold namesProblem? at h ⊢
  rw [List.findSome?_cons, hvalue]
  dsimp only
  split at h
  · cases h
  · rename_i hnames
    rw [hnames]
    have hnodup : names.Nodup := Classical.byContradiction fun hn => by rw [if_neg hn] at h; cases h
    simp [hnodup]

/-- A request has one for assigning unless an argument has the name of the value to assign. -/
theorem toSetter_eq {r : Request} (h : namesProblem? r.arguments = none) :
    r.toSetter =
      if valueName ∈ r.arguments then .error ⟨[.duplicateArguments]⟩ else .ok r.setterRequest := by
  have hnames : (Value.str valueName :: r.arguments.map .str).filterMap text? = valueName :: r.arguments :=
    filterMap_text?_map_str (valueName :: r.arguments)
  have hproblems : argumentProblems (.str valueName :: r.arguments.map .str) =
      if valueName ∈ r.arguments then [.duplicateArguments] else [] := by
    rw [argumentProblems, show notTexts 0 (.str valueName :: r.arguments.map .str) = [] from
      notTexts_map_str 0 (valueName :: r.arguments)]
    dsimp only
    rw [hnames, namesProblem?_cons_valueName h]
    split <;> rfl
  rw [toSetter, ofValues, hproblems, hnames]
  by_cases hvalue : valueName ∈ r.arguments
  · simp only [if_pos hvalue]
    rfl
  · simp only [if_neg hvalue]
    rfl

end Request

/-- A value is a mapping, all of whose keys can be keys. -/
def World.IsMapping (w : World) (v : Value) : Prop :=
  ∃ r, v = .dict r ∧ ∀ e ∈ w.dict r, w.hashable e.1 = true

open NullSafe.Action

namespace Service

/-- What a request with the given globals and formatters relies on. -/
structure Sound (s : Service) (i : Nat) (globals formatters : Value) : Prop where
  globals : globals = .null ∨ s.world.IsMapping globals
  formatters : formatters = .null ∨ s.world.IsMapping formatters
  /-- The formatters of remembered answers were mappings too. -/
  bound : ∀ r x, (s.compilerAt i).cached? r = some x → s.world.IsMapping x.formatters
  /-- No comparison goes round in circles. -/
  ends : ∀ a b, s.world.equal a b ≠ .error .tooDeep

def globalNames (s : Service) (c : Compiler) (globals : Value) : List String :=
  match mergedGlobals s.world (s.registryAt c.registry) globals with
  | .ok entries => entryNames entries
  | .error _ => []

/-- A request ends with an answer, or with the refusal of a text. -/
def OneShape (expression : String) : Except Failure Compiled → Prop
  | .ok _ => True
  | .error (.stopped stop) => stop.Refuses expression
  | .error _ => False

/-- Nothing but a refusal can stop a request: it is answered from the cache, or its compilation ends in no other
way. -/
def Compiles (s : Service) (i : Nat) (globals : Value) (r : Request) : Prop :=
  (s.compilerAt i).cached? r = none →
    ¬ Compile.Escapes (s.compilerAt i).config.functionName (s.globalNames (s.compilerAt i) globals) r

variable {s : Service} {i : Nat} {globals formatters : Value} {r : Request}

theorem anyM_ok {α ε : Type} {p : α → Except ε Bool} {as : List α} (h : ∀ a ∈ as, ∃ b, p a = .ok b) :
    ∃ b, as.anyM p = .ok b := by
  induction as with
  | nil => exact ⟨false, rfl⟩
  | cons a as ih =>
    obtain ⟨b, hb⟩ := h a (.head _)
    obtain ⟨c, hc⟩ := ih fun a' ha' => h a' (.tail _ ha')
    rw [List.anyM, hb]
    cases b with
    | true => exact ⟨true, rfl⟩
    | false => exact ⟨c, hc⟩

namespace Sound

variable (h : s.Sound i globals formatters)

include h

theorem mergedGlobals_ok (registry : Registry) : ∃ entries, mergedGlobals s.world registry globals = .ok entries := by
  rcases h.globals with rfl | ⟨g, rfl, hkeys⟩
  · exact ⟨_, rfl⟩
  · exact mergedGlobals_of_hashable hkeys registry

theorem staleGlobals_ok (x : Compiled) : ∃ b, staleGlobals s.world x globals = .ok b := by
  rcases h.globals with rfl | ⟨g, rfl, hkeys⟩
  · exact ⟨false, rfl⟩
  · refine anyM_ok fun e he => ?_
    obtain ⟨v, hv⟩ := World.lookup_of_hashable (hkeys e he) (s.world.dict x.globals)
    exact ⟨decide (v.getD .null ≠ e.2), by dsimp only; rw [hv]; rfl⟩

theorem equalEntries_ok (entries other : Entries) : ∃ b, s.world.equalEntries entries other = .ok b := by
  have hsome : ∀ a b, (s.world.equalWithin s.world.depth a b).isSome := by
    intro a b
    have hends := h.ends a b
    unfold World.equal at hends
    cases hab : s.world.equalWithin s.world.depth a b with
    | some r => rfl
    | none => rw [hab] at hends; exact absurd rfl hends
  obtain ⟨b, hb⟩ := Option.isSome_iff_exists.1
    (World.entriesEqual_isSome fun (e : Value × Value) (_ : e ∈ entries) (o : Value × Value) (_ : o ∈ other) =>
      ⟨hsome o.1 e.1, hsome e.2 o.2⟩)
  exact ⟨b, by rw [World.equalEntries, hb]⟩

theorem staleFormatters_ok {x : Compiled}
    (hx : s.world.IsMapping x.formatters) : ∃ b, staleFormatters s.world x formatters = .ok b := by
  rcases h.formatters with rfl | ⟨f, rfl, hkeys⟩
  · exact ⟨false, rfl⟩
  · obtain ⟨d, hd, hkeys'⟩ := hx
    obtain ⟨given, hgiven⟩ := World.updated_of_hashable hkeys []
    obtain ⟨bound, hbound⟩ := World.updated_of_hashable hkeys' []
    obtain ⟨b, hb⟩ := h.equalEntries_ok given bound
    refine ⟨!b, ?_⟩
    rw [staleFormatters, if_neg (by simp), hgiven, hd, hbound]
    change (s.world.equalEntries given bound >>= fun b => pure !b) = _
    rw [hb]
    rfl

theorem stale_ok {x : Compiled}
    (hx : (s.compilerAt i).cached? r = some x) : ∃ b, stale s.world x globals formatters = .ok b := by
  obtain ⟨a, ha⟩ := h.staleGlobals_ok x
  obtain ⟨b, hb⟩ := h.staleFormatters_ok (h.bound r x hx)
  exact ⟨a || b, by rw [stale, ha, hb]; rfl⟩

end Sound

theorem oneShape_compile_iff (h : s.Sound i globals formatters) :
    OneShape r.expression ((compile i r globals formatters).outcome s).1 ↔ s.Compiles i globals r := by
  have hanswers := answers_compile i r globals formatters s
  generalize (compile i r globals formatters).outcome s = out at hanswers ⊢
  obtain ⟨entries, hentries⟩ := h.mergedGlobals_ok (s.registryAt (s.compilerAt i).registry)
  have hnames : s.globalNames (s.compilerAt i) globals = entryNames entries := by
    rw [globalNames, hentries]
  have hrun := Compile.run_refuses_iff (s.compilerAt i).config.functionName (entryNames entries) r
  rw [Compiles, hnames]
  cases hanswers with
  | reused hx => exact iff_of_true trivial fun hnone => by rw [hx] at hnone; cases hnone
  | incomparable hx he =>
    obtain ⟨b, hb⟩ := h.stale_ok hx
    rw [he] at hb
    cases hb
  | compiled hx hp =>
    rw [prepare, hentries] at hp
    dsimp only at hp
    refine iff_of_true trivial fun _ => hrun.1 fun stop hstop => ?_
    rw [hstop] at hp
    cases hp
  | @failed f log hx hp =>
    rw [prepare, hentries] at hp
    dsimp only at hp
    split at hp
    · rename_i stop hstop
      cases hp
      rw [← hrun, hstop]
      refine ⟨fun h _ stop' hstop' => ?_, fun h => h hx stop rfl⟩
      cases hstop'
      exact h
    · cases hp

/-- Requests with accepted arguments end in one way when they fail, except where a compilation ends in another; a
request for assigning also fails in another way if an argument has the name of the value to assign. -/
theorem oneShape_iff {expression : String} {arguments : List Value} (h : s.Sound i globals formatters)
    (hr : Request.ofValues (.str expression) (s.world.spreadArguments arguments) false = .ok r) :
    (OneShape expression ((parse i (.str expression) globals formatters arguments).outcome s).1 ↔
      s.Compiles i globals r) ∧
    (OneShape r.setterRequest.expression
        ((parseSetter i (.str expression) globals formatters arguments).outcome s).1 ↔
      Surface.valueName ∉ r.arguments ∧ s.Compiles i globals r.setterRequest) := by
  obtain ⟨_, ⟨⟩, hnames, hr'⟩ := Request.ofValues_eq_ok hr
  have hask (setter : Bool) := outcome_ask i setter (.str expression) globals formatters arguments s
  constructor
  · have hrequest : requestOf s.world false (.str expression) arguments = .ok r := by
      rw [requestOf, hr]
      rfl
    have hparse := hask false
    rw [hrequest] at hparse
    rw [show (parse i (.str expression) globals formatters arguments).outcome s = _ from hparse,
      show expression = r.expression by rw [hr']]
    exact oneShape_compile_iff h
  · have hrequest : requestOf s.world true (.str expression) arguments = r.toSetter := by
      rw [requestOf, hr]
      rfl
    have hparse := hask true
    rw [hrequest, Request.toSetter_eq (by rw [hr']; exact hnames)] at hparse
    rw [show (parseSetter i (.str expression) globals formatters arguments).outcome s = _ from hparse]
    by_cases hvalue : Surface.valueName ∈ r.arguments
    · rw [if_pos hvalue]
      exact iff_of_false id fun h => h.1 hvalue
    · rw [if_neg hvalue, and_iff_right hvalue]
      exact oneShape_compile_iff h

section HighEscape

open Literal

theorem ends_initial (a b : Value) : World.initial.equal a b ≠ .error .tooDeep := by
  have hsome : (World.initial.equalWithin World.initial.depth a b).isSome := by
    rw [show World.initial.depth = 9 + 1 from rfl]
    unfold World.equalWithin
    split
    · rfl
    · split
      · simp [World.list, World.initial, World.allEqual]
      · simp [World.tuple, World.initial, World.allEqual]
      · simp [World.dict, World.initial, World.entriesEqual, World.allFound]
      · rename_i r s _
        split
        · rfl
        · rcases r with _ | _ | r <;> rcases s with _ | _ | s <;> first | contradiction | rfl
      · rfl
  obtain ⟨r, hr⟩ := Option.isSome_iff_exists.1 hsome
  rw [World.equal, hr]
  rintro ⟨⟩

def single : Service := ((addCompiler {} none).outcome {}).2

theorem sound_single : single.Sound 0 .null .null where
  globals := .inl rfl
  formatters := .inl rfl
  bound _ _ h := nomatch h
  ends := ends_initial

/-- A string literal whose escape is one above the last code point. -/
def highEscape : String := "'\\u\x7b110000\x7d'"

theorem analyse_highEscape (globals : List String) :
    Compile.analyse (Scope.ofNames globals []) (isolate highEscape.toList) = .ok ⟨0, .literal (.string .single)⟩ := by
  rw [show isolate highEscape.toList = "''".toList by decide +kernel]
  exact Compile.analyse_placeholder (.string .single)

theorem literals_highEscape : literals highEscape.toList = [highEscape.toList] := by decide +kernel

theorem ofRaw_highEscape : ofRaw highEscape.toList = .error .outOfRange := by decide +kernel

theorem oneShape_iff_highEscape :
    Request.ofValues (.str highEscape) [] false = .ok ⟨highEscape, [], false⟩ ∧
      single.Sound 0 .null .null ∧
      ¬ OneShape highEscape ((parse 0 (.str highEscape) .null .null []).outcome single).1 := by
  have hr : Request.ofValues (.str highEscape) [] false = .ok ⟨highEscape, [], false⟩ := rfl
  have hescapes : ∀ globals, Compile.Escapes "expression" globals ⟨highEscape, [], false⟩ := fun globals =>
    .escape (analyse_highEscape globals) (literals_highEscape ▸ .head _) ((ofRaw_error_iff _).1 ⟨_, ofRaw_highEscape⟩)
  refine ⟨hr, sound_single, fun h => ?_⟩
  exact (oneShape_iff sound_single hr).1.1 h rfl (hescapes _)

/-- An escape above the last code point stops a compilation without a refusal. -/
theorem parse_highEscape :
    ((parse 0 (.str highEscape) .null .null []).outcome single).1 = .error (.stopped (.badEscape .outOfRange)) := by
  have hfill : (⟨0, .literal (.string .single)⟩ : Body Placeholder).fill [highEscape.toList] = .error .outOfRange := by
    simp [Body.fill, Code.fill, Placeholder.fill, ofRaw_highEscape]
  have hrun : ∀ globals, Compile.run "expression" globals ⟨highEscape, [], false⟩ =
      .error (.badEscape .outOfRange) := by
    intro globals
    unfold Compile.run
    dsimp only
    rw [analyse_highEscape]
    dsimp only
    rw [literals_highEscape, hfill]
  have hprepare : single.prepare (single.compilerAt 0) ⟨highEscape, [], false⟩ .null =
      .error (.stopped (.badEscape .outOfRange)) := by
    rw [prepare, show mergedGlobals single.world _ .null = .ok _ from rfl]
    dsimp only
    rw [show (single.compilerAt 0).config.functionName = "expression" from rfl, hrun]
  have hanswers := answers_compile 0 ⟨highEscape, [], false⟩ .null .null single
  change ((compile 0 ⟨highEscape, [], false⟩ .null .null).outcome single).1 = _
  generalize (compile 0 ⟨highEscape, [], false⟩ .null .null).outcome single = out at hanswers ⊢
  cases hanswers with
  | reused hx => cases hx
  | incomparable hx => cases hx
  | compiled hx hp => rw [hprepare] at hp; cases hp
  | failed hx hp => rw [hprepare] at hp; cases hp; rfl

end HighEscape

end Service

end NullSafe
