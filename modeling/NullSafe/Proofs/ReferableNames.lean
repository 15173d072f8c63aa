import NullSafe.Proofs.Hygiene
import NullSafe.Proofs.Snapshots

/-! # Names that can be referred to

A name is checked up to a line break at its end, and in an expression such a break is blank. So a registered name, or
the name of an argument, stands for its value in an expression unless it ends in a line break, which leaves the text of
another name.
-/

namespace NullSafe

open Surface Literal Text List Request Compile Registry

/-- The words that are no names where an operand can stand. -/
def Surface.words : List String := ["this", "true", "false", "null", "undefined", "typeof", "and", "or"]

section Texts

variable {m n : String} {arguments : List String}

theorem Name.isName_cases (h : Name.isName n = true) :
    (n.toList.getLast? ≠ some '\n' ∧ IsName n.toList) ∨
      ∃ m : String, n.toList = m.toList ++ ['\n'] ∧ IsName m.toList := by
  have hname : IsName (Name.dropFinalBreak n.toList) := by
    unfold Name.isName at h
    split at h
    · cases h
    · rename_i c rest hcs
      rw [Bool.and_eq_true] at h
      rw [hcs]
      exact ⟨h.1, by rw [all_cons, isNameRest_of_isNameStart h.1, h.2]; rfl⟩
  unfold Name.dropFinalBreak at hname
  split at hname
  · rename_i hlast
    right
    obtain ⟨cs, hcs⟩ := getLast?_eq_some_iff.1 hlast
    rw [hcs, dropLast_concat] at hname
    exact ⟨String.ofList cs, by rw [String.toList_ofList, hcs], by rwa [String.toList_ofList]⟩
  · rename_i hlast
    exact .inl ⟨hlast, hname⟩

/-- A name, and blank behind it or nothing. -/
structure IsNameText (m : String) (cs : List Char) : Prop where
  name : IsName m.toList
  text : cs = m.toList ∨ cs = m.toList ++ ['\n']

namespace IsNameText

variable {cs : List Char} (h : IsNameText m cs)

include h

theorem mem {c : Char} (hc : c ∈ cs) : isNameRest c = true ∨ c = '\n' := by
  rcases h.text with rfl | rfl
  · exact .inl (all_eq_true.1 h.name.2 c hc)
  · rcases mem_append.1 hc with hc | hc
    · exact .inl (all_eq_true.1 h.name.2 c hc)
    · exact .inr (mem_singleton.1 hc)

theorem isolate_eq : isolate cs = cs ∧ literals cs = [] := by
  have hkind : ∀ c ∈ cs, (isNameRest c || decide (c = '\n')) = true := fun c hc => by simpa using h.mem hc
  exact isolate_of_plain (plain_of_kind (by decide) (by decide) (by decide) hkind)

theorem desugar_eq : desugar cs = .ok cs := by
  refine desugar_of_not_mem fun hmem => ?_
  rcases h.mem hmem with hc | hc
  · exact absurd hc (by decide)
  · cases hc

theorem replaceWords_eq (hand : m ≠ "and") (hor : m ≠ "or") : replaceWords cs = cs := by
  have hm : replaceWords m.toList = m.toList := by
    have hpath : replaceWords (pathChars m []) = pathChars m [] := replaceWords_path hand hor h.name (by simp)
    rwa [pathChars, flatMap_nil, append_nil] at hpath
  rcases h.text with rfl | rfl
  · exact hm
  · rw [replaceWords, replaceWordsFrom_append_cons (by decide), ← replaceWords, hm]
    rfl

theorem lexes : Lexes cs [.name m.toList] := by
  rcases h.text with rfl | rfl
  · have hlexes : Lexes (m.toList ++ []) [.name m.toList] := (lexes_name_iff h.name (by simp)).2 ⟨[], .nil, rfl⟩
    rwa [append_nil] at hlexes
  · exact (lexes_name_iff h.name (by rintro c ⟨⟩; decide)).2 ⟨[], .blank (by decide) .nil, rfl⟩

theorem parse_eq (htypeof : m ≠ "typeof") : Surface.parse cs = .ok (Parser.nameTree m.toList) := by
  have hroot : m.toList ≠ "typeof".toList := fun h => htypeof (String.toList_inj.1 h)
  exact parse_eq_ok_iff.2 ⟨_, h.lexes, fit_cons.2 ⟨rfl, fit_nil⟩, derives_name hroot⟩

end IsNameText

theorem nameTree_of_not_mem (h : m ∉ words) : Parser.nameTree m.toList = .name m := by
  simp only [words, mem_cons, not_mem_nil, or_false, not_or] at h
  rw [Parser.nameTree, String.ofList_toList]
  simp [h]

theorem filled_nameTree (m : String) (queue : List (List Char)) : ∃ t : Expr Leaf,
    (Parser.nameTree m.toList).filled queue = .ok t ∧ (t = .name m ∨ t = .this ∨ ∃ c, t = .constant c) := by
  rw [Parser.nameTree, String.ofList_toList]
  split
  · exact ⟨.constant .yes, rfl, .inr (.inr ⟨_, rfl⟩)⟩
  · split
    · exact ⟨.constant .no, rfl, .inr (.inr ⟨_, rfl⟩)⟩
    · split
      · exact ⟨.constant .null, rfl, .inr (.inr ⟨_, rfl⟩)⟩
      · split
        · exact ⟨.this, rfl, .inr (.inl rfl)⟩
        · exact ⟨.name m, rfl, .inl rfl⟩

theorem Request.isTree_name {r : Request} (hr : r.expression = n) (hn : IsName n.toList) (hwords : n ∉ words) :
    r.IsTree (.name n) := by
  have htext : IsNameText n r.expression.toList := ⟨hn, .inl (by rw [hr])⟩
  have hother : ∀ word ∈ words, n ≠ word := fun word hword h => hwords (h ▸ hword)
  obtain ⟨hisolate, -⟩ := htext.isolate_eq
  refine ⟨r.expression.toList, .name n, by rw [hisolate, htext.desugar_eq], ?_, rfl⟩
  rw [htext.replaceWords_eq (hother _ (by decide)) (hother _ (by decide)), htext.parse_eq (hother _ (by decide)),
    nameTree_of_not_mem hwords]

theorem parse_break_ne_ok {word : String} (h : word ∈ ["typeof", "and", "or"]) (t : Expr Placeholder) :
    parse (replaceWords (word.toList ++ ['\n'])) ≠ .ok t := by
  have hparse : ∃ f, parse (replaceWords (word.toList ++ ['\n'])) = .error f := by
    simp only [mem_cons, not_mem_nil, or_false] at h
    rcases h with rfl | rfl | rfl
    · refine ⟨.fault ⟨.unexpectedEnd, some 7⟩,
        parse_of_unary_error (show tokenize _ = .ok [⟨.name "typeof".toList, 0⟩] by decide +kernel) ?_⟩
      rw [Parser.unary_result_cons]
      dsimp only [Parser.unaryOf]
      rw [Parser.unary_result_nil]
      rfl
    · refine ⟨.fault ⟨.unexpected "&&", some 0⟩,
        parse_of_unary_error (show tokenize _ = .ok [⟨.symbol .both, 0⟩] by decide +kernel) ?_⟩
      rw [Parser.unary_result_cons, Parser.primary_result_cons]
      rfl
    · refine ⟨.fault ⟨.unexpected "||", some 0⟩,
        parse_of_unary_error (show tokenize _ = .ok [⟨.symbol .either, 0⟩] by decide +kernel) ?_⟩
      rw [Parser.unary_result_cons, Parser.primary_result_cons]
      rfl
  obtain ⟨f, hf⟩ := hparse
  rw [hf]
  rintro ⟨⟩

/-- A name with a line break behind it has the tree of the name before the break. -/
theorem Request.isTree_of_break {functionName : String} {globals : List String} {r : Request} {generated : Generated}
    (hr : r.expression.toList = m.toList ++ ['\n']) (hm : IsName m.toList)
    (hrun : Compile.run functionName globals r = .ok generated) :
    ∃ t, r.IsTree t ∧ (t = .name m ∨ t = .this ∨ ∃ c, t = .constant c) := by
  have htext : IsNameText m r.expression.toList := ⟨hm, .inr hr⟩
  obtain ⟨hisolate, hliterals⟩ := htext.isolate_eq
  have hdesugar : desugar (isolate r.expression.toList) = .ok r.expression.toList := by
    rw [hisolate, htext.desugar_eq]
  obtain ⟨body, -, hbody, -, -⟩ := run_eq_ok hrun
  obtain ⟨text, t₀, htext', hparse, -⟩ := analyse_eq_ok hbody
  rw [hdesugar] at htext'
  cases htext'
  have hwords : m ∉ ["typeof", "and", "or"] := fun hmem => by
    rw [hr] at hparse
    exact parse_break_ne_ok hmem t₀ hparse
  simp only [mem_cons, not_mem_nil, or_false, not_or] at hwords
  have hreplaced := htext.replaceWords_eq hwords.2.1 hwords.2.2
  rw [hreplaced, htext.parse_eq hwords.1] at hparse
  obtain ⟨t, hfilled, ht⟩ := filled_nameTree m (literals r.expression.toList)
  refine ⟨t, ⟨r.expression.toList, t₀, hdesugar, ?_, ?_⟩, ht⟩
  · rw [hreplaced, htext.parse_eq hwords.1, hparse]
  · rw [← Except.ok.inj hparse, hfilled]

end Texts

section Values

variable {s : Surroundings} {scope : Scope} {n : String} (e : Env) (w : World)

theorem Direct.outcome_eval_argument (h : scope.classify n = .argument) :
    ((Direct.eval s scope (.name n)).run e).outcome w = (.ok (e.argument n, e), w) := by
  rw [Direct.eval, Direct.outcome_whole, Direct.reach, Direct.outcome_map, Direct.readName, h]
  rfl

theorem Direct.outcome_eval_global {d : Ref} {v : Value} {e : Env} {w : World} (h : scope.classify n = .global)
    (hd : e.globals = .dict d) (hv : (w.dict d).lookup (.str n) = some v) :
    ((Direct.eval s scope (.name n)).run e).outcome w = (.ok (v, e), w) := by
  have hvalue : (globalValue e.globals n).outcome w = (.ok v, w) := by
    rw [hd, globalValue, Run.outcome_bind, Run.outcome_ofExcept, World.lookup_str, hv]
    rfl
  rw [Direct.eval, Direct.outcome_whole, Direct.reach, Direct.outcome_map, Direct.readName, h, Direct.outcome_bind,
    Direct.outcome_get]
  dsimp only
  rw [Direct.outcome_lift, hvalue]
  rfl

theorem Scope.classify_of_not_mem {globals names : List String} (hnodup : names.Nodup) (hnames : n ∉ names)
    (hglobals : n ∉ globals) :
    (Scope.ofNames globals names).classify n = .keyword ∨ (Scope.ofNames globals names).classify n = .context := by
  have hcontains : (Scope.ofNames globals names).globals.contains n = false := by
    rw [Bool.eq_false_iff, ne_eq, contains_iff_mem]
    exact hglobals
  rw [Scope.classify, Scope.parameter?_of_not_mem globals hnodup hnames, hcontains, if_neg (by decide)]
  split
  · exact .inl rfl
  · exact .inr rfl

/-- What an operation reads from nothing is nothing, or it is hidden by the function and fails. -/
theorem Program.outcome_get_null (p : Program) (host : Host) (fuel : Nat) (n : String) (w : World) :
    ((p.inside host fuel).operate .get [.null, .str n]).outcome w = (.ok .null, w) ∨
      ∃ r, ((p.inside host fuel).operate .get [.null, .str n]).outcome w = (.error r, w) := by
  by_cases hname : Operation.get.name = p.name
  · have hshort : [Value.null, Value.str n].length < 3 := Nat.lt_succ_self 2
    obtain ⟨r, hr⟩ := p.exists_error_of_short fuel hshort
    rw [p.operate_inside_of_eq host fuel _ hname, hr]
    exact .inr ⟨r, rfl⟩
  · rw [p.operate_inside_of_ne host fuel _ hname]
    exact .inl rfl

variable {functionName : String} {globals : List String} {r : Request} {generated : Generated} {m : String}

/-- A name with a line break behind it does not have the value one, if neither the name before the break has it nor the
names that a function has by itself. -/
theorem outcome_run_break_ne (hr : r.expression.toList = m.toList ++ ['\n']) (hm : IsName m.toList)
    (hrequest : namesProblem? r.arguments = none)
    (hrun : Compile.run functionName globals r = .ok generated) (hglobals : m ∉ globals) (harguments : m ∉ r.arguments)
    (host : Host) {gl fm : Value} (hgl : gl ≠ .int 1) (hfm : fm ≠ .int 1) {extra : List Value}
    (hextra : extra.length ≤ r.arguments.length) (w w' : World) :
    (generated.program.run host (.null :: gl :: fm :: extra)).outcome w ≠ (.ok (.int 1), w') := by
  obtain ⟨t, htree, ht⟩ := isTree_of_break hr hm hrun
  -- It is enough that the tree has another value, as a function that assigns has none.
  have hvalue : ∀ v e' w', ((Direct.eval (generated.program.inside host 999) (r.scope globals) t).run
      (Env.start r.arguments .null gl fm extra)).outcome w = (.ok (v, e'), w') → v ≠ .int 1 := by
    intro v e' w' hv
    rcases ht with rfl | rfl | ⟨c, rfl⟩
    · rw [Direct.eval, Direct.outcome_whole, Direct.reach, Direct.outcome_map, Direct.readName, Direct.outcome_bind,
        Direct.outcome_get] at hv
      rcases Scope.classify_of_not_mem (nodup_of_accepted hrequest) harguments hglobals with hclass | hclass <;>
        rw [hclass] at hv <;> dsimp only at hv
      · cases hv
        dsimp only [Option.getD, Env.start]
        split
        · exact hgl
        · exact hfm
      · rw [Direct.outcome_lift, show (Env.start r.arguments .null gl fm extra).this = .null from rfl] at hv
        rcases generated.program.outcome_get_null host 999 m w with hget | ⟨fault, hget⟩ <;> rw [hget] at hv
        · cases hv
          rintro ⟨⟩
        · cases hv
    · cases hv
      rintro ⟨⟩
    · cases hv
      cases c <;> rintro ⟨⟩
  rw [Program.run_inside, Program.outcome_runIn hrun hrequest htree hextra, Run.outcome_bind]
  rcases hout : ((Direct.eval (generated.program.inside host 999) (r.scope globals) t).run
    (Env.start r.arguments .null gl fm extra)).outcome w with ⟨fault | ⟨v, e'⟩, w''⟩
  · rintro ⟨⟩
  · have hne := hvalue v e' w'' hout
    intro h
    have hone := Except.ok.inj (Prod.mk.inj h).1
    split at hone
    · cases hone
    · exact hne hone

end Values

section Parameters

variable {n : String}

theorem mapM_asciiForm? {cs : List Char} (h : ∀ c ∈ cs, isNameRest c = true) : cs.mapM asciiForm? = some cs := by
  induction cs with
  | nil => rfl
  | cons c cs ih =>
    obtain ⟨hc, hcs⟩ := forall_mem_cons.1 h
    have hascii : c.toNat < 0x80 := by
      simp only [isNameRest, Bool.or_eq_true, decide_eq_true_eq] at hc
      rcases hc with (hc | rfl) | rfl
      · exact (toNat_of_isAlphanum hc).2
      · decide
      · decide
    rw [mapM_cons, ih hcs, show asciiForm? c = some c from if_pos hascii]
    rfl

/-- The parameter for an argument can be one, unless the argument has the name of the constant of the generated
language. -/
theorem canBeNamed_parameterFor (hn : IsName n.toList) :
    canBeNamed (Scope.parameterFor 0 n) = true ↔ n ≠ "__debug__" := by
  unfold Scope.parameterFor
  split
  · rename_i hparameter
    rw [Name.isParameter, Bool.and_eq_true] at hparameter
    have hkept : isKeptAsDebug n.toList = true ↔ n = "__debug__" := by
      rw [isKeptAsDebug, mapM_asciiForm? (all_eq_true.1 hn.2), decide_eq_true_eq, Option.some_inj, String.toList_inj]
    rw [canBeNamed, hparameter.2, Bool.true_and, Bool.not_eq_true', Bool.eq_false_iff, ne_eq, hkept]
  · rename_i hparameter
    have hdebug : Name.isParameter "__debug__" = true := by decide
    exact iff_of_true (by decide) fun hn => hparameter (by rw [hn, hdebug])

end Parameters

section Registered

variable {registry registry' : Registry} {w : World} {name v : Value} {n m : String}

theorem Request.namesProblem?_singleton (h : nameProblem? n = none) : namesProblem? [n] = none := by
  rw [namesProblem?, findSome?_cons, h, findSome?_nil]
  simp

theorem lookup_putAttribute_of_ne (attributes : List (String × Value)) (h : m ≠ n) (v : Value) :
    (putAttribute attributes m v).lookup n = attributes.lookup n := by
  unfold putAttribute
  split
  · rename_i hany
    clear hany
    induction attributes with
    | nil => rfl
    | cons a rest ih =>
      obtain ⟨l, old⟩ := a
      rw [map_cons, lookup_cons, lookup_cons, ih]
      by_cases hl : l = m
      · simp [hl, beq_false_of_ne (Ne.symm h)]
      · simp [hl]
  · rw [lookup_append, lookup_cons, beq_false_of_ne (Ne.symm h), lookup_nil, Option.or_none]

theorem lookup_filter_of_ne (attributes : List (String × Value)) (h : m ≠ n) :
    (attributes.filter (·.1 ≠ m)).lookup n = attributes.lookup n := by
  induction attributes with
  | nil => rfl
  | cons a rest ih =>
    rw [filter_cons, lookup_cons]
    by_cases ha : a.1 = m
    · rw [if_neg (by simp [ha]), ih, ha, beq_false_of_ne (Ne.symm h)]
    · rw [if_pos (by simpa using ha), lookup_cons, ih]

theorem Registry.checkName_eq_ok {w : World} {name : Value} (h : checkName w name = .ok n) :
    name = .str n ∧ nameProblem? n = none := by
  unfold checkName at h
  split at h
  · split at h
    · cases h
    · split at h
      · cases h
      · rename_i hname hreserved
        cases h
        refine ⟨rfl, ?_⟩
        rw [nameProblem?, if_neg hname, if_neg (by simp [hreserved])]
  · cases h

theorem Registry.checkName_eq (h : nameProblem? n = none) (w : World) : checkName w (.str n) = .ok n := by
  have hreserved : Name.isReserved n = false := by
    rw [Name.isReserved, Bool.or_eq_false_iff, Bool.eq_false_iff, ne_eq, contains_iff_mem]
    exact ⟨not_mem_reserved_of_accepted h, not_synthetic_of_accepted (namesProblem?_singleton h) n (.head _)⟩
  rw [checkName, isName_of_accepted h, hreserved]
  rfl

theorem Registry.register_eq_ok (h : registry.register w name v = .ok registry') :
    ∃ n, name = .str n ∧ nameProblem? n = none ∧ registry' = ⟨putAttribute registry.entries n v⟩ := by
  unfold Registry.register at h
  rcases hname : checkName w name with f | n <;> rw [hname] at h
  · cases h
  · obtain ⟨hn, hproblem⟩ := checkName_eq_ok hname
    cases h
    exact ⟨n, hn, hproblem, rfl⟩

theorem Registry.unregister_eq_ok (h : registry.unregister w name = .ok registry') :
    ∃ n, name = .str n ∧ registry' = ⟨registry.entries.filter (·.1 ≠ n)⟩ := by
  unfold Registry.unregister entry at h
  split at h
  · cases h
  · cases name with
    | str n =>
      dsimp only at h
      cases hfind : registry.find? n with
      | none =>
        rw [hfind] at h
        cases h
      | some u =>
        rw [hfind] at h
        cases h
        exact ⟨n, rfl, rfl⟩
    | _ => cases h

end Registered

open NullSafe.Action

namespace Service

theorem outcome_changeRegistry_eq (k : Nat) (f : Registry → World → Except Registry.Fault Registry) (s : Service) :
    (changeRegistry k f).outcome s = match f (s.registryAt k) s.world with
      | .ok r => (.ok ⟨⟩, s.setRegistry k r)
      | .error e => (.error (.registry e), s) := by
  rw [changeRegistry, outcome_bind, outcome_get]
  dsimp only
  rcases f (s.registryAt k) s.world with e | r <;> rfl

theorem outcome_updateRegistry_snd (k : Nat) (values : Value) (s : Service) :
    ((updateRegistry k values).outcome s).2 = s.setRegistry k ((s.registryAt k).update s.world values).1 := by
  rw [updateRegistry, outcome_bind, outcome_get]
  dsimp only
  rw [outcome_bind, outcome_set]
  dsimp only
  split <;> rfl

theorem registryAt_setRegistry (s : Service) (k : Nat) (r : Registry) (j : Nat) :
    (s.setRegistry k r).registryAt j = if j = k ∧ k < s.registries.size then r else s.registryAt j := by
  unfold registryAt setRegistry
  dsimp only
  rw [Array.getElem?_setIfInBounds]
  by_cases hj : k = j
  · subst hj
    by_cases hk : k < s.registries.size
    · simp [hk]
    · simp [hk]
  · simp [hj, Ne.symm hj]

/-- A step neither registers a name again, nor removes it, nor registers several names at once. -/
def Step.Spares (k : Nat) (n : String) : Step → Prop
  | register j name _ | unregister j name => j = k → name ≠ .str n
  | update j _ => j ≠ k
  | _ => True

theorem find?_changeRegistry {j k : Nat} {n : String} {f : Registry → World → Except Registry.Fault Registry}
    {s : Service} (h : ∀ r, f (s.registryAt j) s.world = .ok r → j = k → r.find? n = (s.registryAt j).find? n) :
    (((changeRegistry j f).outcome s).2.registryAt k).find? n = (s.registryAt k).find? n := by
  rw [outcome_changeRegistry_eq]
  rcases hf : f (s.registryAt j) s.world with e | r
  · rfl
  · dsimp only
    rw [registryAt_setRegistry]
    split
    · rename_i hk
      rw [hk.1, h r hf hk.1.symm]
    · rfl

theorem find?_take {k : Nat} {n : String} {step : Step} (h : step.Spares k n) (s : Service) :
    ((step.take s).2.registryAt k).find? n = (s.registryAt k).find? n := by
  cases step with
  | ask => rw [registryAt, (ask_keeps ..).1, ← registryAt]
  | clearCache | evolve => rfl
  | register j name v =>
    refine find?_changeRegistry fun registry hregister hj => ?_
    obtain ⟨m, rfl, -, rfl⟩ := register_eq_ok hregister
    exact lookup_putAttribute_of_ne _ (fun hm => h hj (by rw [hm])) v
  | unregister j name =>
    refine find?_changeRegistry fun registry hunregister hj => ?_
    obtain ⟨m, rfl, rfl⟩ := unregister_eq_ok hunregister
    exact lookup_filter_of_ne _ fun hm => h hj (by rw [hm])
  | update j values =>
    rw [Step.take, outcome_updateRegistry_snd, registryAt_setRegistry, if_neg fun hj => h hj.1.symm]

theorem find?_run {k : Nat} {n : String} {steps : List Step} (h : ∀ step ∈ steps, step.Spares k n) (s : Service) :
    ((run steps s).2.registryAt k).find? n = (s.registryAt k).find? n := by
  induction steps generalizing s with
  | nil => rfl
  | cons step steps ih =>
    obtain ⟨hstep, hsteps⟩ := forall_mem_cons.1 h
    rw [run, ih hsteps, find?_take hstep]

/-- A name that was registered is read by every expression that is compiled from it afterwards, whatever the binding
context is. -/
def ReadsRegistered (functionName n : String) : Prop :=
  ∀ (s s' : Service) (k : Nat) (v : Value), k < s.registries.size →
    (changeRegistry k fun r w => r.register w (.str n) v).outcome s = (.ok ⟨⟩, s') →
    ∀ (steps : List Step) (i : Nat), (∀ step ∈ steps, step.Spares k n) →
      let t := (run steps s').2
      (t.compilerAt i).registry = k → (t.compilerAt i).config.functionName = functionName →
      (t.compilerAt i).cached? ⟨n, [], false⟩ = none →
      ∀ formatters, ∃ x t', (parse i (.str n) .null formatters []).outcome t = (.ok x, t') ∧
        ∀ host this w, w.dict x.globals = t'.world.dict x.globals → (x.call host this []).outcome w = (.ok v, w)

/-- The only argument of an expression is read by its name, whatever the binding context is, also if the expression was
compiled before. -/
def ReadsArgument (functionName n : String) : Prop :=
  ∀ (s : Service) (i : Nat), (s.compilerAt i).cache = [] → (s.compilerAt i).config.functionName = functionName →
    ∀ steps : List Step, ∃ x t', (parse i (.str n) .null .null [.str n]).outcome (run steps s).2 = (.ok x, t') ∧
      ∀ host this v w, (x.call host this [v]).outcome w = (.ok v, w)

section Reading

variable {functionName n : String} (h : nameProblem? n = none) {s : Service}

include h

theorem not_mem_words : n ∉ words := by
  have hreserved : ∀ word ∈ words, word ∈ Name.reserved := by decide
  exact fun hmem => not_mem_reserved_of_accepted h (hreserved n hmem)

theorem ofValues_singleton (w : World) (expression : String) :
    ofValues (.str expression) (w.spreadArguments [.str n]) false = .ok ⟨expression, [n], false⟩ := by
  have hproblems : argumentProblems [.str n] = [] := by
    change (namesProblem? [n]).toList = []
    rw [namesProblem?_singleton h]
    rfl
  rw [show w.spreadArguments [.str n] = [.str n] from rfl, ofValues, hproblems]
  rfl

theorem classify_registered {globals : List String} (hn : n ∈ globals) :
    (Scope.ofNames globals []).classify n = .global := by
  have hkeyword : Scope.keywords.contains n = false := by
    have hreserved : ∀ word ∈ Scope.keywords, word ∈ Name.reserved := by decide
    rw [Bool.eq_false_iff, ne_eq, contains_iff_mem]
    exact fun hmem => not_mem_reserved_of_accepted h (hreserved n hmem)
  have hglobal : (Scope.ofNames globals []).globals.contains n = true := contains_iff_mem.2 hn
  rw [Scope.classify, hkeyword, hglobal]
  rfl

omit h

theorem outcome_parse {r : Request} {arguments : List Value}
    (h : ofValues (.str n) (s.world.spreadArguments arguments) false = .ok r) (i : Nat) (formatters : Value) :
    (parse i (.str n) .null formatters arguments).outcome s = (compile i r .null formatters).outcome s := by
  have hask := outcome_ask i false (.str n) .null formatters arguments s
  have hrequest : requestOf s.world false (.str n) arguments = .ok r := by
    rw [requestOf, h]
    rfl
  rw [hrequest] at hask
  exact hask

theorem exists_compile {i : Nat} {r : Request} (hmissing : (s.compilerAt i).cached? r = none)
    (hrun : ∀ globals, ∃ generated, Compile.run (s.compilerAt i).config.functionName globals r = .ok generated)
    (formatters : Value) : ∃ x s', (compile i r .null formatters).outcome s = (.ok x, s') := by
  obtain ⟨entries, hmerged⟩ :
    ∃ entries, mergedGlobals s.world (s.registryAt (s.compilerAt i).registry) .null = .ok entries := ⟨_, rfl⟩
  obtain ⟨generated, hgenerated⟩ := hrun (entryNames entries)
  have hprepare : s.prepare (s.compilerAt i) r .null = .ok (entries, generated) := by
    rw [prepare, hmerged]
    dsimp only
    rw [hgenerated]
  exact ⟨_, _, outcome_compile_ok hmissing hprepare formatters⟩

theorem readsRegistered (h : nameProblem? n = none) (hn : IsName n.toList)
    (hname : canDeclare functionName [] = true) : ReadsRegistered functionName n := by
  intro s s' k v hk hregister steps i hspares t hregistry hfunction hmissing formatters
  have htree : (⟨n, [], false⟩ : Request).IsTree (.name n) := isTree_name rfl hn (not_mem_words h)
  have hfind : (s'.registryAt k).find? n = some v := by
    rw [outcome_changeRegistry_eq] at hregister
    cases hr : (s.registryAt k).register s.world (.str n) v with
    | error f =>
      rw [hr] at hregister
      cases hregister
    | ok registry =>
      rw [hr] at hregister
      cases hregister
      obtain ⟨m, hm, -, rfl⟩ := register_eq_ok hr
      cases hm
      rw [registryAt_setRegistry, if_pos ⟨rfl, hk⟩]
      exact World.lookup_putAttribute _ _ _
  rw [← find?_run hspares] at hfind
  have hrun : ∀ globals, ∃ generated,
      Compile.run (t.compilerAt i).config.functionName globals ⟨n, [], false⟩ = .ok generated := fun globals => by
    rw [hfunction]
    exact (exists_run_iff htree).2 ⟨hname, rfl, rfl⟩
  obtain ⟨x, t', hout⟩ := exists_compile hmissing hrun formatters
  refine ⟨x, t', (outcome_parse rfl i formatters).trans hout, fun host this w hw => ?_⟩
  have hanswers := answers_compile i ⟨n, [], false⟩ .null formatters t
  rw [hout] at hanswers
  obtain ⟨entries, hbuilt, -, -, hdict⟩ := hanswers.builtAt hmissing
  have hlookup : entries.lookup (.str n) = some v := by
    rw [hbuilt.missing rfl, hregistry]
    exact hfind
  have hclass := classify_registered h (mem_entryNames_iff.2 (by rw [hlookup]; rfl))
  have hvalue : (w.dict x.globals).lookup (.str n) = some v := by rw [hw, hdict, hlookup]
  rw [Compiled.call, Program.run_inside]
  refine (Program.outcome_runIn hbuilt.compiled rfl htree le_rfl _ w).trans ?_
  rw [Run.outcome_bind, Direct.outcome_eval_global hclass rfl hvalue]
  rfl

/-- A compiler whose functions have a name, and whose remembered answers were all compiled. -/
structure Genuine (functionName : String) (c : Compiler) : Prop where
  name : c.config.functionName = functionName
  run_of_cached : ∀ r x, c.cached? r = some x →
    ∃ globals, Compile.run functionName globals r = .ok ⟨x.program, x.source⟩

theorem Genuine.take {i : Nat} (h : Genuine functionName (s.compilerAt i)) (step : Step) :
    Genuine functionName ((step.take s).2.compilerAt i) := by
  have htakes := takes_take i step s
  have hcached := fun r x => @cached?_take s step i r x
  generalize step.take s = p at htakes hcached ⊢
  refine ⟨?_, fun r x hx => ?_⟩
  · have hkept : ∀ {s' : Service}, s'.compilers[i]? = s.compilers[i]? →
        (s'.compilerAt i).config.functionName = functionName := fun hcompiler => by
      rw [compilerAt, hcompiler, ← compilerAt, h.name]
    have hset : ∀ {s' : Service} {c : Compiler}, s'.compilers = s.compilers.setIfInBounds i c →
        c.config = (s.compilerAt i).config → (s'.compilerAt i).config.functionName = functionName :=
      fun hcompilers hc => by
        rcases compilerAt_of_compilers_eq hcompilers with hs' | hs' <;> rw [hs']
        · rw [hc, h.name]
        · exact h.name
    cases htakes with
    | reused _ _ hcompiler | aside _ _ _ hcompiler => exact hkept hcompiler
    | cleared _ hcompilers => exact hset hcompilers rfl
    | compiled _ _ _ _ _ hcompilers =>
      refine hset hcompilers ?_
      unfold Compiler.remember
      split <;> rfl
  · rcases hcached r x hx with hx | hevent
    · exact h.run_of_cached r x hx
    · cases htakes with
      | reused hold =>
        cases hevent
        exact h.run_of_cached r x hold
      | compiled _ hr _ hmade =>
        cases hevent
        rw [Made, hr, h.name] at hmade
        exact ⟨_, hmade⟩
      | cleared => cases hevent
      | aside hanswered => exact absurd hevent (hanswered r x)

theorem Genuine.run {i : Nat} (h : Genuine functionName (s.compilerAt i)) (steps : List Step) :
    Genuine functionName ((Service.run steps s).2.compilerAt i) := by
  induction steps generalizing s with
  | nil => exact h
  | cons step steps ih => exact ih (h.take step)

theorem outcome_call_argument (h : nameProblem? n = none) (hn : IsName n.toList) {globals : List String}
    {x : Compiled} (hrun : Compile.run functionName globals ⟨n, [n], false⟩ = .ok ⟨x.program, x.source⟩) (host : Host)
    (this v : Value) (w : World) : (x.call host this [v]).outcome w = (.ok v, w) := by
  have hrequest := namesProblem?_singleton h
  have htree : (⟨n, [n], false⟩ : Request).IsTree (.name n) := isTree_name rfl hn (not_mem_words h)
  have hclass : (Scope.ofNames globals [n]).classify n = .argument :=
    if_pos (Scope.isSome_parameter?_of_mem globals (nodup_of_accepted hrequest) (.head _))
  rw [Compiled.call, Program.run_inside]
  refine (Program.outcome_runIn hrun hrequest htree le_rfl _ w).trans ?_
  rw [Run.outcome_bind, Direct.outcome_eval_argument _ _ hclass]
  have hargument : (Env.start [n] this (.dict x.globals) x.formatters [v]).argument n = v := by
    simp [Env.start, Env.argument]
  dsimp only
  rw [hargument]
  rfl

theorem canDeclare_parameters (hn : IsName n.toList) (globals : List String) :
    canDeclare functionName (Scope.ofNames globals [n]).parameters = true ↔
      canDeclare functionName [] = true ∧ n ≠ "__debug__" := by
  have hparameters : (Scope.ofNames globals [n]).parameters = [Scope.parameterFor 0 n] := rfl
  rw [hparameters, canDeclare, canDeclare, ← canBeNamed_parameterFor hn]
  simp only [all_cons, all_nil, Bool.and_true, Bool.and_eq_true]
  tauto

theorem readsArgument (h : nameProblem? n = none) (hn : IsName n.toList)
    (hname : canDeclare functionName [] = true) (hdebug : n ≠ "__debug__") : ReadsArgument functionName n := by
  intro s i hempty hfunction steps
  have htree : (⟨n, [n], false⟩ : Request).IsTree (.name n) := isTree_name rfl hn (not_mem_words h)
  have hgenuine : Genuine functionName ((run steps s).2.compilerAt i) := by
    refine Genuine.run ⟨hfunction, fun r x hx => ?_⟩ steps
    rw [Compiler.cached?, hempty, lookup_nil, ite_self] at hx
    cases hx
  have hout : ∃ x t', (compile i ⟨n, [n], false⟩ .null .null).outcome (run steps s).2 = (.ok x, t') ∧
      ∃ globals, Compile.run functionName globals ⟨n, [n], false⟩ = .ok ⟨x.program, x.source⟩ := by
    cases hcached : ((run steps s).2.compilerAt i).cached? ⟨n, [n], false⟩ with
    | some x =>
      exact ⟨x, _, outcome_compile_cached hcached .null .null, hgenuine.run_of_cached _ x hcached⟩
    | none =>
      have hrun : ∀ globals, ∃ generated, Compile.run ((run steps s).2.compilerAt i).config.functionName globals
          ⟨n, [n], false⟩ = .ok generated := fun globals => by
        rw [hgenuine.name]
        exact (exists_run_iff htree).2 ⟨(canDeclare_parameters hn globals).2 ⟨hname, hdebug⟩, rfl, rfl⟩
      obtain ⟨x, t', hout⟩ := exists_compile hcached hrun .null
      have hanswers := answers_compile i ⟨n, [n], false⟩ .null .null (run steps s).2
      rw [hout] at hanswers
      obtain ⟨entries, hbuilt, -⟩ := hanswers.builtAt hcached
      exact ⟨x, t', hout, entryNames entries, hgenuine.name ▸ hbuilt.compiled⟩
  obtain ⟨x, t', hout, globals, hrun⟩ := hout
  exact ⟨x, t', (outcome_parse (ofValues_singleton h _ n) i .null).trans hout, fun host this v w =>
    outcome_call_argument h hn hrun host this v w⟩

end Reading

section Breaks

variable {functionName n : String}

def bare (functionName : String) : Service :=
  { registries := #[{}], compilers := #[⟨{ functionName }, 0, []⟩] }

theorem ne_of_break {m : String} (h : n.toList = m.toList ++ ['\n']) : m ≠ n := by
  rintro rfl
  simp at h

variable (h : nameProblem? n = none)

include h

/-- The text of a name has the value one only if the name has no line break at its end: the name before the break would
have to have that value. -/
theorem isName_of_reads {s t : Service} {i : Nat} {names : List String} {x : Compiled} {args : List Value}
    (hnames : namesProblem? names = none)
    (hmissing : (s.compilerAt i).cached? ⟨n, names, false⟩ = none)
    (hout : (compile i ⟨n, names, false⟩ .null .null).outcome s = (.ok x, t))
    (hother : ∀ m, m ≠ n → m ∉ names ∧ (s.registryAt (s.compilerAt i).registry).find? m = none)
    (hargs : args.length ≤ names.length) {w : World}
    (hcall : (x.call bareHost .null args).outcome w = (.ok (.int 1), w)) :
    n.toList.getLast? ≠ some '\n' ∧ IsName n.toList ∧
      ∃ globals, Compile.run (s.compilerAt i).config.functionName globals ⟨n, names, false⟩ =
        .ok ⟨x.program, x.source⟩ := by
  have hanswers := answers_compile i ⟨n, names, false⟩ .null .null s
  rw [hout] at hanswers
  obtain ⟨entries, hbuilt, hformatters, -⟩ := hanswers.builtAt hmissing
  rcases Name.isName_cases (isName_of_accepted h) with ⟨hlast, hn⟩ | ⟨m, hm, hname⟩
  · exact ⟨hlast, hn, entryNames entries, hbuilt.compiled⟩
  · obtain ⟨hmnames, hfind⟩ := hother m (ne_of_break hm)
    have hglobals : m ∉ entryNames entries := by
      rw [mem_entryNames_iff, hbuilt.missing rfl, hfind]
      exact Bool.false_ne_true
    have hmapping : x.formatters ≠ .int 1 := by
      rw [hformatters]
      nofun
    have hown : (.dict x.globals : Value) ≠ .int 1 := nofun
    exact absurd hcall
      (outcome_run_break_ne hm hname hnames hbuilt.compiled hglobals hmnames bareHost hown hmapping hargs w w)

theorem isName_of_unbroken (hlast : n.toList.getLast? ≠ some '\n') : IsName n.toList := by
  rcases Name.isName_cases (isName_of_accepted h) with ⟨-, hn⟩ | ⟨m, hm, -⟩
  · exact hn
  · exact absurd (by rw [hm]; exact getLast?_concat) hlast

theorem readsRegistered_iff : ReadsRegistered functionName n ↔
    canDeclare functionName [] = true ∧ n.toList.getLast? ≠ some '\n' := by
  refine ⟨fun hreads => ?_, fun ⟨hname, hlast⟩ => ?_⟩
  · have hregister : (changeRegistry 0 fun r w => r.register w (.str n) (.int 1)).outcome (bare functionName) =
        (.ok ⟨⟩, (bare functionName).setRegistry 0 ⟨[(n, .int 1)]⟩) := by
      rw [outcome_changeRegistry_eq, Registry.register, checkName_eq h]
      rfl
    obtain ⟨x, t, hparse, hcall⟩ := hreads (bare functionName) _ 0 (.int 1) Nat.zero_lt_one hregister [] 0 nofun rfl rfl
      rfl .null
    have hother : ∀ m, m ≠ n → List.lookup m [(n, Value.int 1)] = none := fun m hm => by
      rw [lookup_cons, beq_false_of_ne hm]
      rfl
    obtain ⟨hlast, hn, globals, hrun⟩ := isName_of_reads h rfl rfl ((outcome_parse rfl 0 .null).symm.trans hparse)
      (fun m hm => ⟨nofun, hother m hm⟩) le_rfl (hcall bareHost .null t.world rfl)
    have htree : (⟨n, [], false⟩ : Request).IsTree (.name n) := isTree_name rfl hn (not_mem_words h)
    exact ⟨((exists_run_iff htree).1 ⟨_, hrun⟩).1, hlast⟩
  · exact readsRegistered h (isName_of_unbroken h hlast) hname

theorem readsArgument_iff : ReadsArgument functionName n ↔
    canDeclare functionName [] = true ∧ n.toList.getLast? ≠ some '\n' ∧ n ≠ "__debug__" := by
  refine ⟨fun hreads => ?_, fun ⟨hname, hlast, hdebug⟩ => ?_⟩
  · obtain ⟨x, t, hparse, hcall⟩ := hreads (bare functionName) 0 rfl rfl []
    obtain ⟨hlast, hn, globals, hrun⟩ := isName_of_reads h (namesProblem?_singleton h) rfl
      ((outcome_parse (ofValues_singleton h _ n) 0 .null).symm.trans hparse)
      (fun m hm => ⟨fun hmem => hm (mem_singleton.1 hmem), rfl⟩) le_rfl (hcall bareHost .null (.int 1) t.world)
    have htree : (⟨n, [n], false⟩ : Request).IsTree (.name n) := isTree_name rfl hn (not_mem_words h)
    obtain ⟨hname, hdebug⟩ := (canDeclare_parameters hn globals).1 ((exists_run_iff htree).1 ⟨_, hrun⟩).1
    exact ⟨hname, hlast, hdebug⟩
  · exact readsArgument h (isName_of_unbroken h hlast) hname hdebug

omit h

/-- Names that can be registered, and names that arguments can have, can be referred to, as far as functions can be
declared at all. Exceptions are the names that end in a line break and, of arguments, the name of the constant of the
generated language. -/
theorem reads_iff_of_accepted (functionName n : String) :
    ((∃ registry w v registry', Registry.register registry w (.str n) v = .ok registry') →
      (ReadsRegistered functionName n ↔ Compile.canDeclare functionName [] = true ∧ n.toList.getLast? ≠ some '\n')) ∧
    ((∃ expression r, Request.ofValues expression [.str n] false = .ok r) →
      (ReadsArgument functionName n ↔
        Compile.canDeclare functionName [] = true ∧ n.toList.getLast? ≠ some '\n' ∧ n ≠ "__debug__")) := by
  constructor
  · rintro ⟨registry, w, v, registry', hregister⟩
    obtain ⟨_, hn, hproblem, -⟩ := Registry.register_eq_ok hregister
    cases hn
    exact readsRegistered_iff hproblem
  · rintro ⟨expression, r, hr⟩
    obtain ⟨_, -, hnames, -⟩ := Request.ofValues_eq_ok hr
    exact readsArgument_iff (Request.nameProblem_of_accepted hnames (.head _))

/-- A plain name can be referred to, both as a registered one and as that of an argument. -/
theorem reads_plainName : ReadsRegistered "expression" "x" ∧ ReadsArgument "expression" "x" := by
  have hname : Compile.canDeclare "expression" [] = true := by decide +kernel
  obtain ⟨hregistered, hargument⟩ := reads_iff_of_accepted "expression" "x"
  refine ⟨(hregistered ⟨{}, .initial, .null, _, rfl⟩).2 ⟨hname, by decide⟩, ?_⟩
  exact (hargument ⟨.str "x", _, rfl⟩).2 ⟨hname, by decide, by decide⟩

/-- A name that ends in a line break is accepted, both for registering and for an argument, and cannot be referred
to. -/
theorem not_reads_brokenName :
    (∃ registry, Registry.register {} .initial (.str "x\n") .null = .ok registry) ∧
      (∃ r, Request.ofValues (.str "x\n") [.str "x\n"] false = .ok r) ∧
      ¬ ReadsRegistered "expression" "x\n" ∧ ¬ ReadsArgument "expression" "x\n" := by
  have hproblem : Request.nameProblem? "x\n" = none := by decide +kernel
  refine ⟨⟨_, rfl⟩, ⟨_, rfl⟩, fun hreads => ?_, fun hreads => ?_⟩
  · exact ((readsRegistered_iff hproblem).1 hreads).2 (by decide)
  · exact ((readsArgument_iff hproblem).1 hreads).2.1 (by decide)

end Breaks

end Service

end NullSafe
