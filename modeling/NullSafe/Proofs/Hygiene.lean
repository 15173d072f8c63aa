import NullSafe.Proofs.Temporaries

/-! # Names in generated functions

The parameters of a generated function are told apart from each other and from every name that generated code uses.
Its body is one line, after a line that declares its temporaries if it has any, and mentions no other names.
-/

namespace NullSafe

open Surface Text List Request

section Literals

open Literal

theorem lt_of_codePoint {u : Literal.Unit} {n : Nat} (hu : ∀ k, u = .code k → k < 0x110000) (h : u.codePoint = .ok n) :
    n < 0x110000 := by
  cases u with
  | code k =>
    cases h
    exact hu _ rfl
  | escape hex =>
    change Literal.codePoint (ofHex hex) = .ok n at h
    unfold Literal.codePoint at h
    split at h
    · cases h
      assumption
    · split at h <;> cases h

theorem simpleEscape_lt (c : Char) : simpleEscape c < 0x110000 := by
  unfold simpleEscape
  split
  case h_8 => exact toNat_lt c
  all_goals decide

theorem lt_of_mem_units (cs : List Char) : ∀ k, Literal.Unit.code k ∈ units cs → k < 0x110000 := by
  fun_induction units cs with
  | case1 => nofun
  | case2 c rest hex after _ ih =>
    intro k hk
    rcases mem_cons.1 hk with hk | hk
    · cases hk
    · exact ih k hk
  | case3 _ _ _ _ ih | case4 _ _ _ _ _ ih => exact ih
  | case5 c rest _ _ _ ih =>
    intro k hk
    rcases mem_cons.1 hk with hk | hk
    · cases hk
      exact simpleEscape_lt c
    · exact ih k hk
  | case6 c rest _ ih =>
    intro k hk
    rcases mem_cons.1 hk with hk | hk
    · cases hk
      exact toNat_lt c
    · exact ih k hk

theorem lt_of_mapM {us : List Literal.Unit} {ns : List Nat} (hus : ∀ k, Literal.Unit.code k ∈ us → k < 0x110000)
    (h : us.mapM Literal.Unit.codePoint = .ok ns) : ∀ n ∈ ns, n < 0x110000 := by
  induction us generalizing ns with
  | nil =>
    cases h
    nofun
  | cons u us ih =>
    rw [mapM_cons] at h
    rcases hu : u.codePoint with f | n <;> rw [hu] at h
    · cases h
    rcases hrest : us.mapM Literal.Unit.codePoint with f | rest <;> rw [hrest] at h
    · cases h
    cases h
    refine forall_mem_cons.2 ⟨lt_of_codePoint ?_ hu, ih (fun k hk => hus k (.tail _ hk)) hrest⟩
    rintro k rfl
    exact hus k (.head _)

theorem isWritten_of_ofRaw {raw : List Char} {l : Literal} (h : ofRaw raw = .ok l) : (Leaf.literal l).IsWritten := by
  unfold ofRaw at h
  split at h
  · cases h
    trivial
  · unfold unescape at h
    rcases hcodes : (units (raw.drop 1).dropLast).mapM Literal.Unit.codePoint with f | codes <;> rw [hcodes] at h
    · cases h
    · cases h
      exact lt_of_mapM (lt_of_mem_units _) hcodes

end Literals

section Trees

theorem yields_fill_placeholder (p : Placeholder) : Yields Leaf.IsWritten p.fill := by
  intro queue r h
  rw [Placeholder.fill, StateT.run_bind, StateT.run_get] at h
  rcases queue with _ | ⟨raw, queue⟩
  · cases h
    trivial
  · change ((do
      set queue
      return .literal (← Literal.ofRaw raw) : Filling Leaf).run (raw :: queue)) = _ at h
    rcases hraw : Literal.ofRaw raw with f | l <;> rw [hraw] at h <;> cases h
    exact isWritten_of_ofRaw hraw

theorem yields_fill_key (k : Key Placeholder) : Yields (fun k => (keyCode k).IsWritten) k.fill := by
  cases k with
  | name | number => exact .pure trivial
  | literal p => exact (yields_fill_placeholder p).bind fun _ hx => .pure hx

mutual

theorem yields_written : ∀ t : Expr Placeholder, (∀ s ∈ t.numbers, IsNumeral s.toList) → Yields Expr.IsWritten t.fill
  | .number digits, h => by
    rw [Expr.fill]
    exact .pure (h digits (.head _))
  | .literal p, _ => by
    rw [Expr.fill]
    exact (yields_fill_placeholder p).bind fun _ hx => .pure hx
  | .constant _, _ | .this, _ | .name _, _ => by
    rw [Expr.fill]
    exact .pure trivial
  | .array items, h => by
    rw [Expr.fill]
    exact (yields_writtenAll items h).bind fun _ hx => .pure hx
  | .object entries, h => by
    rw [Expr.fill]
    exact (yields_writtenEntries entries h).bind fun _ hx => .pure hx
  | .member target _, h => by
    rw [Expr.fill]
    exact (yields_written target h).bind fun _ hx => .pure hx
  | .unary _ operand, h => by
    rw [Expr.fill]
    exact (yields_written operand h).bind fun _ hx => .pure hx
  | .index x y, h | .binary _ x y, h | .logical _ x y, h | .assign x y, h => by
    have hparts := forall_mem_append.1 h
    rw [Expr.fill]
    exact (yields_written x hparts.1).bind fun _ hx => (yields_written y hparts.2).bind fun _ hy => .pure ⟨hx, hy⟩
  | .call callee arguments, h => by
    have hparts := forall_mem_append.1 h
    rw [Expr.fill]
    exact (yields_written callee hparts.1).bind fun _ hx =>
      (yields_writtenAll arguments hparts.2).bind fun _ hy => .pure ⟨hx, hy⟩
  | .conditional test yes no, h => by
    have hparts := forall_mem_append.1 h
    have hbranches := forall_mem_append.1 hparts.2
    rw [Expr.fill]
    exact (yields_written test hparts.1).bind fun _ hx => (yields_written yes hbranches.1).bind fun _ hy =>
      (yields_written no hbranches.2).bind fun _ hz => .pure ⟨hx, hy, hz⟩

theorem yields_writtenAll : ∀ ts : List (Expr Placeholder), (∀ s ∈ Expr.numbersAll ts, IsNumeral s.toList) →
    Yields Expr.AreWritten (Expr.fillAll ts)
  | [], _ => by
    rw [Expr.fillAll]
    exact .pure trivial
  | t :: rest, h => by
    have hparts := forall_mem_append.1 h
    rw [Expr.fillAll]
    exact (yields_written t hparts.1).bind fun _ hx => (yields_writtenAll rest hparts.2).bind fun _ hy => .pure ⟨hx, hy⟩

theorem yields_writtenEntries : ∀ es : List (Key Placeholder × Expr Placeholder),
    (∀ s ∈ Expr.numbersEntries es, IsNumeral s.toList) → Yields Expr.EntriesWritten (Expr.fillEntries es)
  | [], _ => by
    rw [Expr.fillEntries]
    exact .pure trivial
  | (k, t) :: rest, h => by
    have hparts := forall_mem_append.1 h
    rw [Expr.fillEntries]
    exact (yields_fill_key k).bind fun _ hk => (yields_written t hparts.1).bind fun _ hx =>
      (yields_writtenEntries rest hparts.2).bind fun _ hy => .pure ⟨hk, hx, hy⟩

end

variable {functionName : String} {globals : List String} {r : Request} {generated : Generated} {t : Expr Leaf}

theorem Request.IsTree.isWritten (h : r.IsTree t) : t.IsWritten := by
  obtain ⟨text, t₀, -, hparse, hfilled⟩ := h
  rw [Expr.filled] at hfilled
  rcases hrun : t₀.fill.run (Literal.literals r.expression.toList) with f | ⟨x, rest⟩ <;> rw [hrun] at hfilled <;>
    cases hfilled
  exact yields_written t₀ (isNumeral_of_parse hparse) _ _ hrun

theorem Compile.exists_isTree (hrun : Compile.run functionName globals r = .ok generated) : ∃ t, r.IsTree t := by
  obtain ⟨body, code, hbody, hcode, -⟩ := Compile.run_eq_ok hrun
  obtain ⟨text, t₀, htext, hparse, hemit⟩ := Compile.analyse_eq_ok hbody
  have hfill := fill_emit hemit (Literal.literals r.expression.toList)
  rcases htree : t₀.filled (Literal.literals r.expression.toList) with fault | tree <;> rw [htree] at hfill
  · rw [hfill] at hcode
    cases hcode
  · exact ⟨tree, text, t₀, htext, hparse, htree⟩

end Trees

section Parameters

variable {globals names : List String} {n : String}

theorem Name.isSynthetic_temporaryName (k : Nat) : Name.isSynthetic (temporaryName k) = true := by
  have hlist : (temporaryName k).toList = ['_', 'r', 'e', 'f'] ++ Nat.toDigits 10 k := by
    rw [temporaryName, String.toList_append, Name.toList_toString]
    rfl
  have hall : ∀ c ∈ Nat.toDigits 10 k, isDecimal c = true := fun c hc =>
    Name.isDecimal_of_isDigit (Nat.isDigit_of_mem_toDigits (by decide) (by decide) hc)
  have hbreak : Name.dropFinalBreak (['_', 'r', 'e', 'f'] ++ Nat.toDigits 10 k) =
      ['_', 'r', 'e', 'f'] ++ Nat.toDigits 10 k := by
    refine if_neg fun hlast => ?_
    rw [getLast?_append_of_ne_nil _ Nat.toDigits_ne_nil] at hlast
    exact absurd (hall _ (mem_of_getLast? hlast)) (by decide)
  have hnumbered : Name.isNumbered "_ref" "" (['_', 'r', 'e', 'f'] ++ Nat.toDigits 10 k) = true := by
    have hne : Nat.toDigits 10 k ≠ [] := Nat.toDigits_ne_nil
    simp [Name.isNumbered, show "_ref".length = 4 by decide, hne, takeWhile_eq_self_iff.2 hall,
      dropWhile_eq_nil_iff.2 hall]
  rw [Name.isSynthetic, hlist, hbreak, hnumbered, Bool.true_or]

theorem Request.nameProblem_of_accepted (h : namesProblem? names = none) (hn : n ∈ names) : nameProblem? n = none := by
  unfold namesProblem? at h
  split at h
  · cases h
  · rename_i hall
    exact findSome?_eq_none_iff.1 hall n hn

theorem Request.isName_of_accepted (h : nameProblem? n = none) : Name.isName n = true := by
  unfold nameProblem? at h
  split at h
  · cases h
  · rename_i hname
    simpa using hname

theorem Request.not_mem_reserved_of_accepted (h : nameProblem? n = none) : n ∉ Name.reserved := by
  by_cases hv : n = valueName
  · rw [hv]
    decide +kernel
  · intro hmem
    have hreserved : Name.isReserved n = true := by
      rw [Name.isReserved, contains_iff_mem.2 hmem, Bool.true_or]
    unfold nameProblem? at h
    rw [if_neg (by rw [isName_of_accepted h]; decide), hreserved] at h
    simp [hv] at h

theorem isName_of_isIdentifier (hname : Name.isName n = true) (h : isIdentifier n.toList = true) : IsName n.toList := by
  have hcontinue : ∀ c ∈ n.toList, c ≠ '\n' := by
    rcases hcs : n.toList with _ | ⟨c, cs⟩ <;> rw [hcs] at h
    · nofun
    · rw [isIdentifier, Bool.and_eq_true, all_eq_true] at h
      refine forall_mem_cons.2 ⟨?_, fun d hd => ?_⟩
      · rintro rfl
        exact absurd h.1 (by decide)
      · rintro rfl
        exact absurd (h.2 _ hd) (by decide +kernel)
  have hbreak : Name.dropFinalBreak n.toList = n.toList := if_neg fun hlast => hcontinue _ (mem_of_getLast? hlast) rfl
  unfold Name.isName at hname
  rw [hbreak] at hname
  rcases hcs : n.toList with _ | ⟨c, cs⟩ <;> rw [hcs] at hname
  · cases hname
  · simp only [Bool.and_eq_true] at hname
    refine ⟨hname.1, all_eq_true.2 (forall_mem_cons.2 ⟨?_, all_eq_true.1 hname.2⟩)⟩
    exact isNameRest_of_isNameStart hname.1

theorem Scope.parameterFor_clear (h : nameProblem? n = none) (hsynthetic : Name.isSynthetic n = false) (i : Nat) :
    IsBareName (Scope.parameterFor i n) ∧ Scope.parameterFor i n ∉ fixedNames ∧
      ∀ k, Scope.parameterFor i n ≠ temporaryName k := by
  unfold Scope.parameterFor
  split
  · rename_i hparameter
    rw [Name.isParameter, Bool.and_eq_true, Bool.not_eq_true'] at hparameter
    obtain ⟨hidentifier, hkeyword⟩ := hparameter
    refine ⟨⟨isName_of_isIdentifier (isName_of_accepted h) hidentifier, ?_⟩, fun hmem => ?_, fun k hk => ?_⟩
    · rw [isOperatorWord, hkeyword, Bool.false_and]
    · -- fixed names are reserved, except for the constants, which are words of the generated language
      have hfixed : ∀ w ∈ fixedNames, w ∈ Name.reserved ∨ Name.keywords.contains w = true := by decide +kernel
      rcases hfixed n hmem with hreserved | hword
      · exact not_mem_reserved_of_accepted h hreserved
      · rw [hkeyword] at hword
        cases hword
    · rw [hk, Name.isSynthetic_temporaryName] at hsynthetic
      cases hsynthetic
  · have hlist : ("_arg" ++ toString i ++ "_").toList = "_arg".toList ++ (Nat.toDigits 10 i ++ ['_']) := by
      rw [String.toList_append, String.toList_append, Name.toList_toString, append_assoc]
      rfl
    have hother {w : String} (hw : ¬ "_arg".toList <+: w.toList) : "_arg" ++ toString i ++ "_" ≠ w := by
      rintro rfl
      exact hw ⟨_, hlist.symm⟩
    refine ⟨⟨?_, ?_⟩, fun hmem => ?_, fun k => hother ?_⟩
    · rw [hlist]
      refine ⟨rfl, all_eq_true.2 (forall_mem_append.2 ⟨by decide, forall_mem_append.2 ⟨fun c hc => ?_, by decide⟩⟩)⟩
      have hdigit := Nat.isDigit_of_mem_toDigits (by decide) (by decide) hc
      simp [isNameRest, Char.isAlphanum, hdigit]
    · have hno : "_arg" ++ toString i ++ "_" ∉ Name.keywords := fun hmem => by
        have hkeywords : ∀ w ∈ Name.keywords, ¬ "_arg".toList <+: w.toList := by decide +kernel
        exact hother (hkeywords _ hmem) rfl
      rw [isOperatorWord, contains_eq_mem, decide_eq_false hno, Bool.false_and]
    · have hfixed : ∀ w ∈ fixedNames, ¬ "_arg".toList <+: w.toList := by decide +kernel
      exact hother (hfixed _ hmem) rfl
    · rw [temporaryName, String.toList_append]
      rintro ⟨rest, hrest⟩
      simp at hrest

theorem Scope.parameters_clear (h : namesProblem? names = none) :
    ∀ p ∈ (Scope.ofNames globals names).parameters, IsBareName p ∧ p ∉ fixedNames ∧ ∀ k, p ≠ temporaryName k := by
  intro p hp
  rw [Scope.parameters, Scope.arguments_ofNames (nodup_of_accepted h), map_map] at hp
  obtain ⟨⟨n, i⟩, hmem, rfl⟩ := mem_map.1 hp
  have hn := fst_mem_of_mem_zipIdx hmem
  exact Scope.parameterFor_clear (nameProblem_of_accepted h hn) (not_synthetic_of_accepted h n hn) i

theorem Scope.nodup_parameters (h : namesProblem? names = none) : (Scope.ofNames globals names).parameters.Nodup := by
  have hnodup := nodup_of_accepted h
  rw [Scope.parameters_ofNames globals hnodup]
  refine pairwise_map.2 (hnodup.imp_of_mem fun {a b} ha hb hne heq => hne ?_)
  have hsome {c : String} (hc : c ∈ names) :
      (Scope.ofNames globals names).parameter? c = some ((Scope.ofNames globals names).parameterOf c) := by
    obtain ⟨p, hp⟩ := Option.isSome_iff_exists.1 (Scope.isSome_parameter?_of_mem globals hnodup hc)
    rw [Scope.parameterOf, hp, Option.getD_some]
  exact Scope.distinct_ofNames h a b _ (hsome ha) (heq ▸ hsome hb)

end Parameters

section Lines

def Generated.line (g : Generated) : List Char :=
  (if g.program.setter then "" else "return ").toList ++ g.program.body.code.chars Leaf.chars

theorem saysAll_temporaries (is : List Nat) :
    SaysAll (is.map fun i => (temporaryName (i + 1)).toList) (is.map fun i => ⟨temporaryName (i + 1), false⟩) := by
  induction is with
  | nil => exact .nil
  | cons i is ih => exact .cons (isBareName_temporaryName (i + 1)).toSays ih

theorem says_declarations (n : Nat) :
    Says (Body.declarations n) ((List.range n).map (fun i => ⟨temporaryName (i + 1), false⟩) ++ [⟨"None", false⟩]) := by
  have hequals : Separates " = ".toList [] := ⟨fun _ => ⟨by rintro c ⟨⟩; decide, rfl⟩, closes_separators (by decide)⟩
  exact ((saysAll_temporaries (List.range n)).intercalate hequals).between hequals says_none

theorem Generated.says_line {g : Generated} (h : g.program.body.code.IsWritten) :
    Says g.line g.program.body.code.mentions := by
  have hcode : Says (g.program.body.code.chars Leaf.chars) g.program.body.code.mentions := Code.says_of_isWritten h
  unfold Generated.line
  split
  · exact hcode
  · exact (closes_operator (n := "return") (by decide) (by decide +kernel)).says_append hcode

/-- The names of a generated function do not get in each other's way. -/
structure Generated.Hygienic (g : Generated) : Prop where
  /-- The parameters of the extra arguments are told apart, -/
  nodup : g.program.parameters.Nodup
  /-- also from every other name that generated code uses. -/
  clear : ∀ p ∈ g.program.parameters, p ∉ fixedNames ∧ ∀ k, p ≠ temporaryName k
  /-- There is one line, after a line for the temporaries if there are any. -/
  text : g.source.toList = (if g.program.body.temporaries = 0 then []
    else Body.declarations g.program.body.temporaries ++ ['\n']) ++ g.line
  oneLine : ∀ c ∈ g.line, c ≠ '\n'
  /-- The temporaries are declared on one line, in order. -/
  oneDeclaration : ∀ c ∈ Body.declarations g.program.body.temporaries, c ≠ '\n'
  declares : mentions (Body.declarations g.program.body.temporaries) =
    (List.range g.program.body.temporaries).map (fun i => ⟨temporaryName (i + 1), false⟩) ++ [⟨"None", false⟩]
  /-- Each temporary is bound at one place, and no other is. -/
  binds : ∀ k, (mentions g.line).count ⟨temporaryName k, true⟩ =
    if 1 ≤ k ∧ k ≤ g.program.body.temporaries then 1 else 0
  /-- All other names are parameters, or are fixed and never bound. -/
  names : ∀ x ∈ mentions g.line, x.name ∈ g.program.parameters ∨
    (∃ k, 1 ≤ k ∧ k ≤ g.program.body.temporaries ∧ x.name = temporaryName k) ∨ x.bound = false ∧ x.name ∈ fixedNames
  /-- On every way through the code a temporary is kept before it is used, -/
  keptBefore : ∀ before k after, before ++ Access.use k :: after ∈ g.program.body.code.paths → Access.keep k ∈ before
  /-- so what the temporaries hold at first makes no difference. -/
  independent : ∀ s this globals formatters extra frame,
      g.program.frame? (this :: globals :: formatters :: extra) = some frame →
    ∀ temporaries, g.program.body.outcome s { frame with temporaries } = g.program.body.outcome s frame

variable {functionName : String} {globals : List String} {r : Request} {generated : Generated}

theorem Compile.source_of_run (hrun : Compile.run functionName globals r = .ok generated) :
    generated.source = Compile.bodyText r.setter generated.program.body := by
  unfold Compile.run at hrun
  dsimp only at hrun
  repeat' split at hrun
  all_goals cases hrun
  rfl

/-- The names of every generated function are hygienic. -/
theorem hygienic_of_run (hrequest : Request.namesProblem? r.arguments = none)
    (hrun : Compile.run functionName globals r = .ok generated) : generated.Hygienic := by
  obtain ⟨t, htree⟩ := Compile.exists_isTree hrun
  have hemit := Compile.emit_of_isTree hrun htree
  obtain ⟨_, _, -, -, hprogram⟩ := Compile.run_eq_ok hrun
  have hparameters : generated.program.parameters = (Scope.ofNames globals r.arguments).parameters := by rw [hprogram]
  have hsetter : generated.program.setter = r.setter := by rw [hprogram]
  have hclear : ∀ p ∈ (Scope.ofNames globals r.arguments).parameters, _ := Scope.parameters_clear hrequest
  have hneat := neat_emit (fun p hp => ⟨(hclear p hp).1, (hclear p hp).2.2⟩) htree.isWritten hemit
  have hline := generated.says_line hneat.written
  have hdeclarations := says_declarations generated.program.body.temporaries
  constructor
  case nodup => exact hparameters ▸ Scope.nodup_parameters hrequest
  case clear => exact fun p hp => (hclear p (hparameters ▸ hp)).2
  case text =>
    rw [Compile.source_of_run hrun, Compile.bodyText, String.toList_ofList, Generated.line, hsetter]
    cases r.setter
    · simp [Body.returning, Body.header]
    · simp [Body.chars, Body.header]
  case oneLine => exact hline.line
  case oneDeclaration => exact hdeclarations.line
  case declares => exact hdeclarations.mentions_eq
  case binds =>
    intro k
    rw [hline.mentions_eq]
    exact hneat.binds k
  case names =>
    rw [hline.mentions_eq, hparameters]
    intro x hx
    refine (hneat.names x hx).imp_right (Or.imp_left ?_)
    rintro ⟨k, hk | hk, hname⟩
    · exact ⟨k, hk.1, hk.2, hname⟩
    · exact hk.elim
  case keptBefore => exact fun before k after hpath => (hneat.ordered _ hpath).keep_mem.resolve_right id
  case independent =>
    intro s this g fm extra frame hframe temporaries
    have hsimulates := simulates_of_emit (Scope.distinct_ofNames hrequest) hemit s
    have hagrees := agrees_start (Request.nodup_of_accepted hrequest) hparameters hframe
    have hagrees' : Agrees (Scope.ofNames globals r.arguments) { frame with temporaries } _ :=
      ⟨hagrees.this, hagrees.globals, hagrees.formatters, hagrees.parameters, hagrees.declared⟩
    rw [outcome_eq_of_simulates hsimulates hagrees, outcome_eq_of_simulates hsimulates hagrees']

/-- A request with arguments that have to be renamed, and a text that looks like a temporary. -/
def crowdedRequest : Request := ⟨"(a.b || c()).d ? $x : None[g = '_ref9']", ["a", "$x", "None"], false⟩

def crowdedTree {ι : Type} (x : ι) : Expr ι :=
  .conditional (.member (.logical .either (.member (.name "a") "b") (.call (.name "c") [])) "d") (.name "$x")
    (.index (.name "None") (.assign (.name "g") (.literal x)))

theorem parse_crowded : parse "(a.b || c()).d ? $x : None[g = '']".toList = .ok (crowdedTree (.string .single)) := by
  let a : Derivation .unary := .chain (.name ['a'] (by decide)) (.member ['b'] .linked)
  let c : Derivation .unary := .chain (.name ['c'] (by decide)) (.call .noItem .linked)
  let operand (d : Derivation .unary) : Derivation (.operation 5) := .raised (.operand d) 5
  let either : Derivation .assign :=
    .alone (.operation (operand a) (.join (.logical .either) rfl (operand c) .joined))
  let test : Derivation .unary := .chain (.group either) (.member ['d'] .linked)
  let yes : Derivation .unary := .chain (.name ['$', 'x'] (by decide)) .linked
  let value : Derivation .unary := .chain (.literal (.string .single)) .linked
  let target : Derivation .unary := .chain (.name ['g'] (by decide)) .linked
  let no : Derivation .unary := .chain (.name "None".toList (by decide))
    (.index (.assign (.unconditional target.single) (.alone value.single)) .linked)
  let d : Derivation .assign := .unassigned (.conditional test.single (.alone yes.single) (.alone no.single))
  exact parse_of_derivation d (by decide +kernel) (by unfold Fit; decide +kernel) (by repeat' constructor)

theorem isTree_crowded : crowdedRequest.IsTree (crowdedTree (.literal (.text ("_ref9".toList.map Char.toNat)))) := by
  refine ⟨"(a.b || c()).d ? $x : None[g = '']".toList, crowdedTree (.string .single), by decide +kernel, ?_, ?_⟩
  · rw [show replaceWords "(a.b || c()).d ? $x : None[g = '']".toList = "(a.b || c()).d ? $x : None[g = '']".toList by
      decide +kernel]
    exact parse_crowded
  · rw [show Literal.literals crowdedRequest.expression.toList = ["'_ref9'".toList] by decide +kernel]
    with_unfolding_all rfl

def crowdedSource : String :=
  "_ref1 = _ref2 = _ref3 = None\nreturn ((_ref1 := (None if (_ref3 := ((None if a is None else _get_(a, 'b')) or " ++
  "(None if not _callable_(_ref2 := _get_(this, 'c')) else _ref2()))) is None else _get_(_ref3, 'd'))), " ++
  "(_arg1_ if _ref1 else (None if _arg2_ is None else _get_(_arg2_, _set_(_globals_, 'g', '_ref9')))))[1]"

theorem hygienic_crowded : Request.namesProblem? crowdedRequest.arguments = none ∧
    ∃ generated, Compile.run "expression" ["g"] crowdedRequest = .ok generated ∧
      generated.program.parameters = ["a", "_arg1_", "_arg2_"] ∧ generated.source = crowdedSource ∧
      generated.Hygienic := by
  have hrequest : Request.namesProblem? crowdedRequest.arguments = none := by decide +kernel
  obtain ⟨generated, hrun⟩ : ∃ generated, Compile.run "expression" ["g"] crowdedRequest = .ok generated :=
    (Compile.exists_run_iff isTree_crowded).2 (by decide +kernel)
  refine ⟨hrequest, generated, hrun, ?_, ?_, hygienic_of_run hrequest hrun⟩
  · obtain ⟨_, _, -, -, hprogram⟩ := Compile.run_eq_ok hrun
    rw [hprogram]
    rfl
  · have htext : (emit (Scope.ofNames ["g"] crowdedRequest.arguments)
        (crowdedTree (.literal (.text ("_ref9".toList.map Char.toNat))))).map (Compile.bodyText false) =
          .ok crowdedSource := by
      decide +kernel
    rw [Compile.emit_of_isTree hrun isTree_crowded] at htext
    rw [Compile.source_of_run hrun]
    exact Except.ok.inj htext

end Lines

end NullSafe
