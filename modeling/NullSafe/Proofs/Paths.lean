import NullSafe.Proofs.Failures
import NullSafe.Proofs.Pipelines
import NullSafe.Proofs.Programs

/-! # Property paths

A path is names with points between them. Its text and the text that assigns to it go through the passes unchanged, and
both can be compiled.
-/

namespace NullSafe

open Surface Literal Text List

def pathChars (n : String) (ns : List String) : List Char := n.toList ++ ns.flatMap fun m => '.' :: m.toList

def path (n : String) (ns : List String) : String := String.ofList (pathChars n ns)

def pathTree {ι : Type} (n : String) (ns : List String) : Expr ι := ns.foldl .member (.name n)

variable {n : String} {ns : List String} {cs : List Char}

theorem pathTree_concat {ι : Type} (n : String) (ns : List String) (m : String) :
    (pathTree n (ns ++ [m]) : Expr ι) = .member (pathTree n ns) m := by
  simp [pathTree]

theorem isTarget_pathTree {ι : Type} (n : String) (ns : List String) : (pathTree n ns : Expr ι).isTarget = true := by
  rcases eq_nil_or_concat' ns with rfl | ⟨ns, m, rfl⟩
  · rfl
  · rw [pathTree_concat]
    rfl

/-- Names that make a path of the binding context. -/
structure IsPath (globals : List String) (n : String) (ns : List String) : Prop where
  name : IsName n.toList
  names : ∀ m ∈ ns, IsName m.toList
  free : Name.isReserved n = false
  local_ : n ∉ globals
  /-- The name of the value to assign is not that of a property. -/
  property : n ≠ valueName

section Texts

def inPath (c : Char) : Bool := isNameRest c || c = '.'

theorem inPath_of_mem {c : Char} (hn : IsName n.toList) (hns : ∀ m ∈ ns, IsName m.toList) (h : c ∈ pathChars n ns) :
    inPath c = true := by
  rw [inPath, Bool.or_eq_true, decide_eq_true_eq]
  simp only [pathChars, mem_append, mem_flatMap, mem_cons] at h
  rcases h with h | ⟨m, hm, rfl | h⟩
  · exact .inl (all_eq_true.1 hn.2 c h)
  · exact .inr rfl
  · exact .inl (all_eq_true.1 (hns m hm).2 c h)

theorem isolate_of_plain (h : Plain cs) : isolate cs = cs ∧ literals cs = [] := by
  rw [isolate, literals, pieces, piecesFrom_of_plain h, flatMap_map, filterMap_map]
  constructor
  · exact flatMap_singleton' cs
  · exact filterMap_eq_nil_iff.2 fun _ _ => rfl

theorem desugar_of_not_mem (h : '|' ∉ cs) : desugar cs = .ok cs := by
  rw [desugar, splitPipes, splitTop, splitFrom_of_not_mem h]

theorem plain_of_inPath (h : ∀ c ∈ cs, inPath c = true) : Plain cs :=
  plain_of_kind (by decide) (by decide) (by decide) h

theorem not_mem_of_inPath {c : Char} (hc : inPath c = false) (h : ∀ c ∈ cs, inPath c = true) : c ∉ cs := by
  intro hmem
  rw [h c hmem] at hc
  cases hc

theorem isBlank_of_inPath {c : Char} (h : inPath c = true) : isBlank c = false := by
  rw [inPath, Bool.or_eq_true, decide_eq_true_eq] at h
  rcases h with h | rfl
  · have hword := continuesWord_of_isNameRest h
    rw [continuesWord, Bool.or_eq_true, decide_eq_true_eq] at hword
    rcases hword with hword | rfl
    · exact isBlank_eq_false_of_isWord hword
    · decide
  · decide

theorem trim_of_inPath (h : ∀ c ∈ cs, inPath c = true) : trim cs = cs := by
  have hdrop : ∀ {xs : List Char}, (∀ c ∈ xs, inPath c = true) → xs.dropWhile isBlank = xs := by
    rintro (_ | ⟨x, xs⟩) hxs
    · rfl
    · exact dropWhile_cons_of_neg (by simp [isBlank_of_inPath (hxs x (.head _))])
  rw [trim, trimRight, trimLeft, hdrop h, hdrop fun c hc => h c (mem_reverse.1 hc), reverse_reverse]

theorem findPipeFrom_of_not_mem (h : '|' ∉ cs) (pos : Nat) (depth : Int) (before : Option Char) :
    findPipeFrom pos depth before (cs.map .char) = none := by
  induction cs generalizing pos depth before with
  | nil => rfl
  | cons c cs ih =>
    obtain ⟨hc, hcs⟩ := not_or.1 (mem_cons.not.1 h)
    rw [map_cons, findPipeFrom, ih hcs]
    simp [Ne.symm hc]

theorem replaceWords_path (hand : n ≠ "and") (hor : n ≠ "or") (hn : IsName n.toList)
    (hns : ∀ m ∈ ns, IsName m.toList) : replaceWords (pathChars n ns) = pathChars n ns := by
  have hcontinues : ∀ {m : String}, IsName m.toList → ∀ c ∈ m.toList, continuesWord c = true :=
    fun h c hc => continuesWord_of_isNameRest (all_eq_true.1 h.2 c hc)
  -- what follows the first name starts behind a point, where no word can start
  have hlinks : ∀ {ms : List String}, (∀ m ∈ ms, IsName m.toList) → ∀ {before : Option Char} {cs : List Char},
      replaceWordsFrom before cs = cs →
      replaceWordsFrom before (cs ++ ms.flatMap fun m => '.' :: m.toList) =
        cs ++ ms.flatMap fun m => '.' :: m.toList := by
    intro ms hms
    induction ms with
    | nil => intro before cs h; simpa using h
    | cons m ms ih =>
      intro before cs h
      obtain ⟨hm, hms⟩ := forall_mem_cons.1 hms
      have hname : replaceWordsFrom (some '.') m.toList = m.toList :=
        replaceWordsFrom_of_continues (by decide) (hcontinues hm)
      rw [flatMap_cons, cons_append, replaceWordsFrom_append_cons (by decide), h, ih hms hname]
  refine hlinks hns (replaceWordsFrom_name ?_ ?_ (hcontinues hn))
  · exact fun h => hand (String.toList_inj.1 h)
  · exact fun h => hor (String.toList_inj.1 h)

end Texts

section Parsing

def pathLexemes (n : String) (ns : List String) : List Lexeme :=
  .name n.toList :: ns.flatMap fun m => [.symbol .dot, .name m.toList]

theorem lexes_path (hn : IsName n.toList) (hns : ∀ m ∈ ns, IsName m.toList) :
    Lexes (pathChars n ns) (pathLexemes n ns) := by
  have hrest : ∀ ms : List String, ∀ c ∈ (ms.flatMap fun m => '.' :: m.toList).head?, isNameRest c = false := by
    rintro (_ | ⟨m, ms⟩) c ⟨⟩
    decide
  refine (lexes_name_iff hn (hrest ns)).2 ⟨_, ?_, rfl⟩
  clear hn
  induction ns with
  | nil => exact .nil
  | cons m ns ih =>
    obtain ⟨hm, hns⟩ := forall_mem_cons.1 hns
    rw [flatMap_cons, flatMap_cons, cons_append]
    exact (lexes_member_iff hm.1).2 ⟨_, (lexes_name_iff hm (hrest ns)).2 ⟨_, ih hns, rfl⟩, rfl⟩

def pathLinks (ns : List String) : Derivation .links := ns.foldr (fun m rest => .member m.toList rest) .linked

theorem pathLinks_spec (ns : List String) : (pathLinks ns).Valid ∧
    (pathLinks ns).yield = (ns.flatMap fun m => [.symbol .dot, .name m.toList]) ∧
    ∀ t, (pathLinks ns).meaning t = ns.foldl Expr.member t := by
  induction ns with
  | nil => exact ⟨trivial, rfl, fun _ => rfl⟩
  | cons m ns ih =>
    obtain ⟨hvalid, hyield, hmeaning⟩ := ih
    refine ⟨hvalid, ?_, fun t => ?_⟩
    · rw [flatMap_cons, ← hyield]
      rfl
    · have hm : String.ofList m.toList = m := String.ofList_toList
      rw [foldl_cons, ← hmeaning]
      change (pathLinks ns).meaning (.member t (String.ofList m.toList)) = _
      rw [hm]

theorem parse_path (hn : IsName n.toList) (hns : ∀ m ∈ ns, IsName m.toList)
    (hfree : n ∉ ["this", "true", "false", "null", "undefined", "typeof"]) :
    parse (pathChars n ns) = .ok (pathTree n ns) := by
  simp only [mem_cons, not_mem_nil, or_false, not_or] at hfree
  obtain ⟨hthis, htrue, hfalse, hnull, hundefined, htypeof⟩ := hfree
  have hroot : n.toList ≠ "typeof".toList := fun h => htypeof (String.toList_inj.1 h)
  have htree : Parser.nameTree n.toList = .name n := by
    rw [Parser.nameTree, String.ofList_toList]
    simp [hthis, htrue, hfalse, hnull, hundefined]
  obtain ⟨hvalid, hyield, hmeaning⟩ := pathLinks_spec ns
  have hfit : Fit (pathLexemes n ns) := by
    intro l hl
    simp only [pathLexemes, mem_cons, mem_flatMap, not_mem_nil, or_false] at hl
    rcases hl with rfl | ⟨m, -, rfl | rfl⟩ <;> rfl
  refine parse_eq_ok_iff.2 ⟨_, lexes_path hn hns, hfit, derives_unary ?_⟩
  refine ⟨.chain (.name n.toList hroot) (pathLinks ns), ⟨trivial, hvalid⟩, ?_, ?_⟩
  · rw [Derivation.yield, Derivation.yield, hyield]
    rfl
  · change (pathLinks ns).meaning (Parser.nameTree n.toList) = _
    rw [hmeaning, htree]
    rfl

end Parsing

section Generating

variable {ι : Type} {scope : Scope}

theorem canEmit_pathTree (scope : Scope) (n : String) (ns : List String) :
    (pathTree n ns : Expr ι).canEmit scope = true := by
  induction ns using List.reverseRecOn with
  | nil => rfl
  | append_singleton ns x ih =>
    rw [pathTree_concat, Expr.canEmit]
    exact ih

theorem canEmit_assign (hn : scope.classify n = .context) (ns : List String) (v : String) :
    (.assign (pathTree n ns) (.name v) : Expr ι).canEmit scope = true := by
  have hassign : (pathTree n ns : Expr ι).canAssign scope = true := by
    rcases eq_nil_or_concat' ns with rfl | ⟨ns, x, rfl⟩
    · change (scope.classify n != .keyword) = true
      rw [hn]
      rfl
    · rw [pathTree_concat]
      rfl
  rw [Expr.canEmit, hassign, canEmit_pathTree]
  rfl

theorem isBuildable_pathTree (n : String) (ns : List String) : (pathTree n ns).isBuildable = true := by
  induction ns using List.reverseRecOn with
  | nil => rfl
  | append_singleton ns x ih =>
    rw [pathTree_concat, Expr.isBuildable]
    exact ih

theorem isBuildable_assign (n : String) (ns : List String) (v : String) :
    (Expr.assign (pathTree n ns) (.name v)).isBuildable = true := by
  rw [Expr.isBuildable, isBuildable_pathTree]
  rfl

end Generating

section Compiling

variable {functionName : String} {globals : List String}

def pathRequest (n : String) (ns : List String) : Request := ⟨path n ns, [], false⟩

theorem fill_pathTree (n : String) (ns : List String) :
    (pathTree n ns : Expr Placeholder).fill = pure (pathTree n ns) := by
  induction ns using List.reverseRecOn with
  | nil => rfl
  | append_singleton ns x ih =>
    rw [pathTree_concat, pathTree_concat, Expr.fill, ih]
    rfl

variable (h : IsPath globals n ns)

include h

theorem IsPath.not_mem_reserved : n ∉ Name.reserved := by
  have hfree := h.free
  rw [Name.isReserved, Bool.or_eq_false_iff] at hfree
  intro hmem
  rw [contains_iff_mem.2 hmem] at hfree
  cases hfree.1

theorem IsPath.parse : Surface.parse (pathChars n ns) = .ok (pathTree n ns) := by
  refine parse_path h.name h.names fun hmem => h.not_mem_reserved ?_
  simp only [mem_cons, not_mem_nil, or_false] at hmem
  rcases hmem with rfl | rfl | rfl | rfl | rfl | rfl <;> decide

theorem IsPath.replaceWords : Surface.replaceWords (pathChars n ns) = pathChars n ns := by
  refine replaceWords_path ?_ ?_ h.name h.names <;> rintro rfl <;> exact h.not_mem_reserved (by decide)

theorem IsPath.inPath : ∀ c ∈ pathChars n ns, NullSafe.inPath c = true :=
  fun _ => inPath_of_mem h.name h.names

theorem IsPath.classify {names : List String} (hnodup : names.Nodup) (hnames : n ∉ names) :
    (Scope.ofNames globals names).classify n = .context := by
  have hparameter := Scope.parameter?_of_not_mem globals hnodup hnames
  have hkeyword : Scope.keywords.contains n = false := by
    rw [Bool.eq_false_iff, ne_eq, contains_iff_mem]
    exact fun hmem => h.not_mem_reserved (by revert hmem; simp [Scope.keywords, Name.reserved]; tauto)
  have hglobal : (Scope.ofNames globals names).globals.contains n = false := by
    rw [Bool.eq_false_iff, ne_eq, contains_iff_mem]
    exact h.local_
  rw [Scope.classify, hparameter, hkeyword, hglobal]
  rfl

theorem setterText_path : setterText (pathChars n ns) = pathChars n ns ++ " = ".toList ++ valueName.toList := by
  have htrim : trim (pathChars n ns) = pathChars n ns := trim_of_inPath h.inPath
  have hbang : (pathChars n ns).head? ≠ some '!' :=
    fun hhead => not_mem_of_inPath (by decide) h.inPath (mem_of_head? hhead)
  have hpipe : findPipe (pathChars n ns) = none := by
    rw [findPipe, pieces, piecesFrom_of_plain (plain_of_inPath h.inPath)]
    exact findPipeFrom_of_not_mem (not_mem_of_inPath (by decide) h.inPath) 0 0 none
  rw [setterText, htrim]
  simp [hbang, hpipe]

theorem exists_getter (hname : Compile.canBeNamed functionName = true)
    (hplain : isPlainName functionName.toList = true) :
    (pathRequest n ns).IsTree (pathTree n ns) ∧
      ∃ generated, Compile.run functionName globals (pathRequest n ns) = .ok generated := by
  have htext : (pathRequest n ns).expression.toList = pathChars n ns := String.toList_ofList
  obtain ⟨hisolate, hliterals⟩ := isolate_of_plain (plain_of_inPath h.inPath)
  have hdesugar : desugar (isolate (pathRequest n ns).expression.toList) = .ok (pathChars n ns) := by
    rw [htext, hisolate, desugar_of_not_mem (not_mem_of_inPath (by decide) h.inPath)]
  have hparse : Surface.parse (Surface.replaceWords (pathChars n ns)) = .ok (pathTree n ns) := by
    rw [h.replaceWords, h.parse]
  have hfilled : (pathTree n ns : Expr Placeholder).filled (literals (pathRequest n ns).expression.toList) =
      .ok (pathTree n ns) := by
    rw [Expr.filled, fill_pathTree]
    rfl
  have htree : (pathRequest n ns).IsTree (pathTree n ns) := ⟨_, _, hdesugar, hparse, hfilled⟩
  have hdeclare : Compile.canDeclare functionName (Scope.ofNames globals []).parameters = true := by
    rw [Compile.canDeclare, hname, hplain]
    rfl
  exact ⟨htree, (Compile.exists_run_iff htree).2
    ⟨hdeclare, canEmit_pathTree (Scope.ofNames globals []) n ns, isBuildable_pathTree n ns⟩⟩

theorem exists_setter (hname : Compile.canBeNamed functionName = true)
    (hplain : isPlainName functionName.toList = true) :
    (pathRequest n ns).setterRequest.IsTree (.assign (pathTree n ns) (.name valueName)) ∧
      ∃ generated, Compile.run functionName globals (pathRequest n ns).setterRequest = .ok generated := by
  have htext : (pathRequest n ns).setterRequest.expression.toList =
      pathChars n ns ++ " = ".toList ++ valueName.toList := by
    change (String.ofList (setterText (String.ofList (pathChars n ns)).toList)).toList = _
    rw [String.toList_ofList, String.toList_ofList, setterText_path h]
  have hplainText : Plain (pathChars n ns ++ " = ".toList ++ valueName.toList) :=
    plain_append.2 ⟨plain_append.2 ⟨plain_of_inPath h.inPath, by decide⟩, by decide⟩
  have hbar : '|' ∉ pathChars n ns ++ " = ".toList ++ valueName.toList := by
    rw [mem_append, mem_append, not_or, not_or]
    exact ⟨⟨not_mem_of_inPath (by decide) h.inPath, by decide⟩, by decide⟩
  obtain ⟨hisolate, hliterals⟩ := isolate_of_plain hplainText
  have hdesugar : desugar (isolate (pathRequest n ns).setterRequest.expression.toList) =
      .ok (pathChars n ns ++ " = ".toList ++ valueName.toList) := by
    rw [htext, hisolate, desugar_of_not_mem hbar]
  have hparse : Surface.parse (Surface.replaceWords (pathChars n ns ++ " = ".toList ++ valueName.toList)) =
      .ok (.assign (pathTree n ns) (.name valueName)) := by
    have hwords : Surface.replaceWords (pathChars n ns ++ " = ".toList ++ valueName.toList) =
        pathChars n ns ++ " = ".toList ++ valueName.toList := by
      have hsign : pathChars n ns ++ " = ".toList ++ valueName.toList =
          pathChars n ns ++ ' ' :: ("= ".toList ++ valueName.toList) := append_assoc ..
      rw [hsign, Surface.replaceWords, replaceWordsFrom_append_cons (by decide)]
      exact congrArg₂ (· ++ ' ' :: ·) h.replaceWords (by decide)
    have hvalue : Surface.parse valueName.toList = .ok (.name valueName) :=
      @parse_path valueName [] (by unfold IsName; decide) (by simp) (by decide)
    rw [hwords]
    exact (parse_assignment_iff (straddles_of_parse_target h.parse (isTarget_pathTree n ns)) (by decide +kernel)).2
      ⟨_, _, h.parse, isTarget_pathTree n ns, hvalue, rfl⟩
  have hfilled : (.assign (pathTree n ns) (.name valueName) : Expr Placeholder).filled
      (literals (pathRequest n ns).setterRequest.expression.toList) =
        .ok (.assign (pathTree n ns) (.name valueName)) := by
    rw [Expr.filled, Expr.fill, fill_pathTree]
    rfl
  have hclassify := @IsPath.classify n ns globals h [valueName] (by decide) (by simpa using h.property)
  have htree : (pathRequest n ns).setterRequest.IsTree (.assign (pathTree n ns) (.name valueName)) :=
    ⟨_, _, hdesugar, hparse, hfilled⟩
  have hdeclare : Compile.canDeclare functionName (Scope.ofNames globals [valueName]).parameters = true := by
    have hparameters : (Scope.ofNames [] [valueName]).parameters.all Compile.canBeNamed = true := by decide
    rw [Compile.canDeclare, hname, hplain, Bool.and_true, Bool.true_and]
    exact hparameters
  exact ⟨htree, (Compile.exists_run_iff htree).2
    ⟨hdeclare, canEmit_assign hclassify ns valueName, isBuildable_assign n ns valueName⟩⟩

end Compiling

end NullSafe
