import NullSafe.Proofs.ReferableNames

/-! # Words that name properties

A property of an object can be a name alone, which is then its value, too. There a word of the language is a name like
any other. It is nowhere else.
-/

namespace NullSafe.Surface

open List

def fixedWords : List String := ["true", "false", "null", "undefined", "this", "typeof"]

section Entries

/-- The open brackets behind a token, innermost first. -/
def enter (bs : List Symbol) : Lexeme → List Symbol
  | .symbol .openParen => .openParen :: bs
  | .symbol .openBracket => .openBracket :: bs
  | .symbol .openBrace => .openBrace :: bs
  | .symbol .closeParen | .symbol .closeBracket | .symbol .closeBrace => bs.tail
  | _ => bs

def opened (ls : List Lexeme) : List Symbol := ls.foldl enter []

def startsEntry (bs : List Symbol) : Lexeme → Bool
  | .symbol .openBrace => true
  | .symbol .comma => bs.head? == some .openBrace
  | _ => false

def atEntry (before : List Lexeme) : Bool :=
  (opened before).head? == some .openBrace &&
    (before.getLast? == some (.symbol .openBrace) || before.getLast? == some (.symbol .comma))

/-- A name is a property alone: it stands where a property starts, and no colon follows. -/
def IsLone (ls : List Lexeme) (n : List Char) : Prop :=
  ∃ before after, ls = before ++ Lexeme.name n :: after ∧ atEntry before = true ∧ after.head? ≠ some (.symbol .colon)

/-- The name that a token is, if it is a property alone. -/
def Lexeme.lone (entry : Bool) (after : List Lexeme) : Lexeme → List (List Char)
  | .name n => if entry && after.head? != some (.symbol .colon) then [n] else []
  | _ => []

def lone (bs : List Symbol) (entry : Bool) : List Lexeme → List (List Char)
  | [] => []
  | l :: ls => l.lone entry ls ++ lone (enter bs l) (startsEntry bs l) ls

variable {bs : List Symbol} {entry : Bool} {n : List Char} {ls : List Lexeme}

theorem mem_lexeme_lone {l : Lexeme} :
    n ∈ l.lone entry ls ↔ l = .name n ∧ entry = true ∧ ls.head? ≠ some (.symbol .colon) := by
  cases l with
  | name m =>
    rw [Lexeme.lone, ← bne_iff_ne, ← Bool.and_eq_true]
    split
    · simp_all [@eq_comm _ m n]
    · simp_all
  | _ => simp [Lexeme.lone]

theorem startsEntry_eq (bs : List Symbol) (l : Lexeme) : startsEntry bs l =
    ((enter bs l).head? == some .openBrace && (l == .symbol .openBrace || l == .symbol .comma)) := by
  cases l with
  | symbol s => cases s <;> simp [startsEntry, enter]
  | _ => simp [startsEntry]

theorem atEntry_concat (before : List Lexeme) (l : Lexeme) :
    atEntry (before ++ [l]) = startsEntry (opened before) l := by
  simp [atEntry, startsEntry_eq, opened]

/-- What is found from left to right is what stands alone. -/
theorem mem_lone_iff (before : List Lexeme) :
    n ∈ lone (opened before) (atEntry before) ls ↔ ∃ between after, ls = between ++ Lexeme.name n :: after ∧
      atEntry (before ++ between) = true ∧ after.head? ≠ some (.symbol .colon) := by
  induction ls generalizing before with
  | nil => simp [lone]
  | cons l ls ih =>
    have hopened : enter (opened before) l = opened (before ++ [l]) := by simp [opened]
    rw [lone, mem_append, mem_lexeme_lone, hopened, ← atEntry_concat, ih]
    constructor
    · rintro (⟨rfl, hentry, hls⟩ | ⟨between, after, rfl, hentry, hafter⟩)
      · exact ⟨[], ls, rfl, by rwa [List.append_nil], hls⟩
      · exact ⟨l :: between, after, rfl, by simpa using hentry, hafter⟩
    · rintro ⟨_ | ⟨m, between⟩, after, hls, hentry, hafter⟩
      · cases hls
        exact .inl ⟨rfl, by rwa [List.append_nil] at hentry, hafter⟩
      · cases hls
        exact .inr ⟨between, after, rfl, by simpa using hentry, hafter⟩

theorem mem_lone_start_iff : n ∈ lone [] false ls ↔ IsLone ls n := mem_lone_iff []

end Entries

namespace Derivation

/-- The names that are properties alone. -/
def shorthands : {c : Category} → Derivation c → List (List Char)
  | _, unassigned value | _, unconditional value | _, operand value | _, unary _ value => value.shorthands
  | _, assign target value => target.shorthands ++ value.shorthands
  | _, conditional test yes no => test.shorthands ++ (yes.shorthands ++ no.shorthands)
  | _, operation first rest => first.shorthands ++ rest.shorthands
  | _, joined | _, linked | _, number _ | _, literal _ | _, name _ _ | _, noItem | _, noProperty => []
  | _, join _ _ right rest => right.shorthands ++ rest.shorthands
  | _, chain root rest => root.shorthands ++ rest.shorthands
  | _, member _ rest => rest.shorthands
  | _, index key rest => key.shorthands ++ rest.shorthands
  | _, call arguments rest => arguments.shorthands ++ rest.shorthands
  | _, group inner => inner.shorthands
  | _, array elements => elements.shorthands
  | _, object entries => entries.shorthands
  | _, lastItem value => value.shorthands
  | _, item value rest => value.shorthands ++ rest.shorthands
  | _, lastProperty entry => entry.shorthands
  | _, property entry rest => entry.shorthands ++ rest.shorthands
  | _, shorthand text => [text]
  | _, named _ value | _, quoted _ value | _, numbered _ value => value.shorthands

end Derivation

section Tokens

/-- Where the tokens of a category stand, the names among them that are properties alone are found. -/
def Category.Finds : Category → List Lexeme → List (List Char) → Prop
  | .items, ls, ns => ∀ bs rest, bs.head? ≠ some .openBrace → lone bs false (ls ++ rest) = ns ++ lone bs false rest
  | .properties, ls, ns => ∀ bs rest,
    lone (.openBrace :: bs) true (ls ++ Lexeme.symbol .closeBrace :: rest) = ns ++ lone bs false rest
  | .property, ls, ns => ∀ bs rest, rest.head? ≠ some (.symbol .colon) →
    lone (.openBrace :: bs) true (ls ++ rest) = ns ++ lone (.openBrace :: bs) false rest
  | _, ls, ns => ∀ bs rest, lone bs false (ls ++ rest) = ns ++ lone bs false rest

theorem lone_symbol (bs : List Symbol) (entry : Bool) (s : Symbol) (ls : List Lexeme) :
    lone bs entry (.symbol s :: ls) = lone (enter bs (.symbol s)) (startsEntry bs (.symbol s)) ls := rfl

theorem lone_operator (bs : List Symbol) (entry : Bool) (op : Operator) (ls : List Lexeme) :
    lone bs entry (.symbol op.symbol :: ls) = lone bs false ls := by
  rcases op with op | op <;> cases op <;> rfl

theorem Derivation.finds {c : Category} (d : Derivation c) : c.Finds d.yield d.shorthands := by
  induction d with
  | unassigned _ ih | unconditional _ ih | operand _ ih => exact ih
  | assign _ _ ih₁ ih₂ =>
    intro bs rest
    simp only [yield, shorthands, append_assoc, cons_append, ih₁ bs, lone_symbol, enter, startsEntry, ih₂ bs]
  | conditional _ _ _ ih₁ ih₂ ih₃ =>
    intro bs rest
    simp only [yield, shorthands, append_assoc, cons_append, ih₁ bs, lone_symbol, enter, startsEntry, ih₂ bs, ih₃ bs]
  | operation _ _ ih₁ ih₂ | chain _ _ ih₁ ih₂ =>
    intro bs rest
    simp only [yield, shorthands, append_assoc, ih₁ bs, ih₂ bs]
  | joined | linked => exact fun _ _ => rfl
  | join op _ _ _ ih₁ ih₂ =>
    intro bs rest
    simp only [yield, shorthands, append_assoc, cons_append, lone_operator, ih₁ bs, ih₂ bs]
  | unary op _ ih =>
    intro bs rest
    cases op <;> exact ih bs rest
  | member _ _ ih => exact ih
  | index _ _ ih₁ ih₂ =>
    intro bs rest
    simp only [yield, shorthands, append_assoc, cons_append, lone_symbol, enter, startsEntry,
      ih₁ (.openBracket :: bs), tail_cons, ih₂ bs]
  | call _ _ ih₁ ih₂ =>
    intro bs rest
    simp only [yield, shorthands, append_assoc, cons_append, lone_symbol, enter, startsEntry,
      ih₁ (.openParen :: bs) _ nofun, tail_cons, ih₂ bs]
  | number | name => exact fun _ _ => rfl
  | literal p => cases p <;> exact fun _ _ => rfl
  | group _ ih =>
    intro bs rest
    simp only [yield, shorthands, append_assoc, cons_append, lone_symbol, enter, startsEntry,
      ih (.openParen :: bs), tail_cons, nil_append]
  | array _ ih =>
    intro bs rest
    simp only [yield, shorthands, append_assoc, cons_append, lone_symbol, enter, startsEntry,
      ih (.openBracket :: bs) _ nofun, tail_cons, nil_append]
  | object _ ih =>
    intro bs rest
    simp only [yield, shorthands, append_assoc, cons_append, lone_symbol, enter, startsEntry, nil_append, ih bs]
  | noItem => exact fun _ _ _ => rfl
  | lastItem _ ih => exact fun bs rest _ => ih bs rest
  | item _ _ ih₁ ih₂ =>
    intro bs rest hbs
    simp only [yield, shorthands, append_assoc, cons_append, ih₁ bs, lone_symbol, enter, startsEntry,
      beq_eq_false_iff_ne.2 hbs, ih₂ bs _ hbs]
  | noProperty => exact fun _ _ => rfl
  | lastProperty _ ih =>
    intro bs rest
    simp only [yield, shorthands, ih bs (.symbol .closeBrace :: rest) nofun, lone_symbol, enter, startsEntry, tail_cons]
  | property _ others ih₁ ih₂ =>
    intro bs rest
    have hentry := ih₁ bs (.symbol .comma :: (others.yield ++ Lexeme.symbol .closeBrace :: rest)) nofun
    simp only [yield, shorthands, append_assoc, cons_append, hentry, lone_symbol, enter, startsEntry,
      head?_cons, beq_self_eq_true, ih₂ bs]
  | shorthand =>
    intro bs rest hrest
    simp [shorthands, lone, Lexeme.lone, hrest, enter, startsEntry]
  | named _ _ ih | quoted _ _ ih | numbered _ _ ih => exact fun bs rest _ => ih (.openBrace :: bs) rest

end Tokens

section Trees

/-- Names have the same words of the language among them, in order. -/
def SameWords (ns : List (List Char)) (ms : List String) : Prop :=
  ms.filter fixedWords.contains = (ns.map String.ofList).filter fixedWords.contains

namespace SameWords

variable {ns ns' : List (List Char)} {ms ms' : List String}

theorem append (h : SameWords ns ms) (h' : SameWords ns' ms') : SameWords (ns ++ ns') (ms ++ ms') := by
  rw [SameWords, filter_append, h, h', map_append, filter_append]

theorem append_nil (h : SameWords ns ms) : SameWords ns (ms ++ []) := by rwa [List.append_nil]

theorem nameTree {cs : List Char} (h : cs ≠ "typeof".toList) : SameWords [] (Parser.nameTree cs).names := by
  have hne : String.ofList cs ≠ "typeof" := fun he => h (by rw [← he, String.toList_ofList])
  unfold Parser.nameTree
  dsimp only
  repeat' split
  all_goals first | rfl | skip
  have hnot : String.ofList cs ∉ fixedWords := by simp_all [fixedWords]
  simp [SameWords, Expr.names, hnot]

theorem mem_iff (h : SameWords ns ms) {w : String} (hw : w ∈ fixedWords) : w ∈ ms ↔ w.toList ∈ ns := by
  have hmem : w ∈ ms.filter fixedWords.contains ↔ w ∈ (ns.map String.ofList).filter fixedWords.contains := by rw [h]
  rw [mem_filter, mem_filter, contains_iff_mem, and_iff_left hw, and_iff_left hw, mem_map] at hmem
  rw [hmem]
  constructor
  · rintro ⟨n, hn, rfl⟩
    rwa [String.toList_ofList]
  · exact fun hn => ⟨_, hn, String.ofList_toList⟩

end SameWords

/-- The words of the language that are names in what a category means are among the given names. -/
def Category.Names : (c : Category) → List (List Char) → c.Meaning → Prop
  | assign, ns, t | conditional, ns, t | operation _, ns, t | unary, ns, t | primary, ns, t =>
    SameWords ns (Expr.names t)
  | joins _, ns, f | links, ns, f =>
    ∀ (t : Expr Placeholder) (before : List (List Char)), SameWords before t.names →
      SameWords (before ++ ns) (f t).names
  | items, ns, ts => SameWords ns (Expr.namesAll ts)
  | properties, ns, es => SameWords ns (Expr.namesEntries es)
  | property, ns, e => SameWords ns e.2.names

theorem Derivation.names {c : Category} (d : Derivation c) : c.Names d.shorthands d.meaning := by
  induction d with
  | unassigned _ ih | unconditional _ ih | operand _ ih | unary _ _ ih => exact ih
  | group _ ih | array _ ih | object _ ih => exact ih
  | assign _ _ ih₁ ih₂ => exact ih₁.append ih₂
  | conditional _ _ _ ih₁ ih₂ ih₃ => exact ih₁.append (ih₂.append ih₃)
  | operation _ _ ih₁ ih₂ | chain _ _ ih₁ ih₂ => exact ih₂ _ _ ih₁
  | joined | linked => exact fun t before h => (List.append_nil before).symm ▸ h
  | join op _ right _ ih₁ ih₂ =>
    intro t before h
    have hop : SameWords (before ++ right.shorthands) (op.apply t right.meaning).names := by
      cases op <;> exact h.append ih₁
    have hjoins := ih₂ _ _ hop
    rwa [append_assoc] at hjoins
  | member _ _ ih => exact fun t before h => ih _ before h
  | index key _ ih₁ ih₂ =>
    intro t before h
    have hindex : SameWords (before ++ key.shorthands) (Expr.index t key.meaning).names := h.append ih₁
    have hlinks := ih₂ _ _ hindex
    rwa [append_assoc] at hlinks
  | call arguments _ ih₁ ih₂ =>
    intro t before h
    have hcall : SameWords (before ++ arguments.shorthands) (Expr.call t arguments.meaning).names := h.append ih₁
    have hlinks := ih₂ _ _ hcall
    rwa [append_assoc] at hlinks
  | number | literal => rfl
  | name _ h => exact .nameTree h
  | noItem | noProperty | shorthand => rfl
  | lastItem _ ih | lastProperty _ ih => exact ih.append_nil
  | item _ _ ih₁ ih₂ | property _ _ ih₁ ih₂ => exact ih₁.append ih₂
  | named _ _ ih | quoted _ _ ih | numbered _ _ ih => exact ih

/-- A word of the language is a name in a tree exactly if it is a property alone. -/
theorem mem_names_iff {cs : List Char} {ts : List Token} {t : Expr Placeholder} (hts : tokenize cs = .ok ts)
    (ht : parse cs = .ok t) {w : String} (hw : w ∈ fixedWords) : w ∈ t.names ↔ IsLone (lexemes ts) w.toList := by
  rw [parse, hts] at ht
  obtain ⟨d, -, hyield, rfl⟩ : Derives .assign (lexemes ts) t := derives_of_ofTokens_eq_ok ht
  have hlone : lone [] false (lexemes ts) = d.shorthands := by
    have hfinds := d.finds [] []
    simpa [lone, hyield] using hfinds
  rw [← mem_lone_start_iff, hlone]
  exact d.names.mem_iff hw

end Trees

end NullSafe.Surface

namespace NullSafe

open Surface Literal

section Requests

/-- A request looks a bare name up in the binding context. -/
def Request.LooksUp (r : Request) (globals : List String) (n : String) : Prop :=
  r.Mentions n ∧ (Scope.ofNames globals r.arguments).classify n = .context

/-- No argument is a word of the language, so that only globals hide one. -/
theorem Scope.classify_fixedWord {globals names : List String} (hnames : Request.namesProblem? names = none)
    {w : String} (hw : w ∈ fixedWords) : (Scope.ofNames globals names).classify w = .context ↔ w ∉ globals := by
  have hwords : ∀ word ∈ fixedWords, word ∈ words ∧ Scope.keywords.contains word = false := by decide +kernel
  have hmem : w ∉ names := fun hmem => Service.not_mem_words (Request.nameProblem_of_accepted hnames hmem)
    (hwords w hw).1
  rw [Scope.classify, Scope.parameter?_of_not_mem globals (Request.nodup_of_accepted hnames) hmem, if_neg (by decide),
    (hwords w hw).2, if_neg (by decide)]
  change (if globals.contains w then Binding.global else .context) = .context ↔ _
  rw [← List.contains_iff_mem]
  split <;> simp_all

/-- A word of the language is a name in the tree of a text exactly if it stands there as a property alone. So it is in a
request that is compiled, which looks it up in the binding context unless a global has its name. -/
theorem fixedWord_named_iff {w : String} (hw : w ∈ fixedWords) :
    (∀ cs ts t, tokenize cs = .ok ts → parse cs = .ok t → (w ∈ t.names ↔ IsLone (lexemes ts) w.toList)) ∧
      ∀ functionName globals (r : Request) generated, Request.namesProblem? r.arguments = none →
        Compile.run functionName globals r = .ok generated →
        ∃ text ts, desugar (isolate r.expression.toList) = .ok text ∧ tokenize (replaceWords text) = .ok ts ∧
          (r.LooksUp globals w ↔ w ∉ globals ∧ IsLone (lexemes ts) w.toList) := by
  refine ⟨fun cs ts t hts ht => mem_names_iff hts ht hw, ?_⟩
  intro functionName globals r generated hnames hrun
  obtain ⟨body, -, hbody, -, -⟩ := Compile.run_eq_ok hrun
  obtain ⟨text, t, htext, ht, -⟩ := Compile.analyse_eq_ok hbody
  obtain ⟨ts, hts⟩ : ∃ ts, tokenize (replaceWords text) = .ok ts := by
    rcases hts : tokenize (replaceWords text) with f | ts
    · rw [parse, hts] at ht
      cases ht
    · exact ⟨ts, rfl⟩
  have hmentions : r.Mentions w ↔ w ∈ t.names := by
    constructor
    · rintro ⟨text', t', htext', ht', hmem⟩
      rw [htext] at htext'
      cases htext'
      rw [ht] at ht'
      cases ht'
      exact hmem
    · exact fun hmem => ⟨text, t, htext, ht, hmem⟩
  refine ⟨text, ts, htext, hts, ?_⟩
  rw [Request.LooksUp, hmentions, Scope.classify_fixedWord hnames hw, mem_names_iff hts ht hw, and_comm]

/-- A request for an object with one property. -/
def bracedRequest : Request := ⟨"\x7btrue\x7d", [], false⟩

def bracedTokens : List Token := [⟨.symbol .openBrace, 0⟩, ⟨.name "true".toList, 1⟩, ⟨.symbol .closeBrace, 5⟩]

theorem tokenize_braced : tokenize bracedRequest.expression.toList = .ok bracedTokens := by decide +kernel

theorem isLone_braced : IsLone (lexemes bracedTokens) "true".toList :=
  ⟨[.symbol .openBrace], [.symbol .closeBrace], rfl, by decide, by decide⟩

theorem parse_braced : parse bracedRequest.expression.toList = .ok (.object [(.name "true", .name "true")]) := by
  have hfit : Fit (lexemes bracedTokens) := by unfold Fit; decide
  exact parse_eq_ok_iff.2 ⟨_, lexes_of_tokensFrom tokenize_braced, hfit, derives_unary
    ⟨.chain (.object (.lastProperty (.shorthand "true".toList))) .linked, by simp [Derivation.Valid], rfl, rfl⟩⟩

theorem desugar_braced :
    desugar (isolate bracedRequest.expression.toList) = .ok bracedRequest.expression.toList := by decide +kernel

theorem replaceWords_braced : replaceWords bracedRequest.expression.toList = bracedRequest.expression.toList := by
  decide +kernel

theorem isTree_braced : bracedRequest.IsTree (.object [(.name "true", .name "true")]) := by
  refine ⟨bracedRequest.expression.toList, .object [(.name "true", .name "true")], desugar_braced, ?_, ?_⟩
  · rw [replaceWords_braced, parse_braced]
  · rw [show Literal.literals bracedRequest.expression.toList = [] by decide +kernel]
    rfl

/-- The property is looked up in the binding context. -/
theorem looksUp_braced : "true" ∈ fixedWords ∧
    "true" ∈ (.object [(.name "true", .name "true")] : Expr Placeholder).names ∧
    ∃ generated, Compile.run "expression" [] bracedRequest = .ok generated ∧ bracedRequest.LooksUp [] "true" := by
  have hword : "true" ∈ fixedWords := by decide
  obtain ⟨generated, hrun⟩ : ∃ generated, Compile.run "expression" [] bracedRequest = .ok generated :=
    (Compile.exists_run_iff isTree_braced).2 ⟨by decide +kernel, by decide +kernel, by decide +kernel⟩
  obtain ⟨hparsed, hcompiled⟩ := fixedWord_named_iff hword
  obtain ⟨text, ts, htext, hts, hlooksUp⟩ := hcompiled "expression" [] bracedRequest generated rfl hrun
  rw [desugar_braced] at htext
  cases htext
  rw [replaceWords_braced, tokenize_braced] at hts
  cases hts
  exact ⟨hword, (hparsed _ _ _ tokenize_braced parse_braced).2 isLone_braced, generated, hrun,
    hlooksUp.2 ⟨nofun, isLone_braced⟩⟩

/-- A word of the language can be a name. -/
theorem not_forall_not_named : ¬ ∀ cs t, parse cs = .ok t → ∀ w ∈ fixedWords, w ∉ t.names := by
  intro h
  exact h _ _ parse_braced "true" (by decide) (by simp [Expr.names, Expr.namesEntries])

end Requests

end NullSafe
