import NullSafe.Proofs.Segments

/-! # Formatter pipelines

A text with formatter pipes is taken apart, and its parts are put into the text of nested calls. Parsing that text
gives the calls on what the parts are on their own, as long as no part reaches across the commas and parentheses
that it is put between.
-/

namespace NullSafe.Surface

open Text List Category Formatter

section Texts

variable {ls : List Lexeme}

theorem Lexes.chars_subset {cs : List Char} (h : Lexes cs ls) : ∀ l ∈ ls, l.chars ⊆ cs := by
  induction h with
  | nil => exact nofun
  | blank _ _ ih => exact fun l hl => subset_cons_of_subset _ (ih l hl)
  | @read c rest after l ls _ hl _ ih =>
    obtain ⟨happ, -⟩ := readLexeme?_eq_some hl
    rw [← happ]
    refine forall_mem_cons.2 ⟨subset_append_left _ _, fun l' hl' => ?_⟩
    exact subset_append_of_subset_right _ (ih l' hl')

theorem lexes_closeParen_iff : Lexes [')'] ls ↔ ls = [.symbol .closeParen] := by
  have hread : readLexeme? [')'] = some (.symbol .closeParen, []) := rfl
  rw [lexes_read_iff (by decide) hread]
  simp [lexes_nil_iff]

theorem lexes_comma_iff {rest : List Char} :
    Lexes (',' :: ' ' :: rest) ls ↔ ∃ ls', Lexes rest ls' ∧ ls = .symbol .comma :: ls' := by
  have hread : readLexeme? (',' :: ' ' :: rest) = some (.symbol .comma, ' ' :: rest) := rfl
  simp only [lexes_read_iff (by decide) hread, lexes_blank_iff (by decide : isBlank ' ' = true)]

theorem joinArguments_append (text text' : List Char) (texts : List (List Char)) (rest : List Char) :
    joinArguments (text :: text' :: texts) ++ rest =
      text ++ ',' :: ' ' :: (joinArguments (text' :: texts) ++ rest) := by
  rw [joinArguments, intercalate_cons_cons, append_assoc, append_assoc]
  rfl

theorem lexes_joinArguments_iff {texts : List (List Char)} (h : texts ≠ []) :
    Lexes (joinArguments texts ++ [')']) ls ↔
      ∃ pieces, List.Forall₂ Lexes texts pieces ∧
        ls = List.intercalate [.symbol .comma] pieces ++ [Lexeme.symbol .closeParen] := by
  induction texts generalizing ls with
  | nil => exact absurd rfl h
  | cons text texts ih =>
    rcases texts with _ | ⟨text', texts⟩
    · rw [joinArguments, intercalate_singleton, lexes_append_cons_iff (by decide)]
      constructor
      · rintro ⟨xs, ys, hxs, hys, rfl⟩
        rw [lexes_closeParen_iff.1 hys]
        exact ⟨[xs], .cons hxs .nil, by rw [intercalate_singleton]⟩
      · rintro ⟨_, ⟨⟩, rfl⟩
        rename_i xs _ hxs hnil
        cases hnil
        exact ⟨xs, _, hxs, lexes_closeParen_iff.2 rfl, by rw [intercalate_singleton]⟩
    · rw [joinArguments_append, lexes_append_cons_iff (by decide)]
      constructor
      · rintro ⟨xs, ys, hxs, hys, rfl⟩
        obtain ⟨zs, hzs, rfl⟩ := lexes_comma_iff.1 hys
        obtain ⟨pieces, hpieces, rfl⟩ := (ih (by simp)).1 hzs
        refine ⟨xs :: pieces, .cons hxs hpieces, ?_⟩
        obtain ⟨y, pieces, rfl⟩ := exists_cons_of_ne_nil (l := pieces) (by rintro rfl; cases hpieces)
        simp [intercalate_cons_cons]
      · rintro ⟨_, ⟨⟩, rfl⟩
        rename_i xs pieces hxs hpieces
        obtain ⟨y, pieces, rfl⟩ := exists_cons_of_ne_nil (l := pieces) (by rintro rfl; cases hpieces)
        refine ⟨xs, _, hxs, lexes_comma_iff.2 ⟨_, (ih (by simp)).2 ⟨_, hpieces, rfl⟩, rfl⟩, ?_⟩
        simp [intercalate_cons_cons]

end Texts

namespace Formatter

variable {f : Formatter} {value : List Char} {ls : List Lexeme}

def callee (f : Formatter) : List Char := "_formatters_.".toList ++ f.name ++ ".call".toList

def passed (f : Formatter) (value : List Char) : List (List Char) := "this".toList :: value :: f.arguments

theorem apply_eq (f : Formatter) (value : List Char) :
    f.apply value [] = f.callee ++ '(' :: (joinArguments (f.passed value) ++ [')']) := by
  have hcall : ".call(this, ".toList = ".call".toList ++ '(' :: ("this".toList ++ ", ".toList) := by
    decide
  have hpassed : value :: f.arguments ++ [] = value :: f.arguments := append_nil _
  have hjoin : joinArguments (f.passed value) =
      "this".toList ++ ", ".toList ++ joinArguments (value :: f.arguments) := intercalate_cons_cons
  unfold apply callee
  rw [hpassed, hcall, hjoin]
  simp only [append_assoc, cons_append]

theorem lexes_apply_iff : Lexes (f.apply value []) ls ↔
    ∃ xs pieces, Lexes f.callee xs ∧ List.Forall₂ Lexes (f.passed value) pieces ∧
      ls = xs ++ Lexeme.symbol .openParen ::
        (List.intercalate [.symbol .comma] pieces ++ [Lexeme.symbol .closeParen]) := by
  have hopen : ∀ {rest : List Char} {ls : List Lexeme},
      Lexes ('(' :: rest) ls ↔ ∃ ls', Lexes rest ls' ∧ ls = .symbol .openParen :: ls' := fun {rest} {ls} => by
    have hread : readLexeme? ('(' :: rest) = some (.symbol .openParen, rest) := rfl
    rw [lexes_read_iff (by decide) hread]
  rw [apply_eq, lexes_append_cons_iff (by decide)]
  simp only [hopen, lexes_joinArguments_iff (show f.passed value ≠ [] from nofun)]
  constructor
  · rintro ⟨xs, _, hxs, ⟨_, ⟨pieces, hpieces, rfl⟩, rfl⟩, rfl⟩
    exact ⟨xs, pieces, hxs, hpieces, rfl⟩
  · rintro ⟨xs, pieces, hxs, hpieces, rfl⟩
    exact ⟨xs, _, hxs, ⟨_, ⟨pieces, hpieces, rfl⟩, rfl⟩, rfl⟩

theorem callee_eq (f : Formatter) :
    f.callee = "_formatters_".toList ++ '.' :: (f.name ++ '.' :: ("call".toList ++ [])) := by
  have hroot : "_formatters_.".toList = "_formatters_".toList ++ ['.'] := by decide
  have hcall : ".call".toList = '.' :: ("call".toList ++ []) := by decide
  unfold callee
  rw [hroot, hcall]
  simp only [append_assoc, nil_append, cons_append]

theorem isName_root : IsName "_formatters_".toList := by unfold IsName; decide

theorem isName_call : IsName "call".toList := by unfold IsName; decide

theorem head?_point {rest : List Char} : ∀ c ∈ ('.' :: rest).head?, isNameRest c = false := by
  rintro c ⟨⟩
  decide

theorem lexes_callee_iff (h : IsName f.name) :
    Lexes f.callee ls ↔ ls = [.name "_formatters_".toList, .symbol .dot, .name f.name, .symbol .dot,
      .name "call".toList] := by
  have hlast : ∀ ls', Lexes ("call".toList ++ []) ls' ↔ ls' = [.name "call".toList] := by
    intro ls'
    rw [lexes_name_iff isName_call (by simp)]
    simp [lexes_nil_iff]
  simp only [callee_eq, lexes_name_iff isName_root head?_point, lexes_member_iff h.1, lexes_name_iff h head?_point,
    lexes_member_iff isName_call.1, hlast]
  simp

/-- A character of a word that cannot stand in a name starts no token that continues an expression. -/
theorem binding_eq_none_of_isWord {c : Char} {rest : List Char} (hc : isWord c = true) (hrest : isNameRest c = false)
    (h : Lexes (c :: rest) ls) : ∃ l ls', ls = l :: ls' ∧ l.binding = none := by
  have hhigh := le_toNat_of_isWord hc hrest
  cases h with
  | blank hblank =>
    rw [isBlank_eq_false_of_isWord hc] at hblank
    cases hblank
  | @read _ _ after l ls _ hl _ =>
    refine ⟨l, ls, rfl, ?_⟩
    rcases Literal.readLexeme_cases hl with ⟨n, rfl, -⟩ | hp | ⟨n, rfl, -⟩ | ⟨s, rfl, hs, -⟩
    · rfl
    · obtain ⟨hmem, -⟩ := readPlaceholder?_eq_some_iff.1 hp
      simp only [mem_cons, not_mem_nil, or_false] at hmem
      rcases hmem with rfl | rfl | rfl <;> rfl
    · rfl
    · obtain ⟨happ, -⟩ := Symbol.read?_eq_some hs
      have hlow : ∀ x ∈ s.chars, x.toNat < 0x80 := by cases s <;> decide
      have hmem : c ∈ s.chars := by
        rcases hchars : s.chars with _ | ⟨x, xs⟩
        · cases s <;> cases hchars
        · rw [hchars] at happ
          obtain ⟨rfl, -⟩ := List.cons.inj happ
          exact .head _
      exact absurd (hlow c hmem) (by omega)

theorem isName_of_derives {zs : List Lexeme} {v : Expr Placeholder} (hf : f.IsNamed) (h : Lexes f.callee ls)
    (hv : Derives .assign (ls ++ zs) v) : IsName f.name := by
  refine ⟨hf.1, Classical.byContradiction fun hall => ?_⟩
  -- the name that is read ends before the first character that cannot stand in one
  have hspan := takeWhile_append_dropWhile (p := isNameRest) (l := f.name)
  rcases hdrop : f.name.dropWhile isNameRest with _ | ⟨x, n⟩
  · exact hall (all_eq_true.2 (dropWhile_eq_nil_iff.1 hdrop))
  rw [hdrop] at hspan
  have hx : isNameRest x = false := by
    have hhead := head?_dropWhile_not isNameRest f.name
    rw [hdrop] at hhead
    simpa using hhead
  have hname : IsName (f.name.takeWhile isNameRest) := by
    refine ⟨?_, all_eq_true.2 fun y hy => mem_takeWhile_imp hy⟩
    have hstart := hf.1
    rcases hm : f.name with _ | ⟨y, m⟩ <;> rw [hm] at hstart
    · exact absurd hstart (by decide)
    · rw [takeWhile_cons_of_pos (isNameRest_of_isNameStart hstart)]
      exact hstart
  have hword : isWord x = true := by
    rcases hf.2 x (hspan ▸ mem_append_right _ (.head _)) with hword | rfl
    · exact hword
    · exact absurd hx (by decide)
  rw [callee_eq, lexes_name_iff isName_root head?_point, ← hspan, append_assoc, cons_append] at h
  obtain ⟨_, h, rfl⟩ := h
  rw [lexes_member_iff hname.1] at h
  obtain ⟨_, h, rfl⟩ := h
  rw [lexes_name_iff hname (by rintro c ⟨⟩; exact hx)] at h
  obtain ⟨_, h, rfl⟩ := h
  obtain ⟨l, ls, rfl, hl⟩ := binding_eq_none_of_isWord hword hx h
  exact binding_after_member (by decide) hv hl

end Formatter

section Parts

/-- Whether a text that has tokens reaches across what it is put between: it is blank, it closes a bracket that it
does not open, or it has tokens outside brackets that may not stand there. -/
def straddles (allows : Lexeme → Bool) (cs : List Char) : Bool :=
  match tokenize cs with
  | .ok ts => ts.isEmpty || (scan allows 0 (lexemes ts)).isNone
  | .error _ => false

theorem straddles_eq_false_iff {p : Lexeme → Bool} {cs : List Char} :
    straddles p cs = false ↔ ∀ ls, Lexes cs ls → ls ≠ [] ∧ Unbroken p ls := by
  unfold straddles
  split
  · rename_i ts hts
    have hlexes : Lexes cs (lexemes ts) := lexes_of_tokensFrom hts
    have honly : ∀ ls, Lexes cs ls ↔ ls = lexemes ts := fun ls => ⟨fun h => h.unique hlexes, fun h => h ▸ hlexes⟩
    simp only [honly, forall_eq, Bool.or_eq_false_iff, Option.isNone_eq_false_iff, Option.isSome_iff_exists]
    refine and_congr ?_ Iff.rfl
    simp [lexemes]
  · rename_i f hf
    simp only [true_iff]
    intro ls hls
    obtain ⟨ts, hts, -⟩ := hls.tokensFrom 0
    rw [tokenize, hts] at hf
    cases hf

def ParseAll (texts : List (List Char)) (vs : List (Expr Placeholder)) : Prop :=
  List.Forall₂ (fun text v => parse text = .ok v) texts vs

theorem parseAll_iff {texts : List (List Char)} {vs : List (Expr Placeholder)} :
    ParseAll texts vs ↔ ∃ pieces, List.Forall₂ Lexes texts pieces ∧ (∀ x ∈ pieces, Fit x) ∧
      List.Forall₂ (Derives .assign) pieces vs := by
  constructor
  · intro h
    induction h with
    | nil => exact ⟨[], .nil, nofun, .nil⟩
    | cons h _ ih =>
      obtain ⟨ls, hls, hfit, hv⟩ := parse_eq_ok_iff.1 h
      obtain ⟨pieces, hpieces, hfits, hvs⟩ := ih
      exact ⟨ls :: pieces, .cons hls hpieces, forall_mem_cons.2 ⟨hfit, hfits⟩, .cons hv hvs⟩
  · rintro ⟨pieces, hpieces, hfits, hvs⟩
    induction hpieces generalizing vs with
    | nil => cases hvs; exact .nil
    | cons hls _ ih =>
      cases hvs with
      | cons hv hvs =>
        obtain ⟨hfit, hfits⟩ := forall_mem_cons.1 hfits
        exact .cons (parse_eq_ok_iff.2 ⟨_, hls, hfit, hv⟩) (ih hfits hvs)

theorem derives_name {text : List Char} (h : text ≠ "typeof".toList) :
    Derives .assign [.name text] (Parser.nameTree text) :=
  derives_unary ⟨.chain (.name text h) .linked, by simp [Derivation.Valid], by simp, rfl⟩

theorem parse_of_isName {n : List Char} (hn : IsName n) (h : n ≠ "typeof".toList) :
    parse n = .ok (Parser.nameTree n) := by
  refine parse_eq_ok_iff.2 ⟨[.name n], ?_, fit_cons.2 ⟨rfl, fit_nil⟩, derives_name h⟩
  rw [← append_nil n]
  exact (lexes_name_iff hn (by simp)).2 ⟨[], .nil, by rw [append_nil]⟩

end Parts

namespace Formatter

def tree (name : List Char) (value : Expr Placeholder) (arguments : List (Expr Placeholder)) : Expr Placeholder :=
  .call (.member (.member (.name "_formatters_") (String.ofList name)) "call") (.this :: value :: arguments)

variable {f : Formatter} {value : List Char} {t : Expr Placeholder}

theorem parse_this : parse "this".toList = .ok .this :=
  parse_of_isName (by unfold IsName; decide) (by decide)

theorem unbroken_passed (hvalue : straddles assign.outer value = false)
    (hargs : ∀ a ∈ f.arguments, straddles assign.outer a = false) {pieces : List (List Lexeme)}
    (h : List.Forall₂ Lexes (f.passed value) pieces) :
    (∀ x ∈ pieces, Unbroken assign.outer x) ∧ pieces.getLast? ≠ some [] := by
  have hpassed : ∀ a ∈ f.passed value, straddles assign.outer a = false :=
    forall_mem_cons.2 ⟨by decide +kernel, forall_mem_cons.2 ⟨hvalue, hargs⟩⟩
  have hpieces : ∀ x ∈ pieces, x ≠ [] ∧ Unbroken assign.outer x := by
    generalize f.passed value = texts at h hpassed
    induction h with
    | nil => exact nofun
    | cons hlexes _ ih =>
      rw [forall_mem_cons] at hpassed ⊢
      exact ⟨straddles_eq_false_iff.1 hpassed.1 _ hlexes, ih hpassed.2⟩
  exact ⟨fun x hx => (hpieces x hx).2, fun hlast => (hpieces [] (mem_of_getLast? hlast)).1 rfl⟩

/-- The text of the call of a formatter parses to the call if nothing that is passed straddles. -/
theorem parse_apply_iff (hf : f.IsNamed) (hvalue : straddles assign.outer value = false)
    (hargs : ∀ a ∈ f.arguments, straddles assign.outer a = false) :
    parse (f.apply value []) = .ok t ↔
      IsName f.name ∧ ∃ v vs, parse value = .ok v ∧ ParseAll f.arguments vs ∧ t = tree f.name v vs := by
  have hroot : Parser.nameTree "_formatters_".toList = .name "_formatters_" := rfl
  have htypeof : "_formatters_".toList ≠ "typeof".toList := by decide
  rw [parse_eq_ok_iff]
  constructor
  · rintro ⟨ls, hls, hfit, hv⟩
    obtain ⟨xs, pieces, hxs, hpieces, rfl⟩ := lexes_apply_iff.1 hls
    have hname := isName_of_derives hf hxs hv
    obtain rfl := (lexes_callee_iff hname).1 hxs
    obtain ⟨hunbroken, hlast⟩ := unbroken_passed hvalue hargs hpieces
    obtain ⟨vs, hvs, rfl⟩ := (derives_callLexemes_iff htypeof hunbroken hlast).1 hv
    have hparse : ParseAll (f.passed value) vs := parseAll_iff.2 ⟨pieces, hpieces, fit_callLexemes_iff.1 hfit, hvs⟩
    cases hparse with
    | cons hthis hparse =>
      rw [parse_this] at hthis
      cases hthis
      cases hparse with
      | cons hv' hvs' => exact ⟨hname, _, _, hv', hvs', rfl⟩
  · rintro ⟨hname, v, vs, hv, hvs, rfl⟩
    obtain ⟨pieces, hpieces, hfit, hderives⟩ := parseAll_iff.1 (.cons parse_this (.cons hv hvs))
    exact ⟨_, lexes_apply_iff.2 ⟨_, pieces, (lexes_callee_iff hname).2 rfl, hpieces, rfl⟩,
      fit_callLexemes_iff.2 hfit, derives_callLexemes htypeof hderives⟩

def inCallee (c : Char) : Bool := isWord c || c = '$' || c = '.'

theorem inCallee_of_mem {c : Char} (hf : f.IsNamed) (h : c ∈ f.callee) : inCallee c = true := by
  have hfixed : (∀ c ∈ "_formatters_".toList, inCallee c = true) ∧ ∀ c ∈ "call".toList, inCallee c = true := by
    decide
  rw [callee_eq, append_nil, mem_append, mem_cons, mem_append, mem_cons] at h
  rcases h with h | rfl | h | rfl | h
  · exact hfixed.1 c h
  · rfl
  · rcases hf.2 c h with h | rfl
    · simp [inCallee, h]
    · rfl
  · rfl
  · exact hfixed.2 c h

theorem of_inCallee {l : Lexeme} (h : ∀ c ∈ l.chars, inCallee c = true) :
    (l.opens = false ∧ l.closes = false) ∧ assign.outer l = true ∧ (l != .symbol .question) = true := by
  cases l with
  | symbol s => cases s <;> first | exact ⟨⟨rfl, rfl⟩, rfl, rfl⟩ | exact absurd (h _ (.head _)) (by decide)
  | _ => exact ⟨⟨rfl, rfl⟩, rfl, rfl⟩

theorem straddles_apply {q : Lexeme → Bool} (hf : f.IsNamed)
    (hq : ∀ l : Lexeme, (∀ c ∈ l.chars, inCallee c = true) → q l = true)
    (hvalue : straddles assign.outer value = false)
    (hargs : ∀ a ∈ f.arguments, straddles assign.outer a = false) : straddles q (f.apply value []) = false := by
  rw [straddles_eq_false_iff]
  intro ls hls
  obtain ⟨xs, pieces, hxs, hpieces, rfl⟩ := lexes_apply_iff.1 hls
  refine ⟨by simp, ?_⟩
  obtain ⟨e, he, -⟩ := closed_of_intercalate (unbroken_passed hvalue hargs hpieces).1
  refine ⟨e, scan_call (closed_of_forall fun l hl => ?_) he⟩
  have hchars : ∀ c ∈ l.chars, inCallee c = true := fun c hc => inCallee_of_mem hf (hxs.chars_subset l hl hc)
  exact ⟨(of_inCallee hchars).1.1, (of_inCallee hchars).1.2, hq l hchars⟩

end Formatter

section Chains

/-- The formatters of a chain, each applied to what the one before it gives, starting with a value. -/
inductive Applied : Expr Placeholder → List Formatter → Expr Placeholder → Prop where
  | nil (v : Expr Placeholder) : Applied v [] v
  | cons {v t f fs vs} (hname : IsName f.name) (hvs : ParseAll f.arguments vs) (h : Applied (tree f.name v vs) fs t) :
      Applied v (f :: fs) t

/-- A formatter that can be put into a text: it has a name, and no argument straddles. -/
structure Formatter.Fits (f : Formatter) : Prop where
  named : f.IsNamed
  arguments : ∀ a ∈ f.arguments, straddles assign.outer a = false

def nest (value : List Char) (fs : List Formatter) : List Char := fs.foldl (fun v f => f.apply v []) value

/-- The text of nested calls parses to the nested calls. -/
theorem parse_nest_iff {value : List Char} {fs : List Formatter} {t : Expr Placeholder}
    (hvalue : straddles assign.outer value = false) (hfs : ∀ f ∈ fs, f.Fits) :
    parse (nest value fs) = .ok t ↔ ∃ v, parse value = .ok v ∧ Applied v fs t := by
  induction fs generalizing value with
  | nil =>
    constructor
    · exact fun h => ⟨t, h, .nil t⟩
    · rintro ⟨v, hv, ⟨⟩⟩
      exact hv
  | cons f fs ih =>
    obtain ⟨hf, hfs⟩ := forall_mem_cons.1 hfs
    have happly := straddles_apply hf.named (fun _ hl => (of_inCallee hl).2.1) hvalue hf.arguments
    rw [show nest value (f :: fs) = nest (f.apply value []) fs from rfl, ih happly hfs]
    simp only [parse_apply_iff hf.named hvalue hf.arguments]
    constructor
    · rintro ⟨_, ⟨hname, v, vs, hv, hvs, rfl⟩, h⟩
      exact ⟨v, hv, .cons hname hvs h⟩
    · rintro ⟨v, hv, h⟩
      cases h with
      | cons hname hvs h => exact ⟨_, ⟨hname, v, _, hv, hvs, rfl⟩, h⟩

theorem straddles_nest {value : List Char} {f : Formatter} {fs : List Formatter}
    (hvalue : straddles assign.outer value = false) (hfs : ∀ g ∈ f :: fs, g.Fits) :
    straddles (· != .symbol .question) (nest value (f :: fs)) = false := by
  induction fs generalizing value f with
  | nil =>
    obtain ⟨hf, -⟩ := forall_mem_cons.1 hfs
    exact straddles_apply hf.named (fun _ hl => (of_inCallee hl).2.2) hvalue hf.arguments
  | cons g fs ih =>
    obtain ⟨hf, hfs⟩ := forall_mem_cons.1 hfs
    exact ih (straddles_apply hf.named (fun _ hl => (of_inCallee hl).2.1) hvalue hf.arguments) hfs

theorem lexes_assignment_iff {target text : List Char} {ls : List Lexeme} :
    Lexes (target ++ " = ".toList ++ text) ls ↔
      ∃ xs ys, Lexes target xs ∧ Lexes text ys ∧ ls = xs ++ Lexeme.symbol .assign :: ys := by
  have hsign : target ++ " = ".toList ++ text = target ++ ' ' :: '=' :: ' ' :: text := append_assoc ..
  have hread : readLexeme? ('=' :: ' ' :: text) = some (.symbol .assign, ' ' :: text) := rfl
  have hblank : isBlank ' ' = true := by decide
  rw [hsign, lexes_append_cons_iff (by decide)]
  simp only [lexes_blank_iff hblank, lexes_read_iff (by decide) hread]
  constructor
  · rintro ⟨xs, _, hxs, ⟨ys, hys, rfl⟩, rfl⟩
    exact ⟨xs, ys, hxs, hys, rfl⟩
  · rintro ⟨xs, ys, hxs, hys, rfl⟩
    exact ⟨xs, _, hxs, ⟨ys, hys, rfl⟩, rfl⟩

theorem parse_assignment_iff {target text : List Char} {t : Expr Placeholder}
    (htarget : straddles Lexeme.inTarget target = false) (htext : straddles (· != .symbol .question) text = false) :
    parse (target ++ " = ".toList ++ text) = .ok t ↔
      ∃ x y, parse target = .ok x ∧ x.isTarget = true ∧ parse text = .ok y ∧ t = .assign x y := by
  have hfit : ∀ {xs ys : List Lexeme}, Fit (xs ++ Lexeme.symbol .assign :: ys) ↔ Fit xs ∧ Fit ys := fun {xs ys} => by
    rw [fit_append, fit_cons]
    exact and_congr_right fun _ => and_iff_right rfl
  have hderives : ∀ {xs ys : List Lexeme}, Lexes target xs → Lexes text ys →
      (Derives .assign (xs ++ Lexeme.symbol .assign :: ys) t ↔ _) := fun hxs hys =>
    derives_assignment_iff (straddles_eq_false_iff.1 htarget _ hxs).2 (straddles_eq_false_iff.1 htext _ hys).2
  constructor
  · intro h
    obtain ⟨_, hls, hfits, hv⟩ := parse_eq_ok_iff.1 h
    obtain ⟨xs, ys, hxs, hys, rfl⟩ := lexes_assignment_iff.1 hls
    obtain ⟨x, y, hx, htarget, hy, rfl⟩ := (hderives hxs hys).1 hv
    obtain ⟨hfitx, hfity⟩ := hfit.1 hfits
    exact ⟨x, y, parse_eq_ok_iff.2 ⟨xs, hxs, hfitx, hx⟩, htarget, parse_eq_ok_iff.2 ⟨ys, hys, hfity, hy⟩, rfl⟩
  · rintro ⟨x, y, hx, htarget, hy, rfl⟩
    obtain ⟨xs, hxs, hfitx, hx⟩ := parse_eq_ok_iff.1 hx
    obtain ⟨ys, hys, hfity, hy⟩ := parse_eq_ok_iff.1 hy
    exact parse_eq_ok_iff.2 ⟨_, lexes_assignment_iff.2 ⟨xs, ys, hxs, hys, rfl⟩, hfit.2 ⟨hfitx, hfity⟩,
      (hderives hxs hys).2 ⟨x, y, hx, htarget, hy, rfl⟩⟩

end Chains

/-- The parts of a text with formatter pipes. -/
structure Pipeline where
  target : Option (List Char)
  value : List Char
  formatters : List Formatter

namespace Pipeline

def read (cs : List Char) : Except Fault Pipeline :=
  match splitPipes cs with
  | [] => .error { cause := .pipeWithoutValue }
  | first :: segments =>
    let head := trim first
    if head.isEmpty then .error { cause := .pipeWithoutValue }
    else do
      let formatters ← segments.mapM readFormatter
      match splitAssignment head with
      | none => return ⟨none, head, formatters⟩
      | some (target, value) => return ⟨some target, value, formatters⟩

/-- The formatters as they are called. Where the value is assigned, the first one is told so. -/
def calls (p : Pipeline) : List Formatter :=
  match p.target, p.formatters with
  | some _, f :: fs => { f with arguments := f.arguments ++ ["true".toList] } :: fs
  | _, fs => fs

def text (p : Pipeline) : List Char :=
  match p.target with
  | none => nest p.value p.calls
  | some target => target ++ " = ".toList ++ nest p.value p.calls

/-- What a text with formatter pipes means, if each part is an expression on its own. -/
def Means (p : Pipeline) (t : Expr Placeholder) : Prop :=
  ∃ v y, parse p.value = .ok v ∧ Applied v p.calls y ∧
    match p.target with
    | none => t = y
    | some target => ∃ x, parse target = .ok x ∧ x.isTarget = true ∧ t = .assign x y

def straddles (p : Pipeline) : Bool :=
  (p.value :: p.formatters.flatMap Formatter.arguments).any (Surface.straddles assign.outer) ||
    p.target.any (Surface.straddles Lexeme.inTarget)

end Pipeline

section Desugar

theorem applyFormatters_nil (value : List Char) (segments : List (List Char)) :
    applyFormatters value [] segments = (segments.mapM readFormatter).map (nest value) := by
  induction segments generalizing value with
  | nil => rfl
  | cons segment segments ih =>
    rw [applyFormatters, mapM_cons]
    rcases readFormatter segment with e | f
    · rfl
    · change applyFormatters (f.apply value []) [] segments = _
      rw [ih]
      change _ = Except.map (nest value) (segments.mapM readFormatter >>= fun fs => pure (f :: fs))
      rcases segments.mapM readFormatter with e | fs <;> rfl

theorem Formatter.apply_extra (f : Formatter) (value : List Char) (extra : List (List Char)) :
    f.apply value extra = { f with arguments := f.arguments ++ extra }.apply value [] := by
  unfold apply
  rw [append_nil, cons_append]

/-- Removing the pipes takes the text apart and puts the parts into a text of calls. -/
theorem desugar_eq {cs : List Char} (h : 2 ≤ (splitPipes cs).length) :
    desugar cs = (Pipeline.read cs).map Pipeline.text := by
  unfold desugar Pipeline.read
  rcases hparts : splitPipes cs with _ | ⟨first, _ | ⟨segment, segments⟩⟩ <;> rw [hparts] at h
  · exact absurd h (by decide)
  · exact absurd h (by simp)
  dsimp only
  split
  · rfl
  rcases splitAssignment (trim first) with _ | ⟨target, value⟩
  · dsimp only
    rw [applyFormatters_nil]
    rcases (segment :: segments).mapM readFormatter with e | fs <;> rfl
  · dsimp only
    rw [applyFormatters, mapM_cons]
    rcases readFormatter segment with e | f
    · rfl
    · change (applyFormatters (f.apply value ["true".toList]) [] segments >>= fun value => _) = _
      rw [applyFormatters_nil, apply_extra]
      rcases segments.mapM readFormatter with e | fs <;> rfl

end Desugar

section Parsed

theorem straddles_of_parse {cs : List Char} {v : Expr Placeholder} (h : parse cs = .ok v) :
    straddles assign.outer cs = false := by
  obtain ⟨ls, hls, -, d, -, rfl, -⟩ := parse_eq_ok_iff.1 h
  rw [straddles_eq_false_iff]
  intro xs hxs
  rw [hxs.unique hls]
  exact ⟨yield_ne_nil d, 0, d.closed_yield⟩

theorem straddles_of_parse_target {cs : List Char} {x : Expr Placeholder} (h : parse cs = .ok x)
    (hx : x.isTarget = true) : straddles Lexeme.inTarget cs = false := by
  obtain ⟨ls, hls, -, d, -, rfl, rfl⟩ := parse_eq_ok_iff.1 h
  rw [straddles_eq_false_iff]
  intro xs hxs
  rw [hxs.unique hls]
  refine ⟨yield_ne_nil d, 0, ?_⟩
  cases d with
  | assign => cases hx
  | unassigned d =>
    cases d with
    | conditional => cases hx
    | unconditional d =>
      refine d.closed_yield.mono fun l hl => ?_
      simp only [outer, Lexeme.inTarget, Bool.and_eq_true] at hl ⊢
      exact ⟨hl.1.2, hl.1.1.2⟩

theorem exists_of_forall₂ {α β : Type} {R : α → β → Prop} {as : List α} {bs : List β} (h : List.Forall₂ R as bs) :
    ∀ a ∈ as, ∃ b ∈ bs, R a b := by
  induction h with
  | nil => exact nofun
  | cons h _ ih => exact forall_mem_cons.2 ⟨⟨_, .head _, h⟩, fun a ha => (ih a ha).imp fun _ => .imp_left (.tail _)⟩

theorem Applied.arguments {v t : Expr Placeholder} {fs : List Formatter} (h : Applied v fs t) :
    ∀ f ∈ fs, ∀ a ∈ f.arguments, ∃ v, parse a = .ok v := by
  induction h with
  | nil => exact nofun
  | cons _ hvs _ ih => exact forall_mem_cons.2 ⟨fun a ha => (exists_of_forall₂ hvs a ha).imp fun _ => And.right, ih⟩

namespace Pipeline

variable {p : Pipeline} {t : Expr Placeholder} {P : List Char → Prop}

theorem straddles_eq_false_iff : p.straddles = false ↔
    Surface.straddles assign.outer p.value = false ∧
      (∀ f ∈ p.formatters, ∀ a ∈ f.arguments, Surface.straddles assign.outer a = false) ∧
      ∀ target ∈ p.target, Surface.straddles Lexeme.inTarget target = false := by
  rcases p with ⟨_ | target, value, formatters⟩ <;> simp [straddles, and_assoc]

theorem forall_of_calls (h : ∀ f ∈ p.calls, ∀ a ∈ f.arguments, P a) : ∀ f ∈ p.formatters, ∀ a ∈ f.arguments, P a := by
  rcases p with ⟨_ | target, value, _ | ⟨f, fs⟩⟩
  iterate 3 exact h
  · obtain ⟨hf, hfs⟩ := forall_mem_cons.1 h
    exact forall_mem_cons.2 ⟨(forall_mem_append.1 hf).1, hfs⟩

theorem forall_calls (htrue : P "true".toList)
    (h : ∀ f ∈ p.formatters, ∀ a ∈ f.arguments, P a) : ∀ f ∈ p.calls, ∀ a ∈ f.arguments, P a := by
  rcases p with ⟨_ | target, value, _ | ⟨f, fs⟩⟩
  iterate 3 exact h
  · obtain ⟨hf, hfs⟩ := forall_mem_cons.1 h
    refine forall_mem_cons.2 ⟨forall_mem_append.2 ⟨hf, ?_⟩, hfs⟩
    exact fun a ha => mem_singleton.1 ha ▸ htrue

theorem forall_names (h : ∀ f ∈ p.formatters, P f.name) : ∀ f ∈ p.calls, P f.name := by
  rcases p with ⟨_ | target, value, _ | ⟨f, fs⟩⟩
  iterate 3 exact h
  · obtain ⟨hf, hfs⟩ := forall_mem_cons.1 h
    exact forall_mem_cons.2 ⟨hf, hfs⟩

theorem exists_calls (h : p.formatters ≠ []) : ∃ f fs, p.calls = f :: fs := by
  rcases p with ⟨_ | target, value, _ | ⟨f, fs⟩⟩
  · exact absurd rfl h
  · exact ⟨f, fs, rfl⟩
  · exact absurd rfl h
  · exact ⟨_, fs, rfl⟩

theorem straddles_true : Surface.straddles assign.outer "true".toList = false := by decide +kernel

/-- Where the parts are expressions, none of them straddles. -/
theorem Means.straddles_eq_false (h : p.Means t) : p.straddles = false := by
  obtain ⟨v, y, hv, hy, ht⟩ := h
  refine straddles_eq_false_iff.2 ⟨straddles_of_parse hv, ?_, ?_⟩
  · intro f hf a ha
    obtain ⟨v, hv⟩ := forall_of_calls hy.arguments f hf a ha
    exact straddles_of_parse hv
  intro target htarget
  rw [htarget] at ht
  obtain ⟨x, hx, hx', -⟩ := ht
  exact straddles_of_parse_target hx hx'

theorem parse_text_iff (hp : p.straddles = false) (hnamed : ∀ f ∈ p.formatters, f.IsNamed)
    (hne : p.formatters ≠ []) : parse p.text = .ok t ↔ p.Means t := by
  obtain ⟨hvalue, hargs, htarget⟩ := straddles_eq_false_iff.1 hp
  have hcalls : ∀ f ∈ p.calls, f.Fits := fun f hf =>
    ⟨forall_names (P := fun name => IsNamed ⟨name, []⟩) hnamed f hf, forall_calls straddles_true hargs f hf⟩
  have hnest : ∀ y, parse (nest p.value p.calls) = .ok y ↔ _ := fun y => parse_nest_iff hvalue hcalls
  unfold text Means
  rcases htarget' : p.target with _ | target
  · dsimp only
    rw [hnest]
    constructor
    · rintro ⟨v, hv, ht⟩
      exact ⟨v, t, hv, ht, rfl⟩
    · rintro ⟨v, _, hv, ht, rfl⟩
      exact ⟨v, hv, ht⟩
  · dsimp only
    have hquestion : Surface.straddles (· != .symbol .question) (nest p.value p.calls) = false := by
      obtain ⟨f, fs, heq⟩ := exists_calls hne
      rw [heq] at hcalls ⊢
      exact straddles_nest hvalue hcalls
    rw [parse_assignment_iff (htarget target htarget') hquestion]
    simp only [hnest]
    constructor
    · rintro ⟨x, y, hx, hx', ⟨v, hv, hy⟩, rfl⟩
      exact ⟨v, y, hv, hy, x, hx, hx', rfl⟩
    · rintro ⟨v, y, hv, hy, x, hx, hx', rfl⟩
      exact ⟨x, y, hx, hx', ⟨v, hv, hy⟩, rfl⟩

end Pipeline

end Parsed

section Malformed

variable {cs : List Char} {p : Pipeline} {t : Expr Placeholder}

theorem mapM_eq_ok_iff {α β ε : Type} {g : α → Except ε β} {as : List α} {bs : List β} :
    as.mapM g = .ok bs ↔ List.Forall₂ (fun b a => g a = .ok b) bs as := by
  induction as generalizing bs with
  | nil =>
    rw [forall₂_nil_right_iff]
    constructor
    · rintro ⟨⟩
      rfl
    · rintro rfl
      rfl
  | cons a as ih =>
    rw [mapM_cons, forall₂_cons_right_iff]
    simp only [← ih]
    rcases g a with e | b
    · exact iff_of_false nofun (by rintro ⟨_, _, ⟨⟩, -⟩)
    · rcases as.mapM g with e | bs'
      · exact iff_of_false nofun (by rintro ⟨_, _, -, ⟨⟩, -⟩)
      · constructor
        · rintro ⟨⟩
          exact ⟨b, bs', rfl, rfl, rfl⟩
        · rintro ⟨_, _, ⟨⟩, ⟨⟩, rfl⟩
          rfl

theorem mapM_readFormatter_of_isWritten {segments : List (List Char)} {fs : List Formatter}
    (h : List.Forall₂ (fun f segment => f.IsNamed ∧ f.IsWritten segment) fs segments)
    (hargs : ∀ f ∈ fs, ∀ a ∈ f.arguments, IsArgument a) : segments.mapM readFormatter = .ok fs := by
  rw [mapM_eq_ok_iff]
  induction h with
  | nil => exact .nil
  | cons hf _ ih =>
    obtain ⟨hfargs, hargs⟩ := forall_mem_cons.1 hargs
    exact .cons (readFormatter_of_isWritten hf.1 hf.2 hfargs) (ih hargs)

namespace Pipeline

/-- A text is written as the parts of a pipeline: the value, which may be assigned, and between pipes the formatters. -/
def IsWritten (p : Pipeline) (cs : List Char) : Prop :=
  ∃ first segments, splitPipes cs = first :: segments ∧
    (match p.target with
      | none => splitAssignment (trim first) = none ∧ trim first = p.value
      | some target => splitAssignment (trim first) = some (target, p.value)) ∧
    List.Forall₂ (fun f segment => f.IsNamed ∧ f.IsWritten segment) p.formatters segments

theorem isWritten_of_read (h : read cs = .ok p) : p.IsWritten cs := by
  unfold read at h
  rcases hparts : splitPipes cs with _ | ⟨first, segments⟩ <;> rw [hparts] at h
  · cases h
  dsimp only at h
  split at h
  · cases h
  rcases hfs : segments.mapM readFormatter with e | fs <;> rw [hfs] at h
  · cases h
  have hwritten : List.Forall₂ (fun f segment => f.IsNamed ∧ f.IsWritten segment) fs segments :=
    (mapM_eq_ok_iff.1 hfs).imp fun _ _ => readFormatter_eq_ok
  rcases hsplit : splitAssignment (trim first) with _ | ⟨target, value⟩ <;> rw [hsplit] at h <;> cases h
  · exact ⟨first, segments, hparts, ⟨hsplit, rfl⟩, hwritten⟩
  · exact ⟨first, segments, hparts, hsplit, hwritten⟩

theorem IsWritten.isNamed (h : p.IsWritten cs) : ∀ f ∈ p.formatters, f.IsNamed := by
  obtain ⟨_, segments, -, -, hfs⟩ := h
  intro f hf
  obtain ⟨_, -, hnamed, -⟩ := exists_of_forall₂ hfs f hf
  exact hnamed

theorem IsWritten.formatters_ne_nil (h : p.IsWritten cs) (hcs : 2 ≤ (splitPipes cs).length) : p.formatters ≠ [] := by
  obtain ⟨first, segments, hparts, -, hfs⟩ := h
  intro hnil
  rw [hparts, length_cons, ← hfs.length_eq, hnil] at hcs
  exact absurd hcs (by decide)

theorem Means.arguments (h : p.Means t) : ∀ f ∈ p.formatters, ∀ a ∈ f.arguments, ∃ v, parse a = .ok v := by
  obtain ⟨_, _, -, hy, -⟩ := h
  exact forall_of_calls hy.arguments

theorem IsWritten.read (h : p.IsWritten cs) (hvalue : p.value ≠ [])
    (hargs : ∀ f ∈ p.formatters, ∀ a ∈ f.arguments, IsArgument a) : read cs = .ok p := by
  obtain ⟨first, segments, hparts, hfirst, hwritten⟩ := h
  have hfs := mapM_readFormatter_of_isWritten hwritten hargs
  have hhead : ¬ (trim first).isEmpty = true := by
    intro hempty
    rw [List.isEmpty_iff.1 hempty] at hfirst
    rcases htarget : p.target with _ | target <;> rw [htarget] at hfirst
    · exact hvalue hfirst.2.symm
    · exact absurd hfirst nofun
  unfold Pipeline.read
  rw [hparts]
  dsimp only
  rw [if_neg hhead, hfs]
  rcases p with ⟨_ | target, value, fs⟩
  · obtain ⟨hsplit, rfl⟩ := hfirst
    rw [hsplit]
    rfl
  · rw [hfirst]
    rfl

theorem Means.read (h : p.Means t) (hcs : p.IsWritten cs) : read cs = .ok p := by
  have harguments := h.arguments
  obtain ⟨v, -, hv, -, -⟩ := h
  refine hcs.read (fun hnil => parse_nil_ne v (hnil ▸ hv)) fun f hf a ha => ?_
  obtain ⟨v', hv'⟩ := harguments f hf a ha
  exact isArgument_of_parse hv'

end Pipeline

def WellFormed (cs : List Char) (t : Expr Placeholder) : Prop := ∃ p : Pipeline, p.IsWritten cs ∧ p.Means t

def parsePiped (cs : List Char) : Except Failure (Expr Placeholder) :=
  match desugar cs with
  | .error f => .error (.fault f)
  | .ok text => parse text

/-- Only well-formed pipelines are accepted, and others are refused as faults. -/
structure RefusesMalformed (cs : List Char) : Prop where
  accepted : ∀ t, parsePiped cs = .ok t → WellFormed cs t
  refused : (¬ ∃ t, WellFormed cs t) → ∃ f, parsePiped cs = .error (.fault f)

/-- A text is accepted with a part that reaches across what it is put between. -/
def Misread (cs : List Char) : Prop := ∃ p t, Pipeline.read cs = .ok p ∧ p.straddles = true ∧ parsePiped cs = .ok t

/-- A text has a numeral that cannot be converted, and what is before it starts an expression. -/
def Oversized (cs : List Char) : Prop :=
  ∃ text ts, desugar cs = .ok text ∧ tokenize text = .ok ts ∧ Overflows (lexemes ts)

theorem parsePiped_oversized_iff : parsePiped cs = .error .oversizedNumber ↔ Oversized cs := by
  unfold parsePiped Oversized
  split
  · rename_i f hf
    rw [hf]
    simp
  · rename_i text htext
    rw [htext, parse_oversized_iff]
    simp

theorem parsePiped_eq (h : 2 ≤ (splitPipes cs).length) (hp : Pipeline.read cs = .ok p) :
    parsePiped cs = parse p.text := by
  unfold parsePiped
  rw [desugar_eq h, hp]
  rfl

theorem WellFormed.parsePiped (hcs : WellFormed cs t) (h : 2 ≤ (splitPipes cs).length) : parsePiped cs = .ok t := by
  obtain ⟨p, hwritten, hmeans⟩ := hcs
  rw [parsePiped_eq h (hmeans.read hwritten)]
  exact (Pipeline.parse_text_iff hmeans.straddles_eq_false hwritten.isNamed (hwritten.formatters_ne_nil h)).2 hmeans

theorem wellFormed_of_parsePiped (h : 2 ≤ (splitPipes cs).length) (ht : parsePiped cs = .ok t)
    (hread : ¬ Misread cs) : WellFormed cs t := by
  rcases hp : Pipeline.read cs with f | p
  · unfold Surface.parsePiped at ht
    rw [desugar_eq h, hp] at ht
    cases ht
  · have hstraddles : p.straddles = false := by
      rw [← Bool.not_eq_true]
      exact fun hstraddles => hread ⟨p, t, hp, hstraddles, ht⟩
    have hwritten := Pipeline.isWritten_of_read hp
    rw [parsePiped_eq h hp, Pipeline.parse_text_iff hstraddles hwritten.isNamed (hwritten.formatters_ne_nil h)] at ht
    exact ⟨p, hwritten, ht⟩

theorem not_wellFormed_of_straddles (hp : Pipeline.read cs = .ok p) (hstraddles : p.straddles = true) :
    ¬ WellFormed cs t := by
  rintro ⟨q, hwritten, hmeans⟩
  rw [hmeans.read hwritten] at hp
  cases hp
  rw [hmeans.straddles_eq_false] at hstraddles
  cases hstraddles

/-- Malformed pipelines are refused exactly if no part reaches across what it is put between and yet the whole is
accepted, and no numeral is too long. Well-formed ones are accepted as what they mean. -/
theorem refusesMalformed_iff (h : 2 ≤ (splitPipes cs).length) :
    (RefusesMalformed cs ↔ ¬ Misread cs ∧ ¬ Oversized cs) ∧ ∀ t, WellFormed cs t → parsePiped cs = .ok t := by
  refine ⟨⟨fun hcs => ⟨?_, ?_⟩, fun ⟨hread, hsize⟩ => ⟨fun t ht => ?_, fun hcs => ?_⟩⟩, fun t ht => ht.parsePiped h⟩
  · rintro ⟨p, t, hp, hstraddles, ht⟩
    exact not_wellFormed_of_straddles hp hstraddles (hcs.accepted t ht)
  · rw [← parsePiped_oversized_iff]
    intro hsize
    have hnone : ¬ ∃ t, WellFormed cs t := by
      rintro ⟨t, ht⟩
      rw [ht.parsePiped h] at hsize
      cases hsize
    obtain ⟨f, hf⟩ := hcs.refused hnone
    rw [hf] at hsize
    cases hsize
  · exact wellFormed_of_parsePiped h ht hread
  · rcases hresult : parsePiped cs with (f | _) | t
    · exact ⟨f, rfl⟩
    · exact absurd (parsePiped_oversized_iff.1 hresult) hsize
    · exact absurd ⟨t, wellFormed_of_parsePiped h hresult hread⟩ hcs

section Straddling

/-- A formatter's argument that closes the parenthesis it stands in and opens another. -/
def straddling : List Char := "a | f(b)(c)".toList

def straddlingParts : Pipeline := ⟨none, ['a'], [⟨['f'], ["b)(c".toList]⟩]⟩

theorem read_straddling : Pipeline.read straddling = .ok straddlingParts := rfl

def straddlingTree : Expr Placeholder :=
  .call (.call (.member (.member (.name "_formatters_") "f") "call") [.this, .name "a", .name "b"]) [.name "c"]

def straddlingLexemes : List Lexeme :=
  [.name "_formatters_".toList, .symbol .dot, .name ['f'], .symbol .dot, .name "call".toList, .symbol .openParen,
    .name "this".toList, .symbol .comma, .name ['a'], .symbol .comma, .name ['b'], .symbol .closeParen,
    .symbol .openParen, .name ['c'], .symbol .closeParen]

theorem lexes_straddling : Lexes straddlingParts.text straddlingLexemes := by
  have htokens : (tokenize straddlingParts.text).map lexemes = .ok straddlingLexemes := by decide +kernel
  rcases hts : tokenize straddlingParts.text with f | ts <;> rw [hts] at htokens
  · cases htokens
  · rw [← Except.ok.inj htokens]
    exact lexes_of_tokensFrom hts

theorem derives_straddling : Derives .assign straddlingLexemes straddlingTree := by
  obtain ⟨items, hitems, hy, hm⟩ := exists_items_of_forall₂ (.cons (@derives_name "this".toList (by decide))
    (.cons (@derives_name ['a'] (by decide)) (.cons (@derives_name ['b'] (by decide)) .nil)))
  obtain ⟨items', hitems', hy', hm'⟩ := exists_items_of_forall₂ (.cons (@derives_name ['c'] (by decide)) .nil)
  refine derives_unary ⟨.chain (.name "_formatters_".toList (by decide))
    (.member ['f'] (.member "call".toList (.call items (.call items' .linked)))), ?_, ?_, ?_⟩
  · simpa [Derivation.Valid] using ⟨hitems, hitems'⟩
  · simp [straddlingLexemes, hy, hy', List.intercalate]
  · change Expr.call (Expr.call _ items.meaning) items'.meaning = _
    rw [hm, hm']
    rfl

theorem parsePiped_straddling_ok : parsePiped straddling = .ok straddlingTree := by
  have hfit : Fit straddlingLexemes := by unfold Fit; decide
  rw [parsePiped_eq (by decide) read_straddling, parse_eq_ok_iff]
  exact ⟨_, lexes_straddling, hfit, derives_straddling⟩

theorem parsePiped_straddling : (∀ t, ¬ WellFormed straddling t) ∧ parsePiped straddling = .ok straddlingTree :=
  ⟨fun _ => not_wellFormed_of_straddles read_straddling (by decide +kernel), parsePiped_straddling_ok⟩

theorem not_refusesMalformed_straddling : 2 ≤ (splitPipes straddling).length ∧ ¬ RefusesMalformed straddling := by
  have hpipes : 2 ≤ (splitPipes straddling).length := by decide +kernel
  refine ⟨hpipes, fun h => ?_⟩
  exact ((refusesMalformed_iff hpipes).1.1 h).1 ⟨_, _, read_straddling, by decide +kernel, parsePiped_straddling_ok⟩

end Straddling

end Malformed

end NullSafe.Surface
