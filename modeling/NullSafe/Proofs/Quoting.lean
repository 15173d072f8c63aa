import NullSafe.Proofs.Programs

/-! # String literals are taken as they are

A text between quotes, with the quote and the backslash escaped, is one literal whatever the text is. It denotes the
text, the generated code spells it on one line, and the spelling denotes the text again.
-/

namespace NullSafe

open Surface List

namespace Literal

/-- What may stand between two quotes: any character but the quote, and whatever a backslash precedes. -/
inductive Enclosed (quote : Char) : List Char → Prop where
  | nil : Enclosed quote []
  | plain {c cs} (hquote : c ≠ quote) (hslash : c ≠ '\\') (h : Enclosed quote cs) : Enclosed quote (c :: cs)
  | escaped {c cs} (h : Enclosed quote cs) : Enclosed quote ('\\' :: c :: cs)

theorem Enclosed.append {quote : Char} {cs ds : List Char} (hcs : Enclosed quote cs) (hds : Enclosed quote ds) :
    Enclosed quote (cs ++ ds) := by
  induction hcs with
  | nil => exact hds
  | plain hquote hslash _ ih => exact .plain hquote hslash ih
  | escaped _ ih => exact .escaped ih

theorem Enclosed.closeString {quote : Char} {cs : List Char} (h : Enclosed quote cs) (hquote : quote ≠ '\\')
    (rest : List Char) : closeString quote (cs ++ quote :: rest) = some (cs ++ [quote], rest) := by
  induction h with
  | nil =>
    rw [nil_append, Literal.closeString.eq_3 _ _ _ fun _ _ h _ => hquote h, if_pos rfl]
    rfl
  | plain hne hslash _ ih =>
    rw [cons_append, Literal.closeString.eq_3 _ _ _ fun _ _ h _ => hslash h, if_neg hne, if_neg hslash, ih]
    rfl
  | escaped _ ih =>
    rw [cons_append, cons_append, Literal.closeString, ih]
    rfl

/-- A backslash before a character that starts no numeric escape and ends no line. -/
theorem units_backslash {c : Char} {rest : List Char} (hnumeric : numericEscape? (c :: rest) = none)
    (hline : isLineEnd c = false) : units ('\\' :: c :: rest) = .code (simpleEscape c) :: units rest := by
  have hreturn : c ≠ '\r' := by
    rintro rfl
    exact absurd hline (by decide)
  rw [units]
  split
  · rename_i h
    rw [hnumeric] at h
    cases h
  · rw [if_neg (by simp [hreturn]), if_neg (by simp [hline])]

end Literal

namespace Text

section Hexadecimal

theorem alphaDigitValue?_digitChar {d : Nat} (h : d < 16) : alphaDigitValue? d.digitChar = some d := by
  revert d
  decide

theorem ofDigits_concat (base d : Nat) (ds : List Nat) : ofDigits base (ds ++ [d]) = ofDigits base ds * base + d := by
  rw [ofDigits, foldl_append]
  rfl

theorem ofHex_concat {d : Nat} (h : d < 16) (cs : List Char) : ofHex (cs ++ [d.digitChar]) = ofHex cs * 16 + d := by
  rw [ofHex, filterMap_append, filterMap_cons_some (alphaDigitValue?_digitChar h)]
  exact ofDigits_concat 16 d _

theorem ofHex_zeros (k : Nat) : ofHex (List.replicate k '0') = 0 := by
  induction k with
  | zero => rfl
  | succ k ih =>
    rw [replicate_succ', show '0' = Nat.digitChar 0 from rfl, ofHex_concat (by decide)]
    rw [show Nat.digitChar 0 = '0' from rfl, ih]

theorem ofHex_zeros_toDigits (k n : Nat) : ofHex (List.replicate k '0' ++ Nat.toDigits 16 n) = n := by
  induction n using Nat.strongRecOn with
  | ind n ih =>
    rw [Nat.toDigits_eq_if (by decide)]
    split
    · rename_i hn
      rw [ofHex_concat hn, ofHex_zeros, Nat.zero_mul, Nat.zero_add]
    · rw [← append_assoc, ofHex_concat (Nat.mod_lt _ (by decide)), ih _ (Nat.div_lt_self (by omega) (by decide))]
      omega

theorem ofHex_hexDigits (width n : Nat) : ofHex (hexDigits width n) = n := ofHex_zeros_toDigits _ n

theorem isHexDigit_of_mem_toDigits {n : Nat} {c : Char} (h : c ∈ Nat.toDigits 16 n) : isHexDigit c = true := by
  have hdigit : ∀ d < 16, isHexDigit d.digitChar = true := by decide
  induction n using Nat.strongRecOn with
  | ind n ih =>
    rw [Nat.toDigits_eq_if (by decide)] at h
    split at h
    · rename_i hn
      rw [mem_singleton.1 h]
      exact hdigit n hn
    · rcases mem_append.1 h with h | h
      · exact ih _ (Nat.div_lt_self (by omega) (by decide)) h
      · rw [mem_singleton.1 h]
        exact hdigit _ (Nat.mod_lt _ (by decide))

theorem isHexDigit_of_mem_hexDigits {width n : Nat} {c : Char} (h : c ∈ hexDigits width n) : isHexDigit c = true := by
  rcases mem_append.1 h with h | h
  · rw [eq_of_mem_replicate h]
    decide
  · exact isHexDigit_of_mem_toDigits h

theorem length_hexDigits {width n : Nat} (hwidth : 0 < width) (hn : n < Nat.pow 16 width) :
    (hexDigits width n).length = width := by
  have hle := (Nat.length_toDigits_le_iff (by decide) hwidth).2 hn
  rw [hexDigits, length_append, length_replicate]
  omega

end Hexadecimal

/-- The characters that stand for another one behind a backslash. -/
def letterEscapes : List (Char × Nat) :=
  [('\\', 0x5C), ('\x27', 0x27), ('"', 0x22), ('t', 0x09), ('n', 0x0A), ('r', 0x0D)]

/-- The letters of escapes by number, and how many digits follow them. -/
def numberEscapes : List (Char × Nat) := [('x', 2), ('u', 4), ('U', 8)]

/-- What the text between two quotes of the generated language denotes: a printable character stands for itself,
and every other code point is escaped. -/
inductive Spells (quote : Char) : List Char → List Nat → Prop where
  | nil : Spells quote [] []
  | plain {c cs ns} (hprintable : isPrintable c.toNat = true) (hquote : c ≠ quote) (hslash : c ≠ '\\')
      (h : Spells quote cs ns) : Spells quote (c :: cs) (c.toNat :: ns)
  | letter {e cs ns} (he : e ∈ letterEscapes) (h : Spells quote cs ns) : Spells quote ('\\' :: e.1 :: cs) (e.2 :: ns)
  | number {e hex cs ns} (he : e ∈ numberEscapes) (hlength : hex.length = e.2) (hhex : ∀ c ∈ hex, isHexDigit c = true)
      (h : Spells quote cs ns) : Spells quote ('\\' :: e.1 :: (hex ++ cs)) (ofHex hex :: ns)

/-- A text of the generated language that denotes code points: their spelling between quotes, on one line. -/
def Denotes (text : List Char) (ns : List Nat) : Prop :=
  ∃ quote body, (quote = '\x27' ∨ quote = '"') ∧ text = quote :: (body ++ [quote]) ∧ Spells quote body ns

section Spelling

variable {quote : Char} {cs : List Char} {ns : List Nat} {n : Nat}

theorem Spells.enclosed (hquote : quote = '\x27' ∨ quote = '"') (h : Spells quote cs ns) :
    Literal.Enclosed quote cs := by
  have hhex : ∀ hex : List Char, (∀ c ∈ hex, isHexDigit c = true) → Literal.Enclosed quote hex := by
    intro hex hall
    induction hex with
    | nil => exact .nil
    | cons c hex ih =>
      obtain ⟨hc, hhex⟩ := forall_mem_cons.1 hall
      refine .plain ?_ ?_ (ih hhex)
      · rintro rfl
        rcases hquote with rfl | rfl <;> exact absurd hc (by decide)
      · rintro rfl
        exact absurd hc (by decide)
  induction h with
  | nil => exact .nil
  | plain _ hne hslash _ ih => exact .plain hne hslash ih
  | letter _ _ ih => exact .escaped ih
  | number _ _ hall _ ih => exact .escaped ((hhex _ hall).append ih)

theorem Spells.ne_newline (h : Spells quote cs ns) : ∀ c ∈ cs, c ≠ '\n' := by
  have hletter : ∀ e ∈ letterEscapes, e.1 ≠ '\n' := by decide
  have hnumber : ∀ e ∈ numberEscapes, e.1 ≠ '\n' := by decide
  induction h with
  | nil => nofun
  | plain hprintable _ _ _ ih =>
    refine forall_mem_cons.2 ⟨?_, ih⟩
    rintro rfl
    exact absurd hprintable (by decide)
  | letter he _ ih => exact forall_mem_cons.2 ⟨by decide, forall_mem_cons.2 ⟨hletter _ he, ih⟩⟩
  | number he _ hall _ ih =>
    refine forall_mem_cons.2 ⟨by decide, forall_mem_cons.2 ⟨hnumber _ he, ?_⟩⟩
    refine forall_mem_append.2 ⟨fun c hc => ?_, ih⟩
    rintro rfl
    exact absurd (hall _ hc) (by decide)

theorem isValidChar_of_isPrintable (hn : n < 0x110000) (h : isPrintable n = true) : n.isValidChar := by
  by_cases hlow : n < 0xD800
  · exact .inl hlow
  · refine .inr ⟨?_, hn⟩
    have hapart : ∀ r ∈ wordRanges ++ attachedRanges ++ signRanges, r.2 < 0xD800 ∨ 0xDFFF < r.1 := by decide +kernel
    simp only [isPrintable, if_neg (show ¬ n < 0x80 by omega), Ranges.mem, ← any_append, any_eq_true] at h
    obtain ⟨r, hr, hn⟩ := h
    simp only [Bool.and_eq_true, decide_eq_true_eq] at hn
    have := hapart r hr
    omega

theorem Spells.escapeCode (hquote : quote = '\x27' ∨ quote = '"') (hn : n < 0x110000) (h : Spells quote cs ns) :
    Spells quote (escapeCode quote n ++ cs) (n :: ns) := by
  have hletter : ∀ e ∈ letterEscapes, n = e.2 → Spells quote (['\\', e.1] ++ cs) (n :: ns) := by
    rintro e he rfl
    exact .letter he h
  have hnumber : ∀ e ∈ numberEscapes, 0 < e.2 → n < 16 ^ e.2 →
      Spells quote ('\\' :: e.1 :: hexDigits e.2 n ++ cs) (n :: ns) := by
    intro e he hpos hlt
    have hspells := Spells.number he (length_hexDigits hpos hlt) (fun _ => isHexDigit_of_mem_hexDigits) h
    rwa [ofHex_hexDigits] at hspells
  unfold Text.escapeCode
  simp only [beq_iff_eq, Bool.or_eq_true]
  split
  · rename_i hself
    rcases hself with rfl | rfl
    · rcases hquote with rfl | rfl
      · exact hletter ('\x27', 0x27) (by decide) rfl
      · exact hletter ('"', 0x22) (by decide) rfl
    · exact hletter ('\\', 0x5C) (by decide) rfl
  rename_i hself
  repeat' split
  · exact hletter ('t', 0x09) (by decide) ‹_›
  · exact hletter ('n', 0x0A) (by decide) ‹_›
  · exact hletter ('r', 0x0D) (by decide) ‹_›
  · rename_i hprintable
    have hcode : (Char.ofNat n).toNat = n := by
      have hvalid := isValidChar_of_isPrintable hn hprintable
      rw [show Char.ofNat n = Char.ofNatAux n hvalid from dif_pos hvalid]
      rfl
    have hne : Char.ofNat n ≠ quote := fun he => hself (.inl (by rw [← he, hcode]))
    have hslash : Char.ofNat n ≠ '\\' := fun he => hself (.inr (by rw [← hcode, he]; rfl))
    have hplain := Spells.plain (hcode.symm ▸ hprintable) hne hslash h
    rwa [hcode] at hplain
  · exact hnumber ('x', 2) (by decide) (by decide) ‹_›
  · exact hnumber ('u', 4) (by decide) (by decide) ‹_›
  · exact hnumber ('U', 8) (by decide) (by decide) (Nat.lt_trans hn (by decide))

theorem spells_flatMap (hquote : quote = '\x27' ∨ quote = '"') (hns : ∀ n ∈ ns, n < 0x110000) :
    Spells quote (ns.flatMap (Text.escapeCode quote)) ns := by
  induction ns with
  | nil => exact .nil
  | cons n ns ih =>
    obtain ⟨hn, hns⟩ := forall_mem_cons.1 hns
    exact .escapeCode hquote hn (ih hns)

theorem quoteFor_eq (ns : List Nat) : quoteFor ns = '\x27' ∨ quoteFor ns = '"' := by
  unfold quoteFor
  split
  · exact .inr rfl
  · exact .inl rfl

theorem denotes_quotedCodes (h : ∀ n ∈ ns, n < 0x110000) : Denotes (quotedCodes ns) ns :=
  ⟨quoteFor ns, _, quoteFor_eq ns, rfl, spells_flatMap (quoteFor_eq ns) h⟩

theorem toNat_lt (c : Char) : c.toNat < 0x110000 := by
  rcases c.valid with h | h
  · exact Nat.lt_trans h (by decide)
  · exact h.2

theorem lt_of_mem_codes (h : n ∈ codes cs) : n < 0x110000 := by
  obtain ⟨c, -, rfl⟩ := mem_map.1 h
  exact toNat_lt c

end Spelling

end Text

theorem denotes_quoted (s : String) : Text.Denotes (quoted s).toList (Text.codes s.toList) := by
  rw [quoted, String.toList_ofList]
  exact Text.denotes_quotedCodes fun _ => Text.lt_of_mem_codes

section StringLiterals

namespace Surface.Quote

def char : Quote → Char
  | single => '\x27'
  | double => '"'

/-- A text as it is written between quotes: a backslash precedes the quote and the backslash. -/
def escape (q : Quote) (cs : List Char) : List Char :=
  cs.flatMap fun c => if c = q.char || c = '\\' then ['\\', c] else [c]

def enclose (q : Quote) (s : String) : String := String.ofList (q.char :: (q.escape s.toList ++ [q.char]))

variable (q : Quote)

@[simp] theorem escape_nil : q.escape [] = [] := rfl

theorem escape_cons (c : Char) (cs : List Char) :
    q.escape (c :: cs) = (if c = q.char || c = '\\' then ['\\', c] else [c]) ++ q.escape cs := rfl

theorem toList_enclose (s : String) : (q.enclose s).toList = q.char :: (q.escape s.toList ++ [q.char]) :=
  String.toList_ofList

theorem enclosed_escape (cs : List Char) : Literal.Enclosed q.char (q.escape cs) := by
  induction cs with
  | nil => exact .nil
  | cons c cs ih =>
    rw [escape_cons]
    split
    · exact .escaped ih
    · rename_i h
      simp only [Bool.or_eq_true, decide_eq_true_eq, not_or] at h
      exact .plain h.1 h.2 ih

theorem units_escape (cs : List Char) : Literal.units (q.escape cs) = cs.map fun c => .code c.toNat := by
  induction cs with
  | nil => rw [Quote.escape, flatMap_nil, Literal.units, map_nil]
  | cons c cs ih =>
    rw [escape_cons]
    split
    · rename_i h
      have hc : c = '\x27' ∨ c = '"' ∨ c = '\\' := by
        simp only [Bool.or_eq_true, decide_eq_true_eq] at h
        rcases h with rfl | rfl
        · cases q <;> simp [char]
        · simp
      rw [cons_append, cons_append, nil_append, Literal.units_backslash, ih]
      · rcases hc with rfl | rfl | rfl <;> rfl
      · rcases hc with rfl | rfl | rfl <;> rfl
      · rcases hc with rfl | rfl | rfl <;> rfl
    · rename_i h
      simp only [Bool.or_eq_true, decide_eq_true_eq, not_or] at h
      rw [cons_append, nil_append, Literal.units.eq_3 _ _ fun _ _ he _ => h.2 he, ih]
      rfl

end Surface.Quote

namespace Literal

variable (q : Quote)

/-- A string literal is a literal as a whole, whatever its text is. -/
theorem pieces_enclose (s : String) : pieces (q.enclose s).toList = [.literal (q.enclose s).toList] := by
  have hread : readLiteral? none (q.enclose s).toList = some ((q.enclose s).toList, []) := by
    have hclose := (q.enclosed_escape s.toList).closeString (by cases q <;> decide) []
    have hquote : (q.char = '\x27' || q.char = '"') = true := by cases q <;> rfl
    rw [q.toList_enclose, readLiteral?, if_pos hquote, hclose]
    rfl
  rw [q.toList_enclose] at hread ⊢
  rw [pieces, piecesFrom]
  split
  · rename_i raw after h
    rw [hread] at h
    cases h
    rw [piecesFrom]
  · rename_i h
    rw [hread] at h
    cases h

theorem isolate_enclose (s : String) : isolate (q.enclose s).toList = q.chars := by
  rw [isolate, pieces_enclose, q.toList_enclose]
  cases q <;> rfl

theorem literals_enclose (s : String) : literals (q.enclose s).toList = [(q.enclose s).toList] := by
  rw [literals, pieces_enclose]
  rfl

theorem ofRaw_enclose (s : String) : ofRaw (q.enclose s).toList = .ok (.text (Text.codes s.toList)) := by
  have hcodes (cs : List Char) : (cs.map fun c => Unit.code c.toNat).mapM Unit.codePoint = .ok (Text.codes cs) := by
    induction cs with
    | nil => rfl
    | cons c cs ih =>
      rw [map_cons, mapM_cons, ih]
      rfl
  have hne : q.char ≠ '/' := by cases q <;> decide
  rw [q.toList_enclose, ofRaw.eq_2 _ fun _ h => hne (List.cons.inj h).1]
  rw [drop_one, tail_cons, dropLast_concat, unescape, q.units_escape, hcodes]
  rfl

end Literal

variable {functionName : String} {globals arguments : List String}

theorem Compile.bodyText_text (s : String) :
    Compile.bodyText false ⟨0, .literal (.literal (.text (Text.codes s.toList)))⟩ = "return " ++ quoted s := by
  rw [← String.toList_inj]
  simp [Compile.bodyText, Body.returning, Body.header, Code.chars, Code.print, Glyph.chars, Leaf.chars, Literal.render,
    quoted]

def Generated.ofText (functionName : String) (parameters : List String) (s : String) : Generated where
  program := ⟨functionName, parameters, ⟨0, .literal (.literal (.text (Text.codes s.toList)))⟩, false⟩
  source := "return " ++ quoted s

theorem Compile.run_enclose
    (hname : Compile.canDeclare functionName (Scope.ofNames globals arguments).parameters = true) (q : Quote)
    (s : String) : Compile.run functionName globals ⟨q.enclose s, arguments, false⟩ =
      .ok (.ofText functionName (Scope.ofNames globals arguments).parameters s) := by
  have hfill : (⟨0, .literal (.string q)⟩ : Body Placeholder).fill [(q.enclose s).toList] =
      .ok ⟨0, .literal (.literal (.text (Text.codes s.toList)))⟩ := by
    simp [Body.fill, Code.fill, Placeholder.fill, Literal.ofRaw_enclose]
  obtain ⟨hdeclare, hplain⟩ := Bool.and_eq_true_iff.1 hname
  rw [Compile.run]
  dsimp only
  rw [Literal.isolate_enclose, show analyse _ q.chars = _ from analyse_placeholder (.string q),
    Literal.literals_enclose]
  dsimp only
  rw [hfill]
  dsimp only
  rw [isBuildable, hdeclare, hplain, Generated.ofText, bodyText_text]
  rfl

/-- The literal of a text compiles to code that spells the text and evaluates to it, in every surrounding. -/
theorem Compile.run_enclose_returns (hrequest : Request.namesProblem? arguments = none)
    (hname : Compile.canDeclare functionName (Scope.ofNames globals arguments).parameters = true)
    (q : Quote) (s : String) :
    ∃ generated, Compile.run functionName globals ⟨q.enclose s, arguments, false⟩ = .ok generated ∧
      generated.source = "return " ++ quoted s ∧ Text.Denotes (quoted s).toList (Text.codes s.toList) ∧
      ∀ (host : Host) (this g fm : Value) (extra : List Value) (w : World), extra.length ≤ arguments.length →
        (generated.program.run host (this :: g :: fm :: extra)).outcome w = (.ok (.str s), w) := by
  refine ⟨_, Compile.run_enclose hname q s, rfl, denotes_quoted s, fun host this g fm extra w hextra => ?_⟩
  have hlength : (Scope.ofNames globals arguments).parameters.length = arguments.length := by
    rw [Scope.parameters_ofNames globals (Request.nodup_of_accepted hrequest), List.length_map]
  rw [Generated.ofText, Program.run, Program.maxDepth, Program.runWithin, Program.frame?]
  dsimp only
  rw [if_pos (hlength ▸ hextra)]
  have hvalue : String.ofList ((Text.codes s.toList).map Char.ofNat) = s := by
    rw [Text.codes, List.map_map, show Char.ofNat ∘ Char.toNat = id from funext Char.ofNat_toNat, List.map_id,
      String.ofList_toList]
  dsimp only
  rw [Code.eval, Leaf.eval, hvalue]
  rfl

/-- A text with quotes, brackets, a pipe, slashes, operators and line ends. -/
def hardText : String := "'\"\\\n | f(\x7b /x/ && _ref1 \u2028"

theorem Compile.run_enclose_returns_hardText :
    Request.namesProblem? ["b"] = none ∧ Compile.canDeclare "expression" (Scope.ofNames ["x"] ["b"]).parameters = true ∧
      ∃ generated, Compile.run "expression" ["x"] ⟨Quote.single.enclose hardText, ["b"], false⟩ = .ok generated ∧
        generated.source = "return '\\'\"\\\\\\n | f(\x7b /x/ && _ref1 \\u2028'" ∧
        ∀ w : World, (generated.program.run bareHost [.null, .null, .null, .null]).outcome w =
          (.ok (.str hardText), w) := by
  have hrequest : Request.namesProblem? ["b"] = none := by decide +kernel
  have hname : Compile.canDeclare "expression" (Scope.ofNames ["x"] ["b"]).parameters = true := by decide +kernel
  obtain ⟨generated, hrun, hsource, -, hvalue⟩ := Compile.run_enclose_returns hrequest hname .single hardText
  refine ⟨hrequest, hname, generated, hrun, hsource.trans (by decide +kernel), fun w => ?_⟩
  exact hvalue bareHost .null .null .null [.null] w (by decide)

end StringLiterals

end NullSafe
