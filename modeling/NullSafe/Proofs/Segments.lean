import NullSafe.Proofs.Splitting

/-! # Formatters between pipes

The text between two pipes is read as a formatter if it is written as one: a name, and between parentheses the
arguments. Arguments that are expressions are found again, because their brackets are closed and they have no comma
outside of them.
-/

namespace NullSafe.Surface

open Text List

section Commas

variable {cs : List Char}

theorem exists_trim (cs : List Char) : ∃ pre post, cs = pre ++ (trim cs ++ post) ∧ Blank pre ∧ Blank post := by
  refine ⟨cs.takeWhile isBlank, ((trimLeft cs).reverse.takeWhile isBlank).reverse, ?_,
    fun c hc => mem_takeWhile_imp hc, fun c hc => mem_takeWhile_imp (mem_reverse.1 hc)⟩
  rw [trim, trimRight, ← reverse_append, takeWhile_append_dropWhile, reverse_reverse, trimLeft,
    takeWhile_append_dropWhile]

/-- A text that can be an argument: it is not empty, its brackets are closed, and no comma is outside of them. -/
structure IsArgument (cs : List Char) : Prop where
  ne_nil : cs ≠ []
  level : depthOf cs = 0
  commas : (splitFrom ',' 0 none cs).2 = []

theorem parse_nil_ne (v : Expr Placeholder) : parse [] ≠ .ok v := by
  intro h
  obtain ⟨ls, hls, -, d, -, rfl, -⟩ := parse_eq_ok_iff.1 h
  exact yield_ne_nil d (lexes_nil_iff.1 hls)

theorem isArgument_of_parse {v : Expr Placeholder} (h : parse cs = .ok v) : IsArgument cs := by
  obtain ⟨ls, hls, -, d, -, rfl, -⟩ := parse_eq_ok_iff.1 h
  obtain ⟨hlevel, hcommas⟩ := hls.splitFrom_comma d.closed_yield none
  exact ⟨by rintro rfl; exact parse_nil_ne v h, by simpa using hlevel, hcommas⟩

theorem splitFrom_comma_before (depth : Int) (before : Option Char) (cs : List Char) :
    splitFrom ',' depth before cs = splitFrom ',' depth none cs := by
  cases cs with
  | nil => rfl
  | cons c rest => rfl

theorem blank_of_isBlank {xs : List Char} (h : Blank xs) : ',' ∉ xs ∧ depthOf xs = 0 := by
  have hinert : ∀ c ∈ xs, isInert c = true := fun c hc => isInert_of_isBlank (h c hc)
  exact ⟨not_mem_of_isInert hinert (by decide), depthOf_of_isInert hinert⟩

theorem IsArgument.splitFrom (h : IsArgument (trim cs)) (rest : List Char) :
    splitFrom ',' 0 none (cs ++ rest) = prepend cs (splitFrom ',' 0 none rest) := by
  obtain ⟨pre, post, hcs, hpre, hpost⟩ := exists_trim cs
  have hcommas : (Surface.splitFrom ',' 0 none cs).2 = [] ∧ depthOf cs = 0 := by
    generalize trim cs = a at hcs h
    obtain ⟨hpre, hpre'⟩ := blank_of_isBlank hpre
    obtain ⟨hpost, hpost'⟩ := blank_of_isBlank hpost
    rw [hcs, splitFrom_pass hpre hpre', splitFrom_comma_before, splitFrom_append h.commas, h.level,
      splitFrom_of_not_mem hpost]
    exact ⟨rfl, by simp [hpre', h.level, hpost']⟩
  rw [splitFrom_append hcommas.1, hcommas.2, splitFrom_comma_before]
  rfl

theorem splitTop_intercalate {raws : List (List Char)} (hne : raws ≠ [])
    (h : ∀ raw ∈ raws, IsArgument (trim raw)) : splitTop ',' (List.intercalate [','] raws) = raws := by
  have hcons : ∀ cs, splitTop ',' cs = (splitFrom ',' 0 none cs).1 :: (splitFrom ',' 0 none cs).2 := fun _ => rfl
  rw [hcons]
  induction raws with
  | nil => exact absurd rfl hne
  | cons raw raws ih =>
    obtain ⟨hraw, hraws⟩ := forall_mem_cons.1 h
    rcases raws with _ | ⟨raw', raws⟩
    · have hsplit := hraw.splitFrom []
      rw [append_nil] at hsplit
      rw [intercalate_singleton, hsplit]
      simp [prepend, splitFrom]
    · have hrest := ih (cons_ne_nil _ _) hraws
      have hcomma : ∀ rest, splitFrom ',' 0 none (',' :: rest) =
          ([], (splitFrom ',' 0 none rest).1 :: (splitFrom ',' 0 none rest).2) := by
        intro rest
        rw [splitFrom, splitFrom_comma_before]
        rfl
      rw [intercalate_cons_cons, append_assoc, hraw.splitFrom, singleton_append, hcomma]
      simp only [prepend, append_nil, hrest]

theorem eq_nil_of_trim {raws : List (List Char)} (hblank : trim (List.intercalate [','] raws) = [])
    (h : ∀ raw ∈ raws, IsArgument (trim raw)) : raws = [] := by
  by_contra hne
  have hsplit := splitTop_intercalate hne h
  obtain ⟨pre, post, hinner, hpre, hpost⟩ := exists_trim (List.intercalate [','] raws)
  rw [hblank, nil_append] at hinner
  -- a blank text is one part
  have hone : splitTop ',' (List.intercalate [','] raws) = [List.intercalate [','] raws] := by
    have hmem : ',' ∉ List.intercalate [','] raws := by
      rw [hinner, mem_append, not_or]
      exact ⟨(blank_of_isBlank hpre).1, (blank_of_isBlank hpost).1⟩
    rw [splitTop, splitFrom_of_not_mem hmem]
  have hmem : List.intercalate [','] raws ∈ raws := by
    have hself := mem_singleton_self (List.intercalate [','] raws)
    rwa [← hone, hsplit] at hself
  exact (h _ hmem).ne_nil hblank

end Commas

section Segments

variable {segment : List Char}

theorem le_toNat_of_isWord {c : Char} (hc : isWord c = true) (hrest : isNameRest c = false) : 0x80 ≤ c.toNat := by
  rw [isWord] at hc
  split at hc
  · simp only [isNameRest, isAsciiWord, Bool.or_eq_false_iff, Bool.or_eq_true, beq_iff_eq,
      decide_eq_false_iff_not] at hc hrest
    rcases hc with hc | hc
    · rw [hc] at hrest
      cases hrest.1.1
    · exact absurd hc hrest.1.2
  · omega

theorem toNat_of_isAsciiWord {c : Char} (h : isAsciiWord c = true) : 0x30 ≤ c.toNat := by
  simp only [isAsciiWord, Bool.or_eq_true, beq_iff_eq] at h
  rcases h with h | rfl
  · exact (toNat_of_isAlphanum h).1
  · decide

theorem isBlank_eq_false_of_isWord {c : Char} (hc : isWord c = true) : isBlank c = false := by
  have hlow : ∀ r ∈ blankRanges, r.2 < 0x30 ∨ 0x80 ≤ r.1 := by decide
  have hdisjoint : ∀ r ∈ blankRanges, ∀ w ∈ wordRanges, r.2 < w.1 ∨ w.2 < r.1 := by decide +kernel
  rw [isBlank, Ranges.mem, any_eq_false]
  intro r hr hblank
  simp only [Bool.and_eq_true, decide_eq_true_eq] at hblank
  rw [isWord] at hc
  split at hc
  · have hascii := toNat_of_isAsciiWord hc
    have := hlow r hr
    omega
  · rw [Ranges.mem, any_eq_true] at hc
    obtain ⟨w, hw, hmem⟩ := hc
    have := hdisjoint r hr w hw
    simp only [Bool.and_eq_true, decide_eq_true_eq] at hmem
    omega

/-- A formatter's name as it can be read: a name, except that it may hold the word characters of every script. -/
def Formatter.IsNamed (f : Formatter) : Prop :=
  f.name.head?.any isFormatterStart = true ∧ ∀ c ∈ f.name, isWord c = true ∨ c = '$'

/-- A text is a formatter: its name, and its arguments between parentheses, with blanks around each of them. -/
def Formatter.IsWritten (f : Formatter) (segment : List Char) : Prop :=
  ∃ gap, gap.all isBlank = true ∧
    ((f.arguments = [] ∧ trim segment = f.name ++ gap) ∨
      ∃ inner, trim segment = f.name ++ gap ++ '(' :: (inner ++ [')']) ∧
        ((f.arguments = [] ∧ trim inner = []) ∨
          ∃ raws, inner = List.intercalate [','] raws ∧ raws.map trim = f.arguments))

theorem intercalate_splitFrom (sep : Char) (depth : Int) (before : Option Char) (cs : List Char) :
    List.intercalate [sep] ((splitFrom sep depth before cs).1 :: (splitFrom sep depth before cs).2) = cs := by
  have hjoin : ∀ (part : List Char) (parts : List (List Char)),
      List.intercalate [sep] (part :: parts) = part ++ parts.flatMap (sep :: ·) := by
    intro part parts
    induction parts generalizing part with
    | nil => simp
    | cons next parts ih => simp [intercalate_cons_cons, ih]
  rw [hjoin, Literal.splitFrom_text]

theorem splitSegment?_eq_some {name : List Char} {inner : Option (List Char)}
    (h : splitSegment? segment = some (name, inner)) :
    (name.head?.any isFormatterStart = true ∧ ∀ c ∈ name, isWord c = true ∨ c = '$') ∧
      ∃ gap, gap.all isBlank = true ∧
        trim segment = name ++ gap ++ inner.elim [] fun inner => '(' :: (inner ++ [')']) := by
  unfold splitSegment? at h
  dsimp only at h
  split at h
  · rename_i hstart
    have hwords : ∀ c ∈ (trim segment).takeWhile fun c => isWord c || c = '$', isWord c = true ∨ c = '$' := by
      intro c hc
      simpa using mem_takeWhile_imp hc
    have hgap : (((trim segment).dropWhile fun c => isWord c || c = '$').takeWhile isBlank).all isBlank = true :=
      all_eq_true.2 fun c hc => mem_takeWhile_imp hc
    -- the name, the blanks after it, and the rest
    have hsplit : trim segment = ((trim segment).takeWhile fun c => isWord c || c = '$') ++
        (((trim segment).dropWhile fun c => isWord c || c = '$').takeWhile isBlank) ++
        trimLeft ((trim segment).dropWhile fun c => isWord c || c = '$') := by
      rw [trimLeft, append_assoc, takeWhile_append_dropWhile, takeWhile_append_dropWhile]
    split at h
    · rename_i hrest
      cases h
      rw [hrest] at hsplit
      exact ⟨⟨hstart, hwords⟩, _, hgap, hsplit⟩
    · rename_i rest hrest
      split at h
      · rename_i hlast
        cases h
        rw [hrest, ← dropLast_append_getLast? ')' hlast] at hsplit
        exact ⟨⟨hstart, hwords⟩, _, hgap, hsplit⟩
      · cases h
    · cases h
  · cases h

theorem splitSegment?_of_eq {name gap : List Char} {inner : Option (List Char)}
    (hstart : name.head?.any isFormatterStart = true) (hname : ∀ c ∈ name, isWord c = true ∨ c = '$')
    (hgap : gap.all isBlank = true)
    (h : trim segment = name ++ gap ++ inner.elim [] fun inner => '(' :: (inner ++ [')'])) :
    splitSegment? segment = some (name, inner) := by
  have hall : ∀ c ∈ name, (isWord c || decide (c = '$')) = true := fun c hc => by simpa using hname c hc
  have hblank : ∀ c, isBlank c = true → (isWord c || decide (c = '$')) = false := by
    intro c hc
    rw [Bool.or_eq_false_iff]
    constructor
    · by_contra hword
      rw [isBlank_eq_false_of_isWord (Bool.not_eq_false _ ▸ hword)] at hc
      cases hc
    · rw [decide_eq_false_iff_not]
      rintro rfl
      exact absurd hc (by decide)
  rw [append_assoc] at h
  -- what follows the name is a blank, a parenthesis or nothing
  have hhead : ∀ c ∈ (gap ++ inner.elim [] fun inner => '(' :: (inner ++ [')'])).head?,
      (isWord c || decide (c = '$')) = false := by
    rcases gap with _ | ⟨x, gap⟩
    · rcases inner with _ | inner
      · exact nofun
      · rintro c ⟨⟩
        decide
    · rintro c ⟨⟩
      exact hblank x (all_eq_true.1 hgap x (.head _))
  obtain ⟨htake, hdrop⟩ := span_append hall hhead
  have hskip : trimLeft (gap ++ inner.elim [] fun inner => '(' :: (inner ++ [')'])) =
      inner.elim [] fun inner => '(' :: (inner ++ [')']) := by
    refine (span_append (all_eq_true.1 hgap) ?_).2
    rcases inner with _ | inner
    · exact nofun
    · rintro c ⟨⟩
      decide
  unfold splitSegment?
  dsimp only
  rw [h, htake, hdrop, hskip, if_pos hstart]
  rcases inner with _ | inner
  · rfl
  · simp

theorem readFormatter_of_isWritten {f : Formatter} (hf : f.IsNamed) (h : f.IsWritten segment)
    (hargs : ∀ a ∈ f.arguments, IsArgument a) : readFormatter segment = .ok f := by
  obtain ⟨hstart, hname⟩ := hf
  obtain ⟨gap, hgap, ⟨hnone, htrim⟩ | ⟨inner, htrim, harguments⟩⟩ := h
  · have hsplit : splitSegment? segment = some (f.name, none) :=
      splitSegment?_of_eq hstart hname hgap (htrim.trans (append_nil _).symm)
    unfold readFormatter
    rw [hsplit]
    dsimp only
    rw [← hnone]
  · have hsplit : splitSegment? segment = some (f.name, some inner) := splitSegment?_of_eq hstart hname hgap htrim
    -- between the parentheses there are only blanks exactly if there are no arguments
    have hnone : trim inner = [] → f.arguments = [] := by
      intro hnil
      obtain ⟨hnone, -⟩ | ⟨raws, rfl, hraws⟩ := harguments
      · exact hnone
      · rw [← hraws, eq_nil_of_trim hnil fun raw hraw => hargs _ (hraws ▸ mem_map_of_mem hraw)]
        rfl
    unfold readFormatter
    rw [hsplit]
    dsimp only
    split
    · rename_i hempty
      rw [← hnone (List.isEmpty_iff.1 hempty)]
    · rename_i hempty
      obtain ⟨-, hnil⟩ | ⟨raws, rfl, hraws⟩ := harguments
      · exact absurd (List.isEmpty_iff.2 hnil) hempty
      have hne : raws ≠ [] := by
        rintro rfl
        exact hempty rfl
      have hparts : (splitTop ',' (List.intercalate [','] raws)).map trim = f.arguments := by
        rw [splitTop_intercalate hne fun raw hraw => hargs _ (hraws ▸ mem_map_of_mem hraw), hraws]
      have hfull : ¬ f.arguments.any List.isEmpty = true := by
        rw [any_eq_true]
        rintro ⟨a, ha, hnil⟩
        exact (hargs a ha).ne_nil (List.isEmpty_iff.1 hnil)
      rw [hparts]
      exact if_neg hfull

theorem readFormatter_eq_ok {f : Formatter} (h : readFormatter segment = .ok f) : f.IsNamed ∧ f.IsWritten segment := by
  unfold readFormatter at h
  split at h
  · cases h
  · rename_i name hsegment
    cases h
    obtain ⟨hname, gap, hgap, htrim⟩ := splitSegment?_eq_some hsegment
    exact ⟨hname, gap, hgap, .inl ⟨rfl, htrim.trans (append_nil _)⟩⟩
  · rename_i name inner hsegment
    obtain ⟨hname, gap, hgap, htrim⟩ := splitSegment?_eq_some hsegment
    split at h
    · rename_i hempty
      cases h
      exact ⟨hname, gap, hgap, .inr ⟨inner, htrim, .inl ⟨rfl, List.isEmpty_iff.1 hempty⟩⟩⟩
    · dsimp only at h
      split at h
      · cases h
      · cases h
        exact ⟨hname, gap, hgap, .inr ⟨inner, htrim, .inr ⟨_, (intercalate_splitFrom ..).symm, rfl⟩⟩⟩

end Segments

end NullSafe.Surface
