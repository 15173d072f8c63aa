import NullSafe.Proofs.Delimiters
import NullSafe.Proofs.Pipelines

/-! # Pipelines as they are written

A pipeline is written as the text of its value, which may be assigned, and behind each pipe a formatter. Every part of
it that is an expression on its own is found again when the text is taken apart, and it is put into the text of nested
calls as it was written, without the blanks around it.
-/

namespace NullSafe.Surface

open Text List

section Blanks

variable {cs pre post : List Char} {ls : List Lexeme}

theorem head?_trimLeft : ∀ c ∈ (trimLeft cs).head?, isBlank c = false := by
  intro c hc
  have hhead := head?_dropWhile_not isBlank cs
  rw [show (cs.dropWhile isBlank).head? = some c from hc] at hhead
  simpa using hhead

theorem getLast?_trim (cs : List Char) : ∀ c ∈ (trim cs).getLast?, isBlank c = false := by
  intro c hc
  rw [trim, trimRight, getLast?_reverse] at hc
  exact head?_trimLeft c hc

theorem trimRight_append (cs : List Char) : trimRight cs ++ (cs.reverse.takeWhile isBlank).reverse = cs := by
  rw [trimRight, ← reverse_append, takeWhile_append_dropWhile, reverse_reverse]

theorem head?_trim (cs : List Char) : ∀ c ∈ (trim cs).head?, isBlank c = false := by
  intro c hc
  refine head?_trimLeft c (?_ : c ∈ (trimLeft cs).head?)
  rw [← trimRight_append (trimLeft cs), head?_append, show (trimRight (trimLeft cs)).head? = some c from hc]
  rfl

/-- Trimming takes away exactly the blanks around a text that neither starts nor ends with one. -/
theorem trim_append (hpre : Blank pre) (hpost : Blank post) (hne : cs ≠ [])
    (hfirst : ∀ c ∈ cs.head?, isBlank c = false) (hlast : ∀ c ∈ cs.getLast?, isBlank c = false) :
    trim (pre ++ (cs ++ post)) = cs := by
  have hleft : trimLeft (pre ++ (cs ++ post)) = cs ++ post := by
    refine (span_append hpre fun c hc => ?_).2
    rw [head?_append_of_ne_nil _ hne] at hc
    exact hfirst c hc
  have hright : (post.reverse ++ cs.reverse).dropWhile isBlank = cs.reverse := by
    refine (span_append (fun c hc => hpost c (mem_reverse.1 hc)) fun c hc => ?_).2
    rw [head?_reverse] at hc
    exact hlast c hc
  rw [trim, hleft, trimRight, reverse_append, hright, reverse_reverse]

theorem continuesWord_of_isBlank {c : Char} (h : isBlank c = true) : continuesWord c = false := by
  by_contra hword
  rw [Bool.not_eq_false, continuesWord, Bool.or_eq_true, decide_eq_true_eq] at hword
  rcases hword with hword | rfl
  · rw [isBlank_eq_false_of_isWord hword] at h
    cases h
  · exact absurd h (by decide)

theorem wordCanStart_of_isBlank {c : Char} (h : isBlank c = true) : wordCanStart (some c) = true := by
  have hpoint : c ≠ '.' := by
    rintro rfl
    exact absurd h (by decide)
  simp [wordCanStart, continuesWord_of_isBlank h, hpoint]

theorem replaceWordsFrom_blank {before : Option Char} (hpre : Blank pre)
    (hbefore : wordCanStart before = true) : replaceWordsFrom before (pre ++ cs) = pre ++ replaceWords cs := by
  induction pre generalizing before with
  | nil => exact replaceWordsFrom_congr hbefore cs
  | cons c pre ih =>
    obtain ⟨hc, hpre⟩ := forall_mem_cons.1 hpre
    rw [cons_append, replaceWordsFrom_cons (not_startsWord_of_ends (continuesWord_of_isBlank hc)),
      ih hpre (wordCanStart_of_isBlank hc)]
    rfl

theorem lexes_blank_append_iff (hpre : Blank pre) : Lexes (pre ++ cs) ls ↔ Lexes cs ls := by
  induction pre with
  | nil => rfl
  | cons c pre ih =>
    obtain ⟨hc, hpre⟩ := forall_mem_cons.1 hpre
    rw [cons_append, lexes_blank_iff hc, ih hpre]

theorem lexes_append_blank_iff (hpost : Blank post) : Lexes (cs ++ post) ls ↔ Lexes cs ls := by
  rcases post with _ | ⟨c, post⟩
  · rw [append_nil]
  have hnil : ∀ {ys}, Lexes (c :: post) ys ↔ ys = [] := fun {ys} => by
    rw [← append_nil (c :: post), lexes_blank_append_iff hpost, lexes_nil_iff]
  rw [lexes_append_cons_iff (by simp [isCut, hpost c (.head _)])]
  constructor
  · rintro ⟨xs, ys, hxs, hys, rfl⟩
    rw [hnil.1 hys, append_nil]
    exact hxs
  · exact fun h => ⟨ls, [], h, hnil.2 rfl, (append_nil _).symm⟩

theorem replaceWordsFrom_append_blank {before : Option Char} (hpost : Blank post) :
    replaceWordsFrom before (cs ++ post) = replaceWordsFrom before cs ++ post := by
  rcases post with _ | ⟨c, post⟩
  · rw [append_nil, append_nil]
  · obtain ⟨hc, hpost⟩ := forall_mem_cons.1 hpost
    have hrest : replaceWordsFrom (some c) (post ++ []) = post ++ replaceWords [] :=
      replaceWordsFrom_blank hpost (wordCanStart_of_isBlank hc)
    rw [append_nil, show replaceWords [] = [] from rfl, append_nil] at hrest
    rw [replaceWordsFrom_append_cons (continuesWord_of_isBlank hc), hrest]

theorem replaceWords_trim (cs : List Char) : ∃ pre post, replaceWords cs = pre ++ (replaceWords (trim cs) ++ post) ∧
    Blank pre ∧ Blank post := by
  obtain ⟨pre, post, hcs, hpre, hpost⟩ := exists_trim cs
  refine ⟨pre, post, ?_, hpre, hpost⟩
  generalize trim cs = a at hcs
  rw [hcs, replaceWords, replaceWordsFrom_blank hpre rfl, replaceWords, replaceWordsFrom_append_blank hpost,
    replaceWords]

theorem lexes_blanks_iff : Lexes (trim cs) ls ↔ Lexes cs ls := by
  obtain ⟨pre, post, hcs, hpre, hpost⟩ := exists_trim cs
  generalize trim cs = a at hcs ⊢
  rw [hcs, lexes_blank_append_iff hpre, lexes_append_blank_iff hpost]

theorem parse_blanks {v : Expr Placeholder} (h : parse cs = .ok v) : parse (trim cs) = .ok v := by
  obtain ⟨ls, hls, hfit, hv⟩ := parse_eq_ok_iff.1 h
  exact parse_eq_ok_iff.2 ⟨ls, lexes_blanks_iff.2 hls, hfit, hv⟩

theorem lexes_trim_iff : Lexes (replaceWords (trim cs)) ls ↔ Lexes (replaceWords cs) ls := by
  obtain ⟨pre, post, hwords, hpre, hpost⟩ := replaceWords_trim cs
  rw [hwords, lexes_blank_append_iff hpre, lexes_append_blank_iff hpost]

theorem parse_trim {v : Expr Placeholder} (h : parse (replaceWords cs) = .ok v) :
    parse (replaceWords (trim cs)) = .ok v := by
  obtain ⟨ls, hls, hfit, hv⟩ := parse_eq_ok_iff.1 h
  exact parse_eq_ok_iff.2 ⟨ls, lexes_trim_iff.2 hls, hfit, hv⟩

end Blanks

section Bars

variable {xs ys : List Char} {f : Formatter}

theorem paired_append_of_getLast? (h : xs.getLast? ≠ some '|') : paired (xs ++ ys) = (paired xs && paired ys) := by
  fun_induction paired xs with
  | case1 rest ih =>
    rcases rest with _ | ⟨c, rest⟩
    · exact absurd rfl h
    · rw [cons_append, cons_append, paired, ih h, Bool.and_assoc]
      rfl
  | case2 rest hrest =>
    rcases rest with _ | ⟨c, rest⟩
    · exact absurd rfl h
    · rw [cons_append, cons_append, paired]
      · rfl
      · rintro r ⟨⟩
        exact hrest rest rfl
  | case3 c rest hpair hne ih =>
    have hc : c ≠ '|' := hne
    rcases rest with _ | ⟨x, rest⟩
    · rw [cons_append, nil_append, paired_cons hc]
      rfl
    · rw [cons_append, paired_cons hc, ih h]
  | case4 => rfl

/-- A text without a pipe, wherever it stands. -/
structure Barless (cs : List Char) : Prop where
  level : depthOf cs = 0
  bars : paired cs = true
  last : cs.getLast? ≠ some '|'

theorem Barless.append (hx : Barless xs) (hy : Barless ys) : Barless (xs ++ ys) where
  level := by rw [depthOf_append, hx.level, hy.level]; rfl
  bars := by rw [paired_append_of_getLast? hx.last, hx.bars, hy.bars]; rfl
  last := by
    have hlast := hy.last
    rw [getLast?_append]
    rcases hys : ys.getLast? with _ | c <;> rw [hys] at hlast
    · exact hx.last
    · exact hlast

theorem Barless.parenthesised (h : Barless xs) : Barless ('(' :: (xs ++ [')'])) where
  level := by simp [h.level, depthStep]
  bars := by
    rw [paired_cons (by decide), paired_append_of_getLast? h.last, h.bars]
    rfl
  last := by rw [← cons_append, getLast?_concat]; decide

theorem barless_nil : Barless [] := ⟨rfl, rfl, nofun⟩

theorem barless_of_isInert (h : ∀ c ∈ xs, isInert c = true) : Barless xs where
  level := depthOf_of_isInert h
  bars := by
    rw [← append_nil xs, paired_append (not_mem_of_isInert h (by decide))]
    rfl
  last hlast := not_mem_of_isInert h (by decide) (mem_of_getLast? hlast)

theorem Contained.barless (h : Contained xs) : Barless xs :=
  ⟨h.level, h.bars, fun hlast => h.last _ hlast (by decide)⟩

theorem barless_intercalate {texts : List (List Char)} (h : ∀ text ∈ texts, Barless text) :
    Barless (List.intercalate [','] texts) := by
  have hcomma : Barless [','] := ⟨rfl, rfl, by decide⟩
  induction texts with
  | nil => exact barless_nil
  | cons text texts ih =>
    obtain ⟨htext, htexts⟩ := forall_mem_cons.1 h
    rcases texts with _ | ⟨text', texts⟩
    · rw [intercalate_singleton]
      exact htext
    · rw [intercalate_cons_cons]
      exact (htext.append hcomma).append (ih htexts)

/-- A text between two pipes: it has no pipe, is not empty and does not start with a bar. -/
structure IsSegment (cs : List Char) : Prop extends Barless cs where
  ne_nil : cs ≠ []
  first : cs.head? ≠ some '|'

/-- Texts between pipes are found again. -/
theorem splitFrom_segments {before : Option Char} (hbefore : before ≠ some '|') {segments : List (List Char)}
    (h : ∀ s ∈ segments, IsSegment s) : splitFrom '|' 0 before (segments.flatMap ('|' :: ·)) = ([], segments) := by
  induction segments generalizing before with
  | nil => rfl
  | cons s segments ih =>
    obtain ⟨hs, hsegments⟩ := forall_mem_cons.1 h
    have hrest : splitFrom '|' 0 (some '|') (s ++ segments.flatMap ('|' :: ·)) = (s, segments) := by
      have hlast : lastOr (some '|') s ≠ some '|' := by
        have hlast := hs.last
        obtain ⟨c, hc⟩ := Option.isSome_iff_exists.1 (getLast?_isSome.2 hs.ne_nil)
        rw [hc] at hlast
        rw [lastOr, hc]
        exact hlast
      rw [splitFrom_append (splitFrom_of_paired hs.bars 0 _), hs.level, Int.add_zero, ih hlast hsegments, prepend,
        append_nil]
    have hlone : separates '|' before (s ++ segments.flatMap ('|' :: ·)) = true := by
      rw [separates, isLoneBar, head?_append_of_ne_nil _ hs.ne_nil]
      simp [hbefore, hs.first]
    rw [flatMap_cons, cons_append, splitFrom]
    simp only [hlone]
    rw [show depthStep '|' = 0 from rfl, Int.add_zero, hrest]
    rfl

theorem splitPipes_segments {head : List Char} (hhead : Barless head) {segments : List (List Char)}
    (h : ∀ s ∈ segments, IsSegment s) : splitPipes (head ++ segments.flatMap ('|' :: ·)) = head :: segments := by
  have hlast : lastOr none head ≠ some '|' := by
    rw [lastOr, Option.or_none]
    exact hhead.last
  rw [splitPipes, splitTop, splitFrom_append (splitFrom_of_paired hhead.bars 0 none), hhead.level, Int.add_zero,
    splitFrom_segments hlast h, prepend, append_nil]

theorem barless_of_isBlank (h : Blank xs) : Barless xs :=
  barless_of_isInert fun c hc => isInert_of_isBlank (h c hc)

theorem barless_of_trim (h : Barless (trim xs)) : Barless xs := by
  obtain ⟨pre, post, hxs, hpre, hpost⟩ := exists_trim xs
  generalize trim xs = a at hxs h
  rw [hxs]
  exact (barless_of_isBlank hpre).append (h.append (barless_of_isBlank hpost))

theorem Formatter.isNamed_of_isName (h : IsName f.name) : f.IsNamed := by
  refine ⟨h.1, fun c hc => ?_⟩
  have hword := continuesWord_of_isNameRest (all_eq_true.1 h.2 c hc)
  simpa [continuesWord] using hword

theorem Formatter.IsNamed.isInert (h : f.IsNamed) : ∀ c ∈ f.name, isInert c = true := by
  intro c hc
  rcases h.2 c hc with hword | rfl
  · exact isInert_of_kind (by decide) hword
  · decide

/-- A formatter with arguments that have no pipe can be written between pipes. -/
theorem Formatter.IsWritten.isSegment {segment : List Char} (h : f.IsWritten segment) (hf : f.IsNamed)
    (hargs : ∀ a ∈ f.arguments, Barless a) : IsSegment segment := by
  obtain ⟨gap, hgap, hwritten⟩ := h
  obtain ⟨tail, htail, htrim⟩ : ∃ tail, Barless tail ∧ trim segment = f.name ++ (gap ++ tail) := by
    obtain ⟨-, htrim⟩ | ⟨inner, htrim, hinner⟩ := hwritten
    · exact ⟨[], barless_nil, by rw [htrim, append_nil]⟩
    · refine ⟨'(' :: (inner ++ [')']), Barless.parenthesised ?_, by rw [htrim, append_assoc]⟩
      obtain ⟨-, hnil⟩ | ⟨raws, rfl, hraws⟩ := hinner
      · exact barless_of_trim (hnil ▸ barless_nil)
      · exact barless_intercalate fun raw hraw => barless_of_trim (hargs _ (hraws ▸ mem_map_of_mem hraw))
  have hname : f.name ≠ [] := by
    intro hnil
    have hstart := hf.1
    rw [hnil] at hstart
    cases hstart
  have hbarless : Barless (trim segment) := htrim ▸ (barless_of_isInert hf.isInert).append
    ((barless_of_isBlank (all_eq_true.1 hgap)).append htail)
  -- the segment starts with a blank or with the name
  obtain ⟨pre, post, hsegment, hpre, hpost⟩ := exists_trim segment
  have hinert : ∀ c ∈ pre ++ f.name, isInert c = true :=
    forall_mem_append.2 ⟨fun c hc => isInert_of_isBlank (hpre c hc), hf.isInert⟩
  have hne : pre ++ f.name ≠ [] := by simp [hname]
  have hhead : segment.head? = (pre ++ f.name).head? := by
    rw [hsegment, htrim, append_assoc, ← append_assoc, head?_append_of_ne_nil _ hne]
  refine { barless_of_trim hbarless with ne_nil := fun hnil => ?_, first := fun hfirst => ?_ }
  · rw [hnil, head?_nil] at hhead
    exact hne (head?_eq_none_iff.1 hhead.symm)
  · rw [hhead] at hfirst
    exact absurd (hinert '|' (mem_of_head? hfirst)) (by decide)

end Bars

section Layouts

/-- A formatter as it is written between two pipes, with the blanks around its name. -/
structure Segment where
  before : List Char
  name : List Char
  gap : List Char
  arguments : Option (List (List Char))
  after : List Char
  isName : IsName name
  blank : ∀ c ∈ before ++ (gap ++ after), isBlank c = true

structure Layout where
  target : Option (List Char)
  value : List Char
  segments : List Segment

namespace Segment

variable {β γ : Type}

def parts (s : Segment) : List (List Char) := s.arguments.getD []

/-- What is written for a formatter, where `glue` gives the characters that belong to no part. -/
def spell (glue : Char → List β) (part : List Char → List β) (s : Segment) : List β :=
  s.before.flatMap glue ++ (s.name.flatMap glue ++ (s.gap.flatMap glue ++
    ((s.arguments.elim [] fun as => glue '(' ++ (List.intercalate (glue ',') (as.map part) ++ glue ')')) ++
      s.after.flatMap glue)))

def map (f : List Char → List Char) (s : Segment) : Segment := { s with arguments := s.arguments.map (List.map f) }

end Segment

namespace Layout

variable {β γ : Type}

/-- The parts that are expressions, in the order in which they are written. -/
def parts (l : Layout) : List (List Char) := l.target.toList ++ l.value :: l.segments.flatMap Segment.parts

def head (glue : Char → List β) (part : List Char → List β) (l : Layout) : List β :=
  (l.target.elim [] fun target => part target ++ glue '=') ++ part l.value

def spell (glue : Char → List β) (part : List Char → List β) (l : Layout) : List β :=
  l.head glue part ++ l.segments.flatMap fun s => glue '|' ++ s.spell glue part

def text (l : Layout) : List Char := l.spell List.singleton id

def map (f : List Char → List Char) (l : Layout) : Layout :=
  ⟨l.target.map f, f l.value, l.segments.map (Segment.map f)⟩

end Layout

section Spelling

variable {β γ : Type} {glue : Char → List β} {part : List Char → List β}

theorem flatMap_intercalate (f : β → List γ) (sep : List β) (xss : List (List β)) :
    (List.intercalate sep xss).flatMap f = List.intercalate (sep.flatMap f) (xss.map (List.flatMap f)) := by
  induction xss with
  | nil => rfl
  | cons xs xss ih =>
    rcases xss with _ | ⟨ys, xss⟩
    · simp
    · simp only [map_cons, intercalate_cons_cons, flatMap_append] at ih ⊢
      rw [ih]

theorem Segment.flatMap_spell (f : β → List γ) (s : Segment) :
    (s.spell glue part).flatMap f = s.spell (fun c => (glue c).flatMap f) fun cs => (part cs).flatMap f := by
  unfold spell
  rcases s.arguments with _ | as <;> simp [flatMap_assoc, flatMap_intercalate, Function.comp_def]

theorem Layout.flatMap_spell (f : β → List γ) (l : Layout) :
    (l.spell glue part).flatMap f = l.spell (fun c => (glue c).flatMap f) fun cs => (part cs).flatMap f := by
  unfold spell head
  rcases l.target with _ | t <;> simp [flatMap_assoc, Segment.flatMap_spell]

theorem Segment.spell_map (f : List Char → List Char) (s : Segment) :
    (s.map f).spell glue part = s.spell glue fun cs => part (f cs) := by
  unfold spell map
  rcases s.arguments with _ | as <;> simp [Function.comp_def]

theorem Layout.spell_map (f : List Char → List Char) (l : Layout) :
    (l.map f).spell glue part = l.spell glue fun cs => part (f cs) := by
  unfold spell head map
  rcases l.target with _ | t <;> simp [Segment.spell_map, flatMap_map]

theorem intercalate_nil_left (xss : List (List β)) : List.intercalate [] xss = xss.flatten := by
  induction xss with
  | nil => rfl
  | cons xs xss ih =>
    rcases xss with _ | ⟨ys, xss⟩
    · simp
    · rw [intercalate_cons_cons, ih, append_nil]
      rfl

theorem Segment.spell_nil (s : Segment) : s.spell (fun _ => []) part = s.parts.flatMap part := by
  unfold spell parts
  rcases s.arguments with _ | as <;> simp [intercalate_nil_left, List.flatMap]

theorem Layout.spell_nil (l : Layout) : l.spell (fun _ => []) part = l.parts.flatMap part := by
  unfold spell head parts
  rcases l.target with _ | t <;> simp [Segment.spell_nil, flatMap_assoc]

end Spelling

theorem Segment.parts_map (f : List Char → List Char) (s : Segment) : (s.map f).parts = s.parts.map f := by
  unfold parts map
  rcases s.arguments with _ | as <;> rfl

namespace Layout

variable {l : Layout}

/-- No literal reaches across what stands between the parts: the literals of the text are those of its parts. -/
def Separate (l : Layout) : Prop := Literal.pieces l.text = l.spell (fun c => [.char c]) Literal.pieces

instance (l : Layout) : Decidable l.Separate := inferInstanceAs (Decidable (_ = _))

theorem Separate.isolate_text (h : l.Separate) : Literal.isolate l.text = (l.map Literal.isolate).text := by
  rw [Literal.isolate, h, flatMap_spell, text, spell_map]
  rfl

theorem Separate.literals_text (h : l.Separate) : Literal.literals l.text = l.parts.flatMap Literal.literals := by
  rw [Literal.literals_eq_flatMap, h, flatMap_spell]
  exact (spell_nil l).trans (congrArg (List.flatMap · l.parts) (funext fun cs => (Literal.literals_eq_flatMap cs).symm))

end Layout

end Layouts

section Expressions

variable {cs : List Char}

def IsExpression (cs : List Char) : Prop := ∃ v, parse (replaceWords cs) = .ok v

variable (h : IsExpression cs)

include h

theorem IsExpression.contained : Contained cs := by
  obtain ⟨_, hv⟩ := h
  exact contained_of_parse hv

theorem IsExpression.trim : IsExpression (trim cs) := by
  obtain ⟨v, hv⟩ := h
  exact ⟨v, parse_trim hv⟩

theorem IsExpression.ne_nil : cs ≠ [] := by
  rintro rfl
  obtain ⟨v, hv⟩ := h
  exact parse_nil_ne v hv

theorem IsExpression.isArgument : IsArgument cs :=
  ⟨h.ne_nil, h.contained.level, h.contained.commas none⟩

end Expressions

namespace Segment

variable {s : Segment}

def formatter (s : Segment) : Formatter := ⟨s.name, s.parts.map trim⟩

def text (s : Segment) : List Char := s.spell List.singleton id

theorem text_eq (s : Segment) : s.text = s.before ++ (s.name ++ (s.gap ++
    ((s.arguments.elim [] fun as => '(' :: (List.intercalate [','] as ++ [')'])) ++ s.after))) := by
  have hsingle : ∀ cs : List Char, cs.flatMap List.singleton = cs := fun cs => flatMap_singleton' cs
  unfold text spell
  rw [hsingle, hsingle, hsingle, hsingle]
  rcases s.arguments with _ | as
  · rfl
  · rw [Option.elim_some, Option.elim_some, map_id]
    rfl

theorem blanks (s : Segment) : Blank s.before ∧ Blank s.gap ∧ Blank s.after := by
  obtain ⟨hbefore, hrest⟩ := forall_mem_append.1 s.blank
  exact ⟨hbefore, forall_mem_append.1 hrest⟩

theorem exists_name (s : Segment) : ∃ c rest, s.name = c :: rest := by
  refine exists_cons_of_ne_nil fun hnil => ?_
  have hstart := s.isName.1
  rw [hnil] at hstart
  cases hstart

theorem isNamed_formatter (s : Segment) : s.formatter.IsNamed := Formatter.isNamed_of_isName s.isName

theorem trim_text (s : Segment) : ∃ gap, gap.all isBlank = true ∧ trim s.text =
    s.name ++ gap ++ (s.arguments.elim [] fun as => '(' :: (List.intercalate [','] as ++ [')'])) := by
  obtain ⟨hbefore, hgap, hafter⟩ := s.blanks
  obtain ⟨x, name, hname⟩ := s.exists_name
  have hnonblank : ∀ c ∈ s.name, isBlank c = false := fun c hc =>
    isBlank_eq_false_of_isNameRest (all_eq_true.1 s.isName.2 c hc)
  have hfirst : ∀ c ∈ s.name.head?, isBlank c = false := fun c hc => hnonblank c (mem_of_head? hc)
  rw [text_eq]
  rcases s.arguments with _ | as
  · refine ⟨[], rfl, ?_⟩
    rw [Option.elim_none, nil_append, append_nil, append_nil]
    exact trim_append hbefore (forall_mem_append.2 ⟨hgap, hafter⟩) (by simp [hname]) hfirst
      fun c hc => hnonblank c (mem_of_getLast? hc)
  · refine ⟨s.gap, all_eq_true.2 hgap, ?_⟩
    rw [Option.elim_some, ← append_assoc s.gap, ← append_assoc s.name, ← append_assoc s.name]
    refine trim_append hbefore hafter (by simp) ?_ ?_
    · rw [hname] at hfirst ⊢
      exact hfirst
    · rw [← cons_append, ← append_assoc, getLast?_concat]
      rintro c ⟨⟩
      decide

theorem isWritten_text (s : Segment) : s.formatter.IsWritten s.text := by
  obtain ⟨gap, hgap, htrim⟩ := s.trim_text
  refine ⟨gap, hgap, ?_⟩
  unfold formatter parts
  rcases harguments : s.arguments with _ | as <;> rw [harguments] at htrim
  · exact .inl ⟨rfl, htrim.trans (append_nil _)⟩
  · exact .inr ⟨_, htrim, .inr ⟨as, rfl, rfl⟩⟩

theorem isSegment_text (h : ∀ a ∈ s.parts, IsExpression a) : IsSegment s.text := by
  refine s.isWritten_text.isSegment s.isNamed_formatter fun a ha => ?_
  obtain ⟨raw, hraw, rfl⟩ := mem_map.1 ha
  exact (h raw hraw).trim.contained.barless

end Segment

namespace Layout

variable {l : Layout}

def pipeline (l : Layout) : Pipeline := ⟨l.target.map trim, trim l.value, l.segments.map Segment.formatter⟩

def headText (l : Layout) : List Char := (l.target.elim [] (· ++ ['='])) ++ l.value

theorem text_eq (l : Layout) : l.text = l.headText ++ (l.segments.map Segment.text).flatMap ('|' :: ·) := by
  unfold text spell head headText
  rw [flatMap_map]
  rfl

/-- A layout whose parts are expressions on their own. What is assigned to has no assignment in it, and if nothing is
assigned to then the value has none outside brackets. -/
structure Parses (l : Layout) : Prop where
  parts : ∀ cs ∈ l.parts, IsExpression cs
  target : ∀ cs ∈ l.target, ∃ x, parse (replaceWords cs) = .ok x ∧ x.isTarget = true
  value : l.target = none → straddles (· != .symbol .assign) (replaceWords l.value) = false

theorem splitAssignment_value (h : l.Parses) (htarget : l.target = none) : splitAssignment (trim l.value) = none := by
  obtain ⟨_, hv⟩ := h.parts l.value (mem_append_right _ (.head _))
  obtain ⟨ls, hls, -, -⟩ := parse_eq_ok_iff.1 hv
  obtain ⟨-, e, hscan⟩ := straddles_eq_false_iff.1 (h.value htarget) ls hls
  rw [splitAssignment, splitAssignFrom_of_lexes (by decide) (lexes_trim_iff.2 hls) hscan]
  rfl

end Layout

section Assignments

variable {target value : List Char}

theorem splitAssignFrom_target {x : Expr Placeholder} (h : parse (replaceWords target) = .ok x)
    (hx : x.isTarget = true) : splitAssignFrom 0 none target = none := by
  obtain ⟨ls, hls, -, -⟩ := parse_eq_ok_iff.1 h
  obtain ⟨-, e, hscan⟩ := straddles_eq_false_iff.1 (straddles_of_parse_target h hx) ls hls
  exact splitAssignFrom_of_lexes (by decide) hls hscan

/-- An assignment sign is found between a target and a value, without blanks at its ends. -/
theorem splitAssignFrom_assignment (htarget : Contained target) (hne : target ≠ [])
    (hnone : splitAssignFrom 0 none target = none) (hvalue : value.head? ≠ some '=') {gap gap' : List Char}
    (hgap : Blank gap) (hgap' : Blank gap') :
    splitAssignFrom 0 none (target ++ (gap ++ '=' :: (gap' ++ value))) = some (target ++ gap, gap' ++ value) := by
  have hinert : ∀ c ∈ gap, isInert c = true := fun c hc => isInert_of_isBlank (hgap c hc)
  -- the sign is not one of a comparison
  have hbefore : ∃ c, lastOr (lastOr none target) gap = some c ∧ c ∉ ['|', '=', '!', '<', '>'] := by
    rcases hlast : gap.getLast? with _ | c
    · obtain ⟨c, hc⟩ := Option.isSome_iff_exists.1 (getLast?_isSome.2 hne)
      exact ⟨c, by rw [lastOr, hlast, lastOr, hc]; rfl, htarget.last c hc⟩
    · refine ⟨c, by rw [lastOr, hlast]; rfl, fun hmem => ?_⟩
      have hc := hinert c (mem_of_getLast? hlast)
      exact absurd hc ((by decide : ∀ y ∈ ['|', '=', '!', '<', '>'], ¬ isInert y = true) c hmem)
  have hafter : (gap' ++ value).head? ≠ some '=' := by
    rcases gap' with _ | ⟨c, gap'⟩
    · exact hvalue
    · rintro ⟨⟩
      have hinert := hgap' _ (.head _)
      exact absurd hinert (by decide)
  have hcompare : isComparison (lastOr (lastOr none target) gap) (gap' ++ value) = false := by
    obtain ⟨c, hc, hmem⟩ := hbefore
    rw [isComparison, hc]
    simp only [mem_cons, not_mem_nil, or_false, not_or] at hmem
    exact Bool.or_eq_false_iff.2 ⟨by simp [hmem], decide_eq_false hafter⟩
  rw [splitAssignFrom_append hnone, htarget.level,
    splitAssignFrom_append (splitAssignFrom_of_not_mem (not_mem_of_isInert hinert (by decide)) _ _),
    depthOf_of_isInert hinert, splitAssignFrom, hcompare]
  simp

theorem splitAssignment_assignment (htarget : Contained (trim target)) (hne : trim target ≠ [])
    (hnone : splitAssignFrom 0 none (trim target) = none) (hvalue : Contained (trim value)) (hne' : trim value ≠ []) :
    splitAssignment (trim (target ++ '=' :: value)) = some (trim target, trim value) := by
  obtain ⟨pre, post, htarget', hpre, hpost⟩ := exists_trim target
  obtain ⟨pre', post', hvalue', hpre', hpost'⟩ := exists_trim value
  have hsplit := splitAssignFrom_assignment htarget hne hnone hvalue.first hpost hpre'
  obtain ⟨hhead, hlast⟩ := And.intro (head?_trim target) (getLast?_trim target)
  obtain ⟨hhead', hlast'⟩ := And.intro (head?_trim value) (getLast?_trim value)
  generalize trim target = t at *
  generalize trim value = v at *
  have htrim : trim (target ++ '=' :: value) = t ++ (post ++ '=' :: (pre' ++ v)) := by
    have happ : target ++ '=' :: value = pre ++ ((t ++ (post ++ '=' :: (pre' ++ v))) ++ post') := by
      rw [htarget', hvalue']
      simp only [append_assoc, cons_append]
    rw [happ]
    refine trim_append hpre hpost' (by simp) ?_ ?_
    · rwa [head?_append_of_ne_nil _ hne]
    · rw [← append_assoc, ← cons_append, ← append_assoc, getLast?_append_of_ne_nil _ hne']
      exact hlast'
  have hnil : Blank ([] : List Char) := nofun
  have hleft : trim (t ++ post) = t := trim_append hnil hpost hne hhead hlast
  have hright : trim (pre' ++ v) = v := by
    have hright := trim_append hpre' hnil hne' hhead' hlast'
    rwa [append_nil] at hright
  rw [splitAssignment, htrim, hsplit, Option.map_some]
  dsimp only
  rw [hleft, hright]

end Assignments

namespace Layout

variable {l : Layout} (h : l.Parses)

include h

theorem barless_headText : Barless l.headText := by
  have hvalue := (h.parts l.value (mem_append_right _ (.head _))).contained.barless
  unfold headText
  rcases htarget : l.target with _ | target
  · exact hvalue
  · obtain ⟨x, hx, -⟩ := h.target target htarget
    have hsign : Barless ['='] := ⟨rfl, rfl, by decide⟩
    exact ((contained_of_parse hx).barless.append hsign).append hvalue

theorem Parses.arguments : ∀ s ∈ l.segments, ∀ a ∈ s.parts, IsExpression a := fun s hs a ha =>
  h.parts a (mem_append_right _ (.tail _ (mem_flatMap.2 ⟨s, hs, ha⟩)))

theorem splitPipes_text : splitPipes l.text = l.headText :: l.segments.map Segment.text := by
  rw [text_eq]
  refine splitPipes_segments (barless_headText h) fun text htext => ?_
  obtain ⟨s, hs, rfl⟩ := mem_map.1 htext
  exact Segment.isSegment_text (h.arguments s hs)

theorem isWritten_text : l.pipeline.IsWritten l.text := by
  refine ⟨l.headText, l.segments.map Segment.text, splitPipes_text h, ?_, ?_⟩
  · have hvalue := h.parts l.value (mem_append_right _ (.head _))
    unfold pipeline headText
    rcases htarget : l.target with _ | target
    · exact ⟨splitAssignment_value h htarget, rfl⟩
    · obtain ⟨x, hx, hx'⟩ := h.target target htarget
      have hparse := parse_trim hx
      change splitAssignment (trim (target ++ ['='] ++ l.value)) = _
      rw [append_assoc, singleton_append, splitAssignment_assignment (contained_of_parse hparse)
        (IsExpression.ne_nil ⟨x, hparse⟩) (splitAssignFrom_target hparse hx') hvalue.trim.contained hvalue.trim.ne_nil]
  · rw [pipeline, forall₂_map_left_iff, forall₂_map_right_iff, forall₂_same]
    exact fun s _ => ⟨s.isNamed_formatter, s.isWritten_text⟩

/-- Removing the pipes puts the parts of a layout into the text of nested calls. -/
theorem desugar_text (hne : l.segments ≠ []) : desugar l.text = .ok l.pipeline.text := by
  have hread : Pipeline.read l.text = .ok l.pipeline := by
    have hvalue := h.parts l.value (mem_append_right _ (.head _))
    refine (isWritten_text h).read hvalue.trim.ne_nil fun f hf a ha => ?_
    obtain ⟨s, hs, rfl⟩ := mem_map.1 hf
    obtain ⟨raw, hraw, rfl⟩ := mem_map.1 ha
    exact (h.arguments s hs raw hraw).trim.isArgument
  have hpipes : 2 ≤ (splitPipes l.text).length := by
    rw [splitPipes_text h, length_cons, length_map]
    have := length_pos_iff.2 hne
    omega
  rw [desugar_eq hpipes, hread]
  rfl

end Layout

section Words

def Formatter.map (g : List Char → List Char) (f : Formatter) : Formatter := { f with arguments := f.arguments.map g }

def Pipeline.map (g : List Char → List Char) (p : Pipeline) : Pipeline :=
  ⟨p.target.map g, g p.value, p.formatters.map (Formatter.map g)⟩

variable {f : Formatter} {fs : List Formatter} {value rest : List Char}

theorem replaceWords_callee (hf : f.IsNamed) :
    replaceWords (f.callee ++ '(' :: rest) = f.callee ++ '(' :: replaceWords rest := by
  have hroot : replaceWordsFrom none "_formatters_".toList = "_formatters_".toList := by decide
  have hcall : replaceWordsFrom (some '.') "call".toList = "call".toList := by decide
  have hname : replaceWordsFrom (some '.') f.name = f.name :=
    replaceWordsFrom_of_continues (by decide) fun c hc => by simpa [continuesWord] using hf.2 c hc
  have hrest : replaceWordsFrom (some '(') rest = replaceWords rest := replaceWordsFrom_congr (by decide) rest
  rw [Formatter.callee_eq, append_nil, replaceWords, replaceWordsFrom_append_cons (by decide),
    replaceWordsFrom_append_cons (by decide), replaceWordsFrom_append_cons (by decide), hroot, hname, hcall, hrest]

theorem replaceWords_joinArguments (texts : List (List Char)) : replaceWords (joinArguments texts ++ [')']) =
    joinArguments (texts.map replaceWords) ++ [')'] := by
  induction texts with
  | nil => rfl
  | cons text texts ih =>
    rcases texts with _ | ⟨text', texts⟩
    · rw [map_cons, map_nil, joinArguments, joinArguments, intercalate_singleton,
        intercalate_singleton, replaceWords, replaceWordsFrom_append_cons (by decide)]
      rfl
    · simp only [map_cons, joinArguments_append] at ih ⊢
      rw [replaceWords, replaceWordsFrom_append_cons (by decide),
        replaceWordsFrom_cons (not_startsWord_of_ends (by decide)),
        replaceWordsFrom_congr (show wordCanStart (some ' ') = wordCanStart none by decide)]
      exact congrArg (fun cs => replaceWords text ++ ',' :: ' ' :: cs) ih

theorem replaceWords_apply (hf : f.IsNamed) :
    replaceWords (f.apply value []) = (f.map replaceWords).apply (replaceWords value) [] := by
  rw [Formatter.apply_eq, replaceWords_callee hf, replaceWords_joinArguments, Formatter.apply_eq]
  rfl

theorem replaceWords_nest (hfs : ∀ f ∈ fs, f.IsNamed) :
    replaceWords (nest value fs) = nest (replaceWords value) (fs.map (Formatter.map replaceWords)) := by
  induction fs generalizing value with
  | nil => rfl
  | cons f fs ih =>
    obtain ⟨hf, hfs⟩ := forall_mem_cons.1 hfs
    change replaceWords (nest (f.apply value []) fs) = nest ((f.map replaceWords).apply (replaceWords value) []) _
    rw [ih hfs, replaceWords_apply hf]

theorem Pipeline.replaceWords_text {p : Pipeline} (h : ∀ f ∈ p.formatters, f.IsNamed) :
    replaceWords p.text = (p.map replaceWords).text := by
  have htrue : replaceWords "true".toList = "true".toList := by decide
  have hcalls : (p.map replaceWords).calls = p.calls.map (Formatter.map replaceWords) := by
    rcases p with ⟨_ | target, value, _ | ⟨f, fs⟩⟩
    · rfl
    · rfl
    · rfl
    · simp only [Pipeline.map, Pipeline.calls, Option.map_some, map_cons, Formatter.map, map_append, htrue, map_nil]
  have hnest : replaceWords (nest p.value p.calls) = nest (replaceWords p.value) (p.map replaceWords).calls := by
    rw [hcalls, replaceWords_nest (Pipeline.forall_names (P := fun name => Formatter.IsNamed ⟨name, []⟩) h)]
  unfold Pipeline.text
  rcases htarget : p.target with _ | target
  · rw [show (p.map replaceWords).target = none by simp [Pipeline.map, htarget]]
    exact hnest
  · rw [show (p.map replaceWords).target = some (replaceWords target) by simp [Pipeline.map, htarget]]
    have hsign : ∀ cs text : List Char, cs ++ " = ".toList ++ text = cs ++ ' ' :: '=' :: ' ' :: text :=
      fun _ _ => append_assoc ..
    dsimp only
    rw [hsign, hsign, replaceWords, replaceWordsFrom_append_cons (by decide),
      replaceWordsFrom_cons (not_startsWord_of_ends (by decide)),
      replaceWordsFrom_cons (not_startsWord_of_ends (by decide)),
      replaceWordsFrom_congr (show wordCanStart (some ' ') = wordCanStart none by decide)]
    exact congrArg (fun cs => replaceWords target ++ ' ' :: '=' :: ' ' :: cs) hnest

end Words

end NullSafe.Surface
