import NullSafe.Literal.Table
import NullSafe.Proofs.Lexemes
import NullSafe.Surface.Pipe
import NullSafe.Surface.Words

/-! # Placeholders through the passes over the text

A placeholder is a pair of equal delimiters. The texts that an expression becomes before it is parsed have
the same placeholders in the same order: what the passes cut, move and insert are characters that delimit
nothing. The tokens of a text have its placeholders too.
-/

namespace NullSafe

def Placeholder.delimiter : Placeholder → Char
  | string .single => '\x27'
  | string .double => '"'
  | pattern => '/'

def Surface.Lexeme.placeholder? : Surface.Lexeme → Option Placeholder
  | string q => some (.string q)
  | pattern => some .pattern
  | number _ | name _ | symbol _ => none

abbrev Blank (cs : List Char) : Prop := ∀ c ∈ cs, Text.isBlank c = true

namespace Literal

open List

/-- The delimiters of the placeholders of a text that follows a delimiter which may start one. -/
def placeholdersFrom (before : Option Char) : List Char → List Char
  | [] => []
  | c :: rest =>
    if isDelimiter c then
      if before = some c then c :: placeholdersFrom none rest else placeholdersFrom (some c) rest
    else placeholdersFrom none rest

def placeholders (cs : List Char) : List Char := placeholdersFrom none cs

def Plain (cs : List Char) : Prop := ∀ c ∈ cs, isDelimiter c = false

instance (cs : List Char) : Decidable (Plain cs) := List.decidableBAll _ cs

variable {c : Char} {xs ys zs : List Char} {before : Option Char}

theorem plain_nil : Plain [] := nofun

theorem plain_cons : Plain (c :: xs) ↔ isDelimiter c = false ∧ Plain xs := forall_mem_cons

theorem plain_append : Plain (xs ++ ys) ↔ Plain xs ∧ Plain ys := forall_mem_append

@[simp] theorem placeholders_nil : placeholders [] = [] := rfl

theorem placeholdersFrom_cons_plain (h : isDelimiter c = false) :
    placeholdersFrom before (c :: xs) = placeholders xs := by
  rw [placeholdersFrom, if_neg (by simp [h]), placeholders]

theorem placeholdersFrom_some (h : xs.head? ≠ some c) : placeholdersFrom (some c) xs = placeholders xs := by
  cases xs with
  | nil => rfl
  | cons d xs =>
    have hd : ¬ (some c = some d) := fun he => h (by rw [head?_cons, he])
    rw [placeholders, placeholdersFrom, placeholdersFrom, if_neg hd]
    simp

theorem placeholdersFrom_append_cons (h : isDelimiter c = false) :
    placeholdersFrom before (xs ++ c :: ys) = placeholdersFrom before xs ++ placeholders ys := by
  induction xs generalizing before with
  | nil => exact placeholdersFrom_cons_plain h
  | cons d xs ih =>
    rw [cons_append, placeholdersFrom, placeholdersFrom]
    split
    · split
      · rw [ih, cons_append]
      · exact ih
    · exact ih

theorem placeholders_append_cons (h : isDelimiter c = false) :
    placeholders (xs ++ c :: ys) = placeholders xs ++ placeholders ys :=
  placeholdersFrom_append_cons h

theorem placeholders_plain_append (h : Plain zs) : placeholders (zs ++ ys) = placeholders ys := by
  induction zs with
  | nil => rfl
  | cons c zs ih =>
    obtain ⟨hc, hzs⟩ := plain_cons.1 h
    rw [cons_append, placeholders, placeholdersFrom_cons_plain hc, ih hzs]

theorem placeholders_append_plain (h : Plain zs) : placeholders (xs ++ zs) = placeholders xs := by
  cases zs with
  | nil => rw [append_nil]
  | cons c zs =>
    obtain ⟨hc, hzs⟩ := plain_cons.1 h
    have hnil : placeholders (zs ++ []) = [] := placeholders_plain_append hzs
    rw [append_nil] at hnil
    rw [placeholders_append_cons hc, hnil, append_nil]

theorem placeholders_append_plain_append (h : Plain (c :: zs)) :
    placeholders (xs ++ (c :: zs ++ ys)) = placeholders xs ++ placeholders ys := by
  obtain ⟨hc, hzs⟩ := plain_cons.1 h
  rw [cons_append, placeholders_append_cons hc, placeholders_plain_append hzs]

section Characters

open Text Surface

variable {k : Char → Bool} (hs : k '\x27' = false) (hd : k '"' = false) (hp : k '/' = false)

include hs hd hp

theorem isDelimiter_of_kind (h : k c = true) : isDelimiter c = false := by
  rw [isDelimiter, Bool.or_eq_false_iff, Bool.or_eq_false_iff]
  refine ⟨⟨beq_false_of_ne ?_, beq_false_of_ne ?_⟩, beq_false_of_ne ?_⟩ <;> rintro rfl
  · rw [hs] at h; cases h
  · rw [hd] at h; cases h
  · rw [hp] at h; cases h

theorem plain_of_kind (h : ∀ c ∈ xs, k c = true) : Plain xs :=
  fun c hc => isDelimiter_of_kind hs hd hp (h c hc)

theorem plain_takeWhile : Plain (xs.takeWhile k) :=
  plain_of_kind hs hd hp fun _ hc => all_eq_true.1 (all_takeWhile) _ hc

theorem placeholders_dropWhile : placeholders (xs.dropWhile k) = placeholders xs := by
  conv => rhs; rw [← takeWhile_append_dropWhile (p := k) (l := xs)]
  exact (placeholders_plain_append (plain_takeWhile hs hd hp)).symm

omit hd hp hs

theorem placeholders_trimLeft : placeholders (trimLeft xs) = placeholders xs :=
  placeholders_dropWhile (by decide) (by decide) (by decide)

theorem placeholders_trim : placeholders (trim xs) = placeholders xs := by
  have hblank : Plain ((trimLeft xs).reverse.takeWhile isBlank).reverse :=
    fun c hc => plain_takeWhile (by decide) (by decide) (by decide) c (mem_reverse.1 hc)
  have hsplit : trim xs ++ ((trimLeft xs).reverse.takeWhile isBlank).reverse = trimLeft xs := by
    rw [trim, trimRight, ← reverse_append, takeWhile_append_dropWhile, reverse_reverse]
  rw [← placeholders_append_plain hblank, hsplit, placeholders_trimLeft]

end Characters

section Pipes

open Text Surface

theorem splitFrom_text (sep : Char) (depth : Int) (before : Option Char) (cs : List Char) :
    (splitFrom sep depth before cs).1 ++ (splitFrom sep depth before cs).2.flatMap (sep :: ·) = cs := by
  induction cs generalizing depth before with
  | nil => rfl
  | cons c cs ih =>
    rw [splitFrom]
    dsimp only
    have hrest := ih (depth + depthStep c) (some c)
    split
    · rename_i hc
      obtain rfl : c = sep := by simp at hc; exact hc.1.1
      simpa using hrest
    · simpa using hrest

theorem placeholders_splitTop {sep : Char} (hsep : isDelimiter sep = false) (cs : List Char) :
    (splitTop sep cs).flatMap placeholders = placeholders cs := by
  have htext := splitFrom_text sep 0 none cs
  rw [splitTop]
  dsimp only
  generalize splitFrom sep 0 none cs = r at htext ⊢
  obtain ⟨part, parts⟩ := r
  subst htext
  dsimp only
  rw [flatMap_cons]
  induction parts generalizing part with
  | nil => simp
  | cons p parts ih =>
    rw [flatMap_cons, flatMap_cons, cons_append, placeholders_append_cons hsep, ih p]

theorem splitAssignFrom_text {depth : Int} {before : Option Char} {cs target value : List Char}
    (h : splitAssignFrom depth before cs = some (target, value)) : target ++ '=' :: value = cs := by
  induction cs generalizing depth before target with
  | nil => cases h
  | cons c cs ih =>
    rw [splitAssignFrom] at h
    split at h
    · rename_i hc
      cases h
      simp at hc
      rw [hc.1.1, nil_append]
    · obtain ⟨⟨t, v⟩, hr, he⟩ := Option.map_eq_some_iff.1 h
      cases he
      rw [cons_append, ih hr]

theorem placeholders_splitAssignment {cs target value : List Char} (h : splitAssignment cs = some (target, value)) :
    placeholders target ++ placeholders value = placeholders cs := by
  obtain ⟨⟨t, v⟩, hs, he⟩ := Option.map_eq_some_iff.1 h
  cases he
  rw [placeholders_trim, placeholders_trim, ← splitAssignFrom_text hs]
  exact (placeholders_append_cons (by decide)).symm

theorem placeholders_joinArguments (texts : List (List Char)) :
    placeholders (joinArguments texts) = texts.flatMap placeholders := by
  induction texts with
  | nil => rfl
  | cons text texts ih =>
    cases texts with
    | nil => simp [joinArguments]
    | cons next texts =>
      rw [joinArguments, intercalate_cons_cons, flatMap_cons, ← ih, append_assoc]
      exact placeholders_append_plain_append (show Plain [',', ' '] by decide)

/-- A segment is a name and the text between parentheses, and nothing else but blanks. -/
theorem placeholders_splitSegment {segment name : List Char} {inner : Option (List Char)}
    (h : splitSegment? segment = some (name, inner)) :
    Plain name ∧ placeholders (inner.getD []) = placeholders segment := by
  unfold splitSegment? at h
  dsimp only at h
  have hname : Plain ((trim segment).takeWhile fun c => isWord c || decide (c = '$')) :=
    plain_takeWhile (by decide) (by decide) (by decide)
  have hrest : placeholders (trimLeft ((trim segment).dropWhile fun c => isWord c || decide (c = '$'))) =
      placeholders segment := by
    rw [placeholders_trimLeft, placeholders_dropWhile (by decide) (by decide) (by decide), placeholders_trim]
  split at h
  · split at h
    · rename_i hnil
      cases h
      rw [hnil] at hrest
      exact ⟨hname, hrest⟩
    · rename_i rest hparen
      split at h
      · rename_i hlast
        cases h
        refine ⟨hname, ?_⟩
        obtain ⟨inner, rfl⟩ : ∃ inner, rest = inner ++ [')'] := getLast?_eq_some_iff.1 hlast
        rw [hparen, placeholders, placeholdersFrom_cons_plain (by decide),
          placeholders_append_plain (by decide)] at hrest
        rw [dropLast_concat]
        exact hrest
      · cases h
    · cases h
  · cases h

theorem placeholders_readFormatter {segment : List Char} {f : Formatter} (h : readFormatter segment = .ok f) :
    Plain f.name ∧ f.arguments.flatMap placeholders = placeholders segment := by
  unfold readFormatter at h
  split at h
  · cases h
  · rename_i name hs
    obtain ⟨hname, hp⟩ := placeholders_splitSegment hs
    cases h
    exact ⟨hname, hp⟩
  · rename_i name inner hs
    obtain ⟨hname, hp⟩ := placeholders_splitSegment hs
    split at h
    · rename_i hblank
      cases h
      refine ⟨hname, ?_⟩
      rw [← hp, Option.getD_some, ← placeholders_trim, List.isEmpty_iff.1 hblank]
      rfl
    · dsimp only at h
      split at h
      · cases h
      · cases h
        refine ⟨hname, ?_⟩
        have htrim : placeholders ∘ trim = placeholders := funext fun _ => placeholders_trim
        rw [← hp, Option.getD_some, ← placeholders_splitTop (show isDelimiter ',' = false by decide) inner]
        simp only [flatMap_map, Function.comp_def] at htrim ⊢
        rw [htrim]

theorem placeholders_apply {f : Formatter} (hname : Plain f.name) (value : List Char) (extra : List (List Char)) :
    placeholders (f.apply value extra) =
      placeholders value ++ f.arguments.flatMap placeholders ++ extra.flatMap placeholders := by
  have hhead : Plain ("_formatters_.".toList ++ f.name ++ ".call(this, ".toList) :=
    plain_append.2 ⟨plain_append.2 ⟨by decide, hname⟩, by decide⟩
  unfold Formatter.apply
  rw [placeholders_append_plain (show Plain [')'] by decide), placeholders_plain_append hhead,
    placeholders_joinArguments, flatMap_append, flatMap_cons]

theorem placeholders_applyFormatters {segments extra : List (List Char)} {value out : List Char}
    (hextra : extra.flatMap placeholders = []) (h : applyFormatters value extra segments = .ok out) :
    placeholders out = placeholders value ++ segments.flatMap placeholders := by
  induction segments generalizing value extra with
  | nil =>
    cases h
    simp
  | cons segment segments ih =>
    rw [applyFormatters] at h
    rcases hf : readFormatter segment with fault | f <;> rw [hf] at h
    · cases h
    · obtain ⟨hname, hargs⟩ := placeholders_readFormatter hf
      rw [ih rfl h, placeholders_apply hname, hextra, hargs]
      simp

theorem placeholders_desugar {cs out : List Char} (h : desugar cs = .ok out) : placeholders out = placeholders cs := by
  have hsplit : (splitPipes cs).flatMap placeholders = placeholders cs := placeholders_splitTop (by decide) cs
  unfold desugar at h
  split at h
  · cases h; rfl
  · cases h; rfl
  · rename_i first segments _ hpipes
    dsimp only at h
    rw [hpipes, flatMap_cons] at hsplit
    split at h
    · cases h
    · split at h
      · rw [placeholders_applyFormatters rfl h, placeholders_trim, hsplit]
      · rename_i target value ha
        rcases hv : applyFormatters value ["true".toList] segments with fault | text <;> rw [hv] at h
        · cases h
        · cases h
          have hfirst : placeholders target ++ placeholders value = placeholders first :=
            (placeholders_splitAssignment ha).trans placeholders_trim
          rw [← hsplit, ← hfirst, append_assoc, append_assoc, ← placeholders_applyFormatters (by decide) hv]
          exact placeholders_append_plain_append (show Plain [' ', '=', ' '] by decide)

end Pipes

section Words

open Surface

theorem placeholdersFrom_replaceWordsFrom (last : Option Char) (cs : List Char) :
    placeholdersFrom before (replaceWordsFrom last cs) = placeholdersFrom before cs := by
  have hplain : ∀ {before : Option Char} {c : Char} {xs : List Char}, isDelimiter c = false →
      placeholdersFrom before (c :: xs) = placeholdersFrom none xs := placeholdersFrom_cons_plain
  fun_induction replaceWordsFrom last cs generalizing before with
  | case1 => rfl
  | case2 last rest _ ih =>
    rw [hplain (by decide), hplain (by decide), ih, hplain (by decide), hplain (by decide), hplain (by decide)]
  | case3 last rest _ ih => rw [hplain (by decide), ih, hplain (c := 'a') (by decide)]
  | case4 last rest _ ih =>
    rw [hplain (by decide), hplain (by decide), ih, hplain (by decide), hplain (by decide)]
  | case5 last rest _ ih => rw [hplain (by decide), ih, hplain (c := 'o') (by decide)]
  | case6 last c rest _ _ ih => rw [placeholdersFrom, placeholdersFrom, ih, ih]

theorem placeholders_replaceWords (cs : List Char) : placeholders (replaceWords cs) = placeholders cs :=
  placeholdersFrom_replaceWordsFrom none cs

end Words

section Tokens

open Text Surface

variable {cs r : List Char}

theorem plain_readNumber {n : List Char} (h : readNumber? cs = some (n, r)) : Plain n :=
  plain_of_kind (k := fun c => !endsNumeral c) (by decide) (by decide) (by decide) fun _ hc =>
    Bool.not_eq_true' _ ▸ endsNumeral_of_mem h hc

theorem plain_readName {n : List Char} (h : readName? cs = some (n, r)) : Plain n := by
  unfold readName? at h
  split at h
  · cases h
    exact plain_takeWhile (by decide) (by decide) (by decide)
  · cases h

theorem placeholders_readSymbol {s : Symbol} (h : Symbol.read? cs = some (s, r))
    (hno : readPlaceholder? cs = none) : placeholders cs = placeholders r := by
  obtain ⟨rfl, -⟩ := Symbol.read?_eq_some h
  by_cases hs : s = .slash
  · subst hs
    have hnext : r.head? ≠ some '/' := by
      intro hr
      obtain ⟨r', rfl⟩ := head?_eq_some_iff.1 hr
      cases hno
    exact placeholdersFrom_some hnext
  · exact placeholders_plain_append (by cases s <;> first | decide | exact absurd rfl hs)

theorem readLexeme_cases {l : Lexeme} (h : readLexeme? cs = some (l, r)) :
    (∃ n, l = .number n ∧ readNumber? cs = some (n, r)) ∨ readPlaceholder? cs = some (l, r) ∨
      (∃ n, l = .name n ∧ readName? cs = some (n, r)) ∨
      ∃ s, l = .symbol s ∧ Symbol.read? cs = some (s, r) ∧ readPlaceholder? cs = none := by
  simp only [readLexeme?, Option.orElse_eq_orElse, Option.orElse_eq_or, Option.or_eq_some_iff,
    Option.map_eq_some_iff] at h
  rcases h with ⟨⟨n, r'⟩, hn, e⟩ | ⟨_, hp | ⟨hno, ⟨⟨n, r'⟩, hn, e⟩ | ⟨_, ⟨s, r'⟩, hs, e⟩⟩⟩
  · cases e; exact .inl ⟨n, rfl, hn⟩
  · exact .inr (.inl hp)
  · cases e; exact .inr (.inr (.inl ⟨n, rfl, hn⟩))
  · cases e; exact .inr (.inr (.inr ⟨s, rfl, hs, hno⟩))

theorem placeholders_readLexeme {l : Lexeme} (h : readLexeme? cs = some (l, r)) :
    placeholders cs = l.placeholder?.toList.map Placeholder.delimiter ++ placeholders r := by
  rcases readLexeme_cases h with ⟨n, rfl, hn⟩ | hp | ⟨n, rfl, hn⟩ | ⟨s, rfl, hs, hno⟩
  · rw [← (readNumber?_eq_some hn).1, placeholders_plain_append (plain_readNumber hn)]
    rfl
  · unfold readPlaceholder? at hp
    split at hp <;> cases hp <;> rfl
  · rw [← (readName?_eq_some hn).1, placeholders_plain_append (plain_readName hn)]
    rfl
  · exact placeholders_readSymbol hs hno

def tokenPlaceholders (ls : List Lexeme) : List Placeholder := ls.filterMap Lexeme.placeholder?

theorem placeholders_of_lexes {ls : List Lexeme} (h : Lexes cs ls) :
    (tokenPlaceholders ls).map Placeholder.delimiter = placeholders cs := by
  induction h with
  | nil => rfl
  | blank hc _ ih =>
    rw [ih]
    exact (placeholdersFrom_cons_plain (isDelimiter_of_kind (by decide) (by decide) (by decide) hc)).symm
  | @read _ _ _ l _ _ hl _ ih =>
    rw [placeholders_readLexeme hl, ← ih]
    cases hp : l.placeholder? with
    | none => simp [tokenPlaceholders, hp]
    | some p => simp [tokenPlaceholders, hp]

/-- A token that spells a word has a text, without delimiters. -/
def Tidy : Lexeme → Prop
  | .number cs | .name cs => cs ≠ [] ∧ Plain cs
  | .string _ | .pattern | .symbol _ => True

theorem tidy_readLexeme {l : Lexeme} (h : readLexeme? cs = some (l, r)) : Tidy l := by
  rcases readLexeme_cases h with ⟨n, rfl, hn⟩ | hp | ⟨n, rfl, hn⟩ | ⟨s, rfl, -, -⟩
  · exact ⟨(readNumber?_eq_some hn).2, plain_readNumber hn⟩
  · unfold readPlaceholder? at hp
    split at hp <;> cases hp <;> trivial
  · exact ⟨(readName?_eq_some hn).2, plain_readName hn⟩
  · trivial

theorem tidy_of_lexes {ls : List Lexeme} (h : Lexes cs ls) : ∀ l ∈ ls, Tidy l := by
  induction h with
  | nil => exact nofun
  | blank _ _ ih => exact ih
  | read _ hl _ ih => exact forall_mem_cons.2 ⟨tidy_readLexeme hl, ih⟩

end Tokens

end Literal

end NullSafe
