import NullSafe.Code.Fill
import NullSafe.Proofs.Placeholders

/-! # Placeholders in the text of generated code

Printed code has a placeholder for each place of a literal and no others: between two places, and between a
quoted name and what follows it, there is always a character that delimits nothing. So restoring the
literals in the text is the same as putting them into the code and printing that.
-/

namespace NullSafe

open Literal List

variable {ι : Type}

namespace Glyph

def leaf? : Glyph ι → Option ι
  | char _ => none
  | leaf x => some x

def leaves (gs : List (Glyph ι)) : List ι := gs.filterMap leaf?

@[simp] theorem leaves_nil : leaves ([] : List (Glyph ι)) = [] := rfl

@[simp] theorem leaves_char (c : Char) (gs : List (Glyph ι)) : leaves (char c :: gs) = leaves gs := rfl

@[simp] theorem leaves_leaf (x : ι) (gs : List (Glyph ι)) : leaves (leaf x :: gs) = x :: leaves gs := rfl

@[simp] theorem leaves_append (gs hs : List (Glyph ι)) : leaves (gs ++ hs) = leaves gs ++ leaves hs :=
  filterMap_append

@[simp] theorem leaves_write (s : String) : leaves (Code.write s : List (Glyph ι)) = [] := by
  rw [leaves, Code.write, filterMap_map]
  exact filterMap_eq_nil_iff.2 fun _ _ => rfl

end Glyph

def Code.leaves (code : Code ι) : List ι := Glyph.leaves code.print

/-- A word of the generated code: a text that is not empty and has no delimiters. -/
def Word (s : String) : Prop := s.toList ≠ [] ∧ Plain s.toList

instance (s : String) : Decidable (Word s) := inferInstanceAs (Decidable (_ ∧ _))

/-- Equal delimiters meet only in places of literals, also at the start, where `before` may be a delimiter
that stands there. -/
inductive Separated : Option Char → List (Glyph Placeholder) → Prop where
  | nil {before} : Separated before []
  | plain {before c gs} (hc : isDelimiter c = false) (h : Separated none gs) : Separated before (.char c :: gs)
  | delimiter {before c gs} (hc : isDelimiter c = true) (hb : before ≠ some c) (h : Separated (some c) gs) :
      Separated before (.char c :: gs)
  | leaf {before p gs} (hb : before ≠ some p.delimiter) (h : Separated none gs) : Separated before (.leaf p :: gs)

section Separation

variable {c : Char} {s : String} {before : Option Char} {gs hs : List (Glyph Placeholder)}

theorem separated_cons_plain (hc : isDelimiter c = false) : Separated before (.char c :: gs) ↔ Separated none gs := by
  constructor
  · intro h
    cases h with
    | plain _ h => exact h
    | delimiter hd => rw [hc] at hd; cases hd
  · exact .plain hc

theorem separated_append_char (hc : isDelimiter c = false) :
    Separated before (gs ++ Glyph.char c :: hs) ↔ Separated before gs ∧ Separated none hs := by
  constructor
  · intro h
    induction gs generalizing before with
    | nil => exact ⟨.nil, (separated_cons_plain hc).1 h⟩
    | cons g gs ih =>
      cases h with
      | plain hd h => exact ⟨.plain hd (ih h).1, (ih h).2⟩
      | delimiter hd hb h => exact ⟨.delimiter hd hb (ih h).1, (ih h).2⟩
      | leaf hb h => exact ⟨.leaf hb (ih h).1, (ih h).2⟩
  · rintro ⟨hgs, hhs⟩
    induction hgs with
    | nil => exact .plain hc hhs
    | plain hd _ ih => exact .plain hd ih
    | delimiter hd hb _ ih => exact .delimiter hd hb ih
    | leaf hb _ ih => exact .leaf hb ih

theorem separated_plain_append {cs : List Char} (h : Plain cs) (hs : List (Glyph Placeholder)) :
    Separated none (cs.map .char ++ hs) ↔ Separated none hs := by
  induction cs with
  | nil => rfl
  | cons c cs ih =>
    obtain ⟨hc, hcs⟩ := plain_cons.1 h
    rw [map_cons, cons_append, separated_cons_plain hc, ih hcs]

theorem separated_append_write (h : Word s) :
    Separated before (gs ++ (Code.write s ++ hs)) ↔ Separated before gs ∧ Separated none hs := by
  obtain ⟨hne, hplain⟩ := h
  obtain ⟨c, cs, hs⟩ := exists_cons_of_ne_nil hne
  rw [hs] at hplain
  obtain ⟨hc, hcs⟩ := plain_cons.1 hplain
  rw [Code.write, hs, map_cons, cons_append, separated_append_char hc, separated_plain_append hcs]

theorem separated_write_append (h : Word s) : Separated before (Code.write s ++ hs) ↔ Separated none hs := by
  have happend : Separated before ([] ++ (Code.write s ++ hs)) ↔ _ := separated_append_write h
  exact happend.trans (and_iff_right .nil)

theorem separated_append_last (h : Word s) : Separated before (gs ++ Code.write s) ↔ Separated before gs := by
  have happend : Separated before (gs ++ (Code.write s ++ [])) ↔ _ := separated_append_write h
  rw [append_nil] at happend
  exact happend.trans (and_iff_left .nil)

theorem separated_write (h : Word s) : Separated before (Code.write s) := by
  rw [← nil_append (Code.write s), separated_append_last h]
  exact .nil

theorem separated_commaSeparated {texts : List (List (Glyph Placeholder))}
    (h : ∀ t ∈ texts, Separated none t) : Separated none (Code.commaSeparated texts) := by
  induction texts with
  | nil => exact .nil
  | cons t texts ih =>
    obtain ⟨ht, hts⟩ := forall_mem_cons.1 h
    cases texts with
    | nil => simpa [Code.commaSeparated] using ht
    | cons u texts =>
      rw [Code.commaSeparated, intercalate_cons_cons, append_assoc, separated_append_write (by decide)]
      exact ⟨ht, ih hts⟩

end Separation

section Names

open Text

variable {s : String} {cs : List Char}

theorem isDelimiter_digitChar (n : Nat) : isDelimiter n.digitChar = false := by
  rw [isDelimiter, Bool.or_eq_false_iff, Bool.or_eq_false_iff]
  exact ⟨⟨beq_false_of_ne (Nat.digitChar_ne _ rfl), beq_false_of_ne (Nat.digitChar_ne _ rfl)⟩,
    beq_false_of_ne (Nat.digitChar_ne _ rfl)⟩

theorem plain_toDigits {b : Nat} (hb : 1 < b) (n : Nat) : Plain (Nat.toDigits b n) := by
  induction n using Nat.strongRecOn with
  | ind n ih =>
    rw [Nat.toDigits_eq_if hb]
    split
    · exact plain_cons.2 ⟨isDelimiter_digitChar n, plain_nil⟩
    · refine plain_append.2 ⟨ih _ (Nat.div_lt_self (by omega) hb), ?_⟩
      exact plain_cons.2 ⟨isDelimiter_digitChar _, plain_nil⟩

theorem word_toString (n : Nat) : Word (toString n) := by
  rw [Word, Nat.toString_eq_ofList_toDigits, String.toList_ofList]
  exact ⟨Nat.toDigits_ne_nil, plain_toDigits (by decide) n⟩

theorem Word.append {t : String} (hs : Plain s.toList) (ht : Word t) : Word (s ++ t) := by
  rw [Word, String.toList_append]
  exact ⟨fun h => ht.1 (append_eq_nil_iff.1 h).2, plain_append.2 ⟨hs, ht.2⟩⟩

theorem word_temporaryName (n : Nat) : Word (temporaryName n) :=
  .append (by decide) (word_toString n)

theorem plain_hexDigits (width n : Nat) : Plain (hexDigits width n) := by
  refine plain_append.2 ⟨fun c hc => ?_, plain_toDigits (by decide) n⟩
  rw [eq_of_mem_replicate hc]
  rfl

theorem plain_escapeCode {quote c : Char} (hc : isDelimiter c = false) :
    escapeCode quote c.toNat ≠ [] ∧ Plain (escapeCode quote c.toNat) := by
  have hself : isDelimiter (Char.ofNat c.toNat) = false := by rwa [Char.ofNat_toNat]
  have hhex : ∀ {x : Char} {width : Nat}, isDelimiter x = false →
      Plain ('\\' :: x :: hexDigits width c.toNat) := fun hx =>
    plain_cons.2 ⟨rfl, plain_cons.2 ⟨hx, plain_hexDigits _ _⟩⟩
  unfold escapeCode
  repeat' split
  · exact ⟨nofun, plain_cons.2 ⟨rfl, plain_cons.2 ⟨hself, plain_nil⟩⟩⟩
  · exact ⟨nofun, by decide⟩
  · exact ⟨nofun, by decide⟩
  · exact ⟨nofun, by decide⟩
  · exact ⟨nofun, plain_cons.2 ⟨hself, plain_nil⟩⟩
  · exact ⟨nofun, hhex rfl⟩
  · exact ⟨nofun, hhex rfl⟩
  · exact ⟨nofun, hhex rfl⟩

theorem quoteFor_of_plain (h : Plain cs) : quoteFor (codes cs) = '\x27' := by
  have hno : ¬ (codes cs).contains 0x27 = true := by
    intro hmem
    obtain ⟨c, hc, hcode⟩ := mem_map.1 (contains_iff_mem.1 hmem)
    obtain rfl : c = '\x27' := Char.toNat_inj.1 hcode
    exact absurd (h _ hc) (by decide)
  unfold quoteFor
  exact if_neg fun hand => hno (Bool.and_eq_true_iff.1 hand).1

theorem toList_quoted (h : Plain s.toList) :
    (quoted s).toList = '\x27' :: ((codes s.toList).flatMap (escapeCode '\x27') ++ ['\x27']) := by
  unfold quoted quotedCodes
  rw [String.toList_ofList, quoteFor_of_plain h]

theorem escapeCode_flatMap (hne : cs ≠ []) (h : Plain cs) :
    (codes cs).flatMap (escapeCode '\x27') ≠ [] ∧ Plain ((codes cs).flatMap (escapeCode '\x27')) := by
  constructor
  · cases cs with
    | nil => exact absurd rfl hne
    | cons c cs =>
      rw [codes, map_cons, flatMap_cons]
      exact fun hnil => (plain_escapeCode (h c mem_cons_self)).1 (append_eq_nil_iff.1 hnil).1
  · intro x hx
    obtain ⟨n, hn, hx⟩ := mem_flatMap.1 hx
    obtain ⟨c, hc, rfl⟩ := mem_map.1 hn
    exact (plain_escapeCode (h c hc)).2 x hx

theorem separated_enclosed {q : Char} (hs : s.toList = q :: (cs ++ [q]))
    (hq : isDelimiter q = true) (hne : cs ≠ []) (h : Plain cs) : Separated none (Code.write s) := by
  cases cs with
  | nil => exact absurd rfl hne
  | cons c cs =>
    obtain ⟨hc, hcs⟩ := plain_cons.1 h
    rw [Code.write, hs, cons_append]
    refine .delimiter hq nofun (.plain hc ?_)
    rw [map_append, separated_plain_append hcs]
    exact .delimiter hq nofun .nil

theorem separated_quoted (h : Word s) : Separated none (Code.write (quoted s)) :=
  separated_enclosed (toList_quoted h.2) rfl (escapeCode_flatMap h.1 h.2).1 (escapeCode_flatMap h.1 h.2).2

end Names

section Restoring

variable {before : Option Char} {gs hs : List (Glyph Placeholder)}

theorem isDelimiter_delimiter (p : Placeholder) : isDelimiter p.delimiter = true := by
  rcases p with (_ | _) | _ <;> rfl

theorem Placeholder.chars_eq (p : Placeholder) : p.chars = [p.delimiter, p.delimiter] := by
  rcases p with (_ | _) | _ <;> rfl

def openText (gs : List (Glyph Placeholder)) : List Char := gs.flatMap (Glyph.chars Placeholder.chars)

theorem openText_char (c : Char) (gs : List (Glyph Placeholder)) : openText (.char c :: gs) = c :: openText gs := rfl

theorem openText_leaf (p : Placeholder) (gs : List (Glyph Placeholder)) :
    openText (.leaf p :: gs) = p.delimiter :: p.delimiter :: openText gs := by
  rw [openText, flatMap_cons, Glyph.chars, p.chars_eq]
  rfl

theorem placeholdersFrom_openText (h : Separated before gs) :
    placeholdersFrom before (openText gs) = (Glyph.leaves gs).map Placeholder.delimiter := by
  induction h with
  | nil => rfl
  | plain hc _ ih => rw [openText_char, placeholdersFrom_cons_plain hc, placeholders, ih]; rfl
  | delimiter hc hb _ ih => rw [openText_char, placeholdersFrom, if_pos hc, if_neg hb, ih]; rfl
  | @leaf _ p _ hb _ ih =>
    rw [openText_leaf, placeholdersFrom, if_pos (isDelimiter_delimiter p), if_neg hb, placeholdersFrom,
      if_pos (isDelimiter_delimiter p), if_pos rfl, ih]
    rfl

def Glyph.fill : Glyph Placeholder → Filling (Glyph Leaf)
  | char c => return char c
  | leaf p => do return leaf (← p.fill)

/-- The text of glyphs with the queued literals put in, and the literals that are left. -/
def fillText (queue : List (List Char)) (gs : List (Glyph Placeholder)) : Except EscapeFault (List Char) :=
  (fun (gs, _) => gs.flatMap (Glyph.chars Leaf.chars)) <$> (gs.mapM Glyph.fill).run queue

def spell (raw : List Char) : Except EscapeFault (List Char) := (renderRaw raw).map String.toList

variable {ε : Type} {render : List Char → Except ε (List Char)} {queue : List (List Char)}

theorem fill_cons {c : Char} {rest : List Char} (h : isDelimiter c = true → rest.head? ≠ some c) :
    Literal.fill render queue (c :: rest) = (c :: ·) <$> Literal.fill render queue rest := by
  cases queue with
  | nil => rw [Literal.fill, Literal.fill]; rfl
  | cons raw queue =>
    cases rest with
    | nil => rfl
    | cons d rest =>
      have hno : ¬ ((decide (c = d) && isDelimiter c) = true) := by
        intro hand
        obtain ⟨hcd, hc⟩ := Bool.and_eq_true_iff.1 hand
        exact h hc (by rw [of_decide_eq_true hcd]; rfl)
      rw [Literal.fill, if_neg hno, map_eq_pure_bind]

theorem fillText_char (c : Char) : fillText queue (.char c :: gs) = (c :: ·) <$> fillText queue gs := by
  simp [fillText, Glyph.fill, Glyph.chars]

theorem fillText_leaf_nil (p : Placeholder) :
    fillText [] (.leaf p :: gs) = ([p.delimiter, p.delimiter] ++ ·) <$> fillText [] gs := by
  simp [fillText, Glyph.fill, Placeholder.fill, Glyph.chars, Leaf.chars, p.chars_eq]

theorem fillText_leaf_cons (p : Placeholder) (raw : List Char) :
    fillText (raw :: queue) (.leaf p :: gs) = do
      let shown ← spell raw
      let after ← fillText queue gs
      return shown ++ after := by
  simp only [fillText, mapM_cons, Glyph.fill, Placeholder.fill, spell, renderRaw]
  simp
  cases ofRaw raw <;> simp [Except.map, Glyph.chars, Leaf.chars] <;> rfl

theorem head?_openText {c : Char} (hc : isDelimiter c = true) (h : Separated (some c) gs) :
    (openText gs).head? ≠ some c := by
  cases h with
  | nil => nofun
  | plain hd =>
    rintro ⟨⟩
    rw [hc] at hd
    cases hd
  | delimiter _ hb => exact fun he => hb he.symm
  | leaf hb =>
    rw [openText_leaf]
    exact fun he => hb he.symm

theorem fill_openText (h : Separated before gs) : Literal.fill spell queue (openText gs) = fillText queue gs := by
  induction h generalizing queue with
  | nil => cases queue <;> rfl
  | plain hc _ ih => rw [openText_char, fill_cons (by simp [hc]), fillText_char, ih]
  | delimiter hc _ h ih =>
    rw [openText_char, fill_cons fun _ => head?_openText hc h, fillText_char, ih]
  | @leaf _ p _ _ _ ih =>
    rw [openText_leaf]
    cases queue with
    | nil =>
      rw [fillText_leaf_nil, ← ih, Literal.fill, Literal.fill]
      rfl
    | cons raw queue =>
      rw [fillText_leaf_cons, Literal.fill, if_pos (by simp [isDelimiter_delimiter]), ih]

end Restoring

namespace Code

theorem mapM_write (s : String) : (write s).mapM Glyph.fill = (pure (write s) : Filling (List (Glyph Leaf))) := by
  have hchars : ∀ cs : List Char,
      (cs.map Glyph.char).mapM Glyph.fill = (pure (cs.map .char) : Filling (List (Glyph Leaf))) := by
    intro cs
    induction cs with
    | nil => rfl
    | cons c cs ih => rw [map_cons, mapM_cons, ih, Glyph.fill, pure_bind, pure_bind]; rfl
  exact hchars s.toList

theorem commaSeparated_cons_cons {ι : Type} (t u : List (Glyph ι)) (texts : List (List (Glyph ι))) :
    commaSeparated (t :: u :: texts) = t ++ write ", " ++ commaSeparated (u :: texts) :=
  intercalate_cons_cons

theorem mapM_commaSeparated (texts : List (List (Glyph Placeholder))) :
    (commaSeparated texts).mapM Glyph.fill = commaSeparated <$> texts.mapM fun t => t.mapM Glyph.fill := by
  induction texts with
  | nil => rfl
  | cons t texts ih =>
    cases texts with
    | nil => simp [commaSeparated]
    | cons u texts =>
      rw [commaSeparated_cons_cons, mapM_append, mapM_append, ih, mapM_write]
      simp [commaSeparated_cons_cons]

mutual

/-- Printing and putting in literals commute. -/
theorem print_fill : ∀ code : Code Placeholder, print <$> code.fill = code.print.mapM Glyph.fill
  | .number s => by simp [fill, print, mapM_write]
  | .literal p => by simp [fill, print, Glyph.fill]
  | .constant c => by simp [fill, print, mapM_write]
  | .this => by simp [fill, print, mapM_write]
  | .globals => by simp [fill, print, mapM_write]
  | .formatters => by simp [fill, print, mapM_write]
  | .parameter name => by simp [fill, print, mapM_write]
  | .key s => by simp [fill, print, mapM_write]
  | .global name => by simp [fill, print, mapM_write]
  | .temporary n => by simp [fill, print, mapM_write]
  | .setParameter name value => by simp [fill, print, mapM_write, ← print_fill value]
  | .array items => by simp [fill, print, mapM_write, mapM_commaSeparated, ← printAll_fill items]
  | .object entries => by simp [fill, print, mapM_write, mapM_commaSeparated, ← printEntries_fill entries]
  | .operate op arguments => by simp [fill, print, mapM_write, mapM_commaSeparated, ← printAll_fill arguments]
  | .apply callee arguments => by
    simp [fill, print, mapM_write, mapM_commaSeparated, ← print_fill callee, ← printAll_fill arguments]
  | .not operand => by simp [fill, print, mapM_write, ← print_fill operand]
  | .logical op left right => by simp [fill, print, mapM_write, ← print_fill left, ← print_fill right]
  | .equal left right => by simp [fill, print, mapM_write, ← print_fill left, ← print_fill right]
  | .differ left right => by simp [fill, print, mapM_write, ← print_fill left, ← print_fill right]
  | .choose n test yes no => by
    simp [fill, print, mapM_write, ← print_fill test, ← print_fill yes, ← print_fill no]
  | .unlessNull n test body => by
    cases n <;> simp [fill, print, nullTest, boundTest, mapM_write, ← print_fill test, ← print_fill body]
  | .whenCallable n test body => by
    cases n <;> simp [fill, print, boundTest, mapM_write, ← print_fill test, ← print_fill body]

theorem printAll_fill : ∀ codes : List (Code Placeholder),
    printAll <$> fillAll codes = (printAll codes).mapM fun t => t.mapM Glyph.fill
  | [] => by simp [fillAll, printAll]
  | c :: rest => by simp [fillAll, printAll, ← print_fill c, ← printAll_fill rest]

theorem printEntries_fill : ∀ entries : List (Code Placeholder × Code Placeholder),
    printEntries <$> fillEntries entries = (printEntries entries).mapM fun t => t.mapM Glyph.fill
  | [] => by simp [fillEntries, printEntries]
  | (k, v) :: rest => by
    simp [fillEntries, printEntries, mapM_write, ← print_fill k, ← print_fill v, ← printEntries_fill rest]

end

end Code

section Denotations

variable {queue : List (List Char)}

/-- Filling in order puts the denotations of the queued literals where the placeholders are. Those for which there
is no literal stay. -/
theorem filterMap_mapM_fill {α β : Type} {f : α → Filling β} {place? : α → Option Placeholder}
    {leaf? : β → Option Leaf} (hnone : ∀ a, place? a = none → ∃ b, f a = pure b ∧ leaf? b = none)
    (hsome : ∀ a p, place? a = some p → ∃ g, f a = g <$> p.fill ∧ ∀ l, leaf? (g l) = some l)
    {as : List α} (h : queue.length ≤ (as.filterMap place?).length) :
    (fun r => (r.1.filterMap leaf?, r.2)) <$> (as.mapM f).run queue =
      (fun ls => (ls.map Leaf.literal ++ ((as.filterMap place?).drop queue.length).map .unfilled, [])) <$>
        queue.mapM ofRaw := by
  induction as generalizing queue with
  | nil =>
    rw [length_eq_zero_iff.1 (Nat.le_zero.1 h)]
    rfl
  | cons a as ih =>
    cases ha : place? a with
    | none =>
      obtain ⟨b, hb, hleaf⟩ := hnone a ha
      rw [filterMap_cons_none ha] at h ⊢
      rw [← ih h, mapM_cons, hb, pure_bind]
      simp [hleaf]
    | some p =>
      obtain ⟨g, hg, hleaf⟩ := hsome a p ha
      rw [filterMap_cons_some ha] at h ⊢
      cases queue with
      | nil =>
        have hrest := congrArg (Functor.map fun r : List Leaf × List (List Char) => (.unfilled p :: r.1, r.2))
          (@ih [] (Nat.zero_le _))
        simp only [Functor.map_map] at hrest
        rw [mapM_cons, hg, Placeholder.fill]
        simpa [hleaf] using hrest
      | cons raw queue =>
        have hrest : ∀ l : Literal, _ = _ := fun l =>
          congrArg (Functor.map fun r : List Leaf × List (List Char) => (.literal l :: r.1, r.2))
            (ih (Nat.le_of_succ_le_succ h))
        simp only [Functor.map_map] at hrest
        rw [mapM_cons, mapM_cons, hg, Placeholder.fill]
        simpa [hleaf] using bind_congr hrest

/-- The leaves of filled glyphs are the denotations of the queued literals, then the placeholders that are left. -/
theorem leaves_mapM_fill {gs : List (Glyph Placeholder)} (h : queue.length ≤ (Glyph.leaves gs).length) :
    (fun p => (Glyph.leaves p.1, p.2)) <$> (gs.mapM Glyph.fill).run queue =
      (fun ls => (ls.map Leaf.literal ++ ((Glyph.leaves gs).drop queue.length).map .unfilled, [])) <$>
        queue.mapM ofRaw := by
  refine filterMap_mapM_fill ?_ ?_ h
  · rintro (c | p) hp
    · exact ⟨.char c, rfl, rfl⟩
    · cases hp
  · rintro (c | p) q hq
    · cases hq
    · cases hq
      exact ⟨.leaf, by simp [Glyph.fill], fun _ => rfl⟩

theorem Code.leaves_fill {code : Code Placeholder} (h : queue.length ≤ code.leaves.length) :
    (fun p => (p.1.leaves, p.2)) <$> code.fill.run queue =
      (fun ls => (ls.map Leaf.literal ++ (code.leaves.drop queue.length).map .unfilled, [])) <$> queue.mapM ofRaw := by
  rw [Code.leaves, ← leaves_mapM_fill h, ← print_fill]
  simp [Code.leaves]

end Denotations

section Bodies

variable {body : Body Placeholder} {queue : List (List Char)}

theorem plain_intercalate {sep : List Char} {texts : List (List Char)} (hsep : Plain sep)
    (h : ∀ t ∈ texts, Plain t) : Plain (List.intercalate sep texts) := by
  induction texts with
  | nil => exact plain_nil
  | cons t texts ih =>
    obtain ⟨ht, hts⟩ := forall_mem_cons.1 h
    cases texts with
    | nil => simpa using ht
    | cons u texts =>
      rw [intercalate_cons_cons]
      exact plain_append.2 ⟨plain_append.2 ⟨ht, hsep⟩, ih hts⟩

theorem plain_header {ι : Type} (body : Body ι) : Plain body.header := by
  unfold Body.header
  split
  · exact plain_nil
  · refine plain_append.2 ⟨plain_append.2 ⟨plain_intercalate (by decide) ?_, by decide⟩,
      by decide⟩
    intro t ht
    obtain ⟨i, -, rfl⟩ := mem_map.1 ht
    exact (word_temporaryName (i + 1)).2

theorem placeholders_body (h : Separated none body.code.print) :
    placeholders (body.chars Placeholder.chars) = body.code.leaves.map Placeholder.delimiter := by
  rw [Body.chars, placeholders_plain_append (plain_header body)]
  exact placeholdersFrom_openText h

theorem fill_plain_append {ε : Type} {render : List Char → Except ε (List Char)} {zs rest : List Char} (h : Plain zs) :
    Literal.fill render queue (zs ++ rest) = (zs ++ ·) <$> Literal.fill render queue rest := by
  induction zs with
  | nil => simp
  | cons c zs ih =>
    obtain ⟨hc, hzs⟩ := plain_cons.1 h
    rw [cons_append, fill_cons (by simp [hc]), ih hzs]
    simp

/-- Restoring the literals in the text of a body is putting them into its code. -/
theorem fill_body (h : Separated none body.code.print) :
    Literal.fill spell queue (body.chars Placeholder.chars) = Body.chars Leaf.chars <$> body.fill queue := by
  have hcode : Literal.fill spell queue (body.code.chars Placeholder.chars) =
      (fun p => p.1.chars Leaf.chars) <$> body.code.fill.run queue := by
    rw [Code.chars, ← openText, fill_openText h, fillText, ← Code.print_fill]
    simp [Code.chars]
  rw [Body.chars, fill_plain_append (plain_header body), hcode, Body.fill]
  simp [Body.chars, Body.header]

end Bodies

end NullSafe
