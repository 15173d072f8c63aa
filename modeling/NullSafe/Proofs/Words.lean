import NullSafe.Proofs.Placeholders

/-! # Word operators

A word operator stands between characters that continue no word, so a text can be cut at such a character. Names have no
operators in them.
-/

namespace NullSafe.Surface

open Text

variable {c : Char} {before before' : Option Char} {xs ys : List Char}

theorem replaceWordsFrom_congr (h : wordCanStart before = wordCanStart before') (cs : List Char) :
    replaceWordsFrom before cs = replaceWordsFrom before' cs := by
  unfold replaceWordsFrom
  rw [h]

def StartsWord (cs : List Char) : Prop :=
  (∃ rest, cs = 'a' :: 'n' :: 'd' :: rest) ∨ ∃ rest, cs = 'o' :: 'r' :: rest

theorem replaceWordsFrom_cons (h : ¬ StartsWord (c :: xs)) :
    replaceWordsFrom before (c :: xs) = c :: replaceWordsFrom (some c) xs := by
  rw [replaceWordsFrom]
  · rintro rest rfl rfl
    exact h (.inl ⟨rest, rfl⟩)
  · rintro rest rfl rfl
    exact h (.inr ⟨rest, rfl⟩)

variable (hc : continuesWord c = false)

include hc

theorem not_startsWord_of_ends : ¬ StartsWord (c :: xs) := by
  rintro (⟨rest, h⟩ | ⟨rest, h⟩) <;> cases h <;> exact absurd hc (by decide)

/-- A word that starts before a character that continues no word ends before it. -/
theorem not_startsWord_append (h : ¬ StartsWord xs) (hne : xs ≠ []) : ¬ StartsWord (xs ++ c :: ys) := by
  rintro (⟨rest, heq⟩ | ⟨rest, heq⟩)
  · match xs, hne with
    | [x], _ => cases heq; exact absurd hc (by decide)
    | [x, y], _ => cases heq; exact absurd hc (by decide)
    | x :: y :: z :: xs, _ => cases heq; exact h (.inl ⟨xs, rfl⟩)
  · match xs, hne with
    | [x], _ => cases heq; exact absurd hc (by decide)
    | x :: y :: xs, _ => cases heq; exact h (.inr ⟨xs, rfl⟩)

theorem wordCanEnd_append : wordCanEnd (xs ++ c :: ys) = wordCanEnd xs := by
  cases xs with
  | nil => exact congrArg (! ·) hc
  | cons x xs => rfl

/-- The operators of a text are those before and those after a character that continues no word. -/
theorem replaceWordsFrom_append_cons :
    replaceWordsFrom before (xs ++ c :: ys) = replaceWordsFrom before xs ++ c :: replaceWordsFrom (some c) ys := by
  fun_induction replaceWordsFrom before xs with
  | case1 => exact replaceWordsFrom_cons (not_startsWord_of_ends hc)
  | case2 before rest h ih =>
    simp only [List.cons_append, replaceWordsFrom, wordCanEnd_append hc, if_pos h, ih]
  | case3 before rest h ih =>
    simp only [List.cons_append] at ih
    simp only [List.cons_append, replaceWordsFrom, wordCanEnd_append hc, if_neg h, ih]
  | case4 before rest h ih =>
    simp only [List.cons_append, replaceWordsFrom, wordCanEnd_append hc, if_pos h, ih]
  | case5 before rest h ih =>
    simp only [List.cons_append] at ih
    simp only [List.cons_append, replaceWordsFrom, wordCanEnd_append hc, if_neg h, ih]
  | case6 before x rest hand hor ih =>
    have hword : ¬ StartsWord (x :: rest) := by
      rintro (⟨r, h⟩ | ⟨r, h⟩)
      · exact hand r (List.cons.inj h).1 (List.cons.inj h).2
      · exact hor r (List.cons.inj h).1 (List.cons.inj h).2
    have happend : ¬ StartsWord (x :: (rest ++ c :: ys)) := not_startsWord_append hc hword nofun
    rw [List.cons_append, replaceWordsFrom_cons happend, ih, List.cons_append]

omit hc

theorem continuesWord_of_isNameRest (h : isNameRest c = true) : continuesWord c = true := by
  simp only [isNameRest, Bool.or_eq_true, decide_eq_true_eq] at h
  rw [continuesWord, Bool.or_eq_true, isWord]
  rcases h with (h | rfl) | rfl
  · left
    rw [if_pos ((toNat_of_isAlphanum h).2), isAsciiWord, h]
    rfl
  · decide
  · decide

section Replaced

/-- A text with some of its word operators replaced. -/
inductive Replaced : List Char → List Char → Prop where
  | nil : Replaced [] []
  | both {xs ys : List Char} (h : Replaced xs ys) : Replaced ('a' :: 'n' :: 'd' :: xs) ('&' :: '&' :: ys)
  | either {xs ys : List Char} (h : Replaced xs ys) : Replaced ('o' :: 'r' :: xs) ('|' :: '|' :: ys)
  | cons (c : Char) {xs ys : List Char} (h : Replaced xs ys) : Replaced (c :: xs) (c :: ys)

theorem replaced_replaceWordsFrom (before : Option Char) (cs : List Char) :
    Replaced cs (replaceWordsFrom before cs) := by
  fun_induction replaceWordsFrom before cs with
  | case1 => exact .nil
  | case2 before rest _ ih => exact .both ih
  | case3 before rest _ ih => exact .cons 'a' ih
  | case4 before rest _ ih => exact .either ih
  | case5 before rest _ ih => exact .cons 'o' ih
  | case6 before c rest _ _ ih => exact .cons c ih

theorem Replaced.refl : ∀ cs : List Char, Replaced cs cs
  | [] => .nil
  | c :: cs => .cons c (.refl cs)

theorem Replaced.cons_of_ends (hc : continuesWord c = false) (h : Replaced (c :: xs) ys) :
    ∃ ys', ys = c :: ys' ∧ Replaced xs ys' := by
  cases h with
  | both | either => exact absurd hc (by decide)
  | cons _ h => exact ⟨_, rfl, h⟩

theorem Replaced.getLast? (h : Replaced xs ys) (hc : continuesWord c = false) (hlast : xs.getLast? = some c) :
    ys.getLast? = some c := by
  induction h with
  | nil => cases hlast
  | @both xs ys h ih =>
    cases xs with
    | nil => cases hlast; exact absurd hc (by decide)
    | cons x xs =>
      have hys := ih hlast
      cases ys with
      | nil => cases hys
      | cons y ys => exact hys
  | @either xs ys h ih =>
    cases xs with
    | nil => cases hlast; exact absurd hc (by decide)
    | cons x xs =>
      have hys := ih hlast
      cases ys with
      | nil => cases hys
      | cons y ys => exact hys
  | @cons c' xs ys h ih =>
    cases xs with
    | nil => cases h; exact hlast
    | cons x xs =>
      have hys := ih hlast
      cases ys with
      | nil => cases hys
      | cons y ys => exact hys

end Replaced

section Names

variable {n : List Char}

theorem replaceWordsFrom_of_continues (hbefore : wordCanStart before = false) (h : ∀ c ∈ n, continuesWord c = true) :
    replaceWordsFrom before n = n := by
  induction n generalizing before with
  | nil => rfl
  | cons c n ih =>
    obtain ⟨hc, hn⟩ := List.forall_mem_cons.1 h
    have hnext : replaceWordsFrom (some c) n = n := ih (by simp [wordCanStart, hc]) hn
    by_cases hword : StartsWord (c :: n)
    · rcases hword with ⟨rest, heq⟩ | ⟨rest, heq⟩ <;> cases heq <;>
        rw [replaceWordsFrom, hbefore, Bool.false_and, if_neg Bool.false_ne_true, hnext]
    · rw [replaceWordsFrom_cons hword, hnext]

theorem wordCanEnd_eq_false {n : List Char} (hne : n ≠ []) (h : ∀ c ∈ n, continuesWord c = true) :
    wordCanEnd n = false := by
  obtain ⟨c, n, rfl⟩ := List.exists_cons_of_ne_nil hne
  rw [wordCanEnd, h c (.head _)]
  rfl

theorem replaceWordsFrom_name (hand : n ≠ "and".toList) (hor : n ≠ "or".toList) (h : ∀ c ∈ n, continuesWord c = true) :
    replaceWordsFrom before n = n := by
  cases n with
  | nil => rfl
  | cons c n =>
    obtain ⟨hc, hn⟩ := List.forall_mem_cons.1 h
    have hnext : replaceWordsFrom (some c) n = n := replaceWordsFrom_of_continues (by simp [wordCanStart, hc]) hn
    by_cases hword : StartsWord (c :: n)
    · rcases hword with ⟨rest, heq⟩ | ⟨rest, heq⟩ <;> cases heq
      · have hend : wordCanEnd rest = false :=
          wordCanEnd_eq_false (by rintro rfl; exact hand rfl) fun c hc => hn c (.tail _ (.tail _ hc))
        rw [replaceWordsFrom, hend, Bool.and_false, if_neg Bool.false_ne_true, hnext]
      · have hend : wordCanEnd rest = false :=
          wordCanEnd_eq_false (by rintro rfl; exact hor rfl) fun c hc => hn c (.tail _ hc)
        rw [replaceWordsFrom, hend, Bool.and_false, if_neg Bool.false_ne_true, hnext]
    · rw [replaceWordsFrom_cons hword, hnext]

end Names

end NullSafe.Surface
