import Mathlib.Data.List.Basic
import NullSafe.Literal.Table

/-! # Delimiters of literals

Strings and patterns are closed by their delimiters in the same way. Only a pattern is broken by the end of a line, and
only a pattern is followed by flags.
-/

namespace NullSafe.Literal

open List

section Closing

variable {c d : Char} {last : Option Char} {cs s r raw after : List Char}

theorem isDelimiter_iff : isDelimiter c = true ↔ (c = '\x27' ∨ c = '"') ∨ c = '/' := by
  simp [isDelimiter]

theorem ne_backslash_of_isDelimiter (hd : isDelimiter d = true) : d ≠ '\\' := by
  rintro rfl
  cases hd

def breaks (d c : Char) : Bool := d = '/' && c = '\n'

/-- Reads on to the delimiter that closes a literal: the part up to and including it, and the rest. -/
def closeLiteral (d : Char) : List Char → Option (List Char × List Char)
  | [] => none
  | '\\' :: c :: rest => if breaks d c then none else (closeLiteral d rest).map fun (s, r) => ('\\' :: c :: s, r)
  | c :: rest =>
    if c = d then some ([c], rest)
    else if c = '\\' || breaks d c then none
    else (closeLiteral d rest).map fun (s, r) => (c :: s, r)

theorem closeString_eq (hd : d ≠ '/') (cs : List Char) : closeString d cs = closeLiteral d cs := by
  have hbreaks (c : Char) : breaks d c = false := by simp [breaks, hd]
  fun_induction closeString d cs <;> simp_all [closeLiteral]

theorem closePattern_eq (cs : List Char) : closePattern cs = closeLiteral '/' cs := by
  fun_induction closePattern cs <;> simp_all [closeLiteral, breaks]

theorem closeLiteral_eq_some (h : closeLiteral d cs = some (s, r)) : s ++ r = cs ∧ s.getLast? = some d := by
  fun_induction closeLiteral d cs generalizing s r with
  | case1 | case2 | case5 => cases h
  | case4 => cases h; exact ⟨rfl, rfl⟩
  | case3 _ _ _ ih | case6 _ _ _ _ _ ih =>
    obtain ⟨⟨s', r'⟩, h', e⟩ := Option.map_eq_some_iff.1 h
    cases e
    obtain ⟨rfl, hlast⟩ := ih h'
    rcases s' with _ | ⟨c, s'⟩
    · cases hlast
    · exact ⟨rfl, hlast⟩

theorem closeLiteral_cons (hc : c ≠ '\\') (rest : List Char) :
    closeLiteral d (c :: rest) = if c = d then some ([c], rest) else if breaks d c then none
      else (closeLiteral d rest).map fun (s, r) => (c :: s, r) := by
  rw [closeLiteral, decide_eq_false hc, Bool.false_or]
  exact fun _ _ h => absurd h hc

/-- What closes a literal does not depend on the text behind it. -/
theorem closeLiteral_append (hd : isDelimiter d = true) (h : closeLiteral d cs = some (s, r)) (r' : List Char) :
    closeLiteral d (s ++ r') = some (s, r') := by
  fun_induction closeLiteral d cs generalizing s r with
  | case1 | case2 | case5 => cases h
  | case4 =>
    cases h
    rw [singleton_append, closeLiteral_cons (ne_backslash_of_isDelimiter hd), if_pos rfl]
  | case3 c rest hc ih =>
    obtain ⟨⟨s', r''⟩, hs, he⟩ := Option.map_eq_some_iff.1 h
    cases he
    simp only [cons_append, closeLiteral, if_neg hc, ih hs, Option.map_some]
  | case6 c rest _ hclose hbreak ih =>
    obtain ⟨⟨s', r''⟩, hs, he⟩ := Option.map_eq_some_iff.1 h
    cases he
    rw [Bool.or_eq_true, not_or, decide_eq_true_eq] at hbreak
    rw [cons_append, closeLiteral_cons hbreak.1, if_neg hclose, if_neg hbreak.2, ih hs, Option.map_some]

end Closing

section Plain

variable {c d : Char} {y gap gap' : List Char} (hd : isDelimiter d = true)

/-- Whether a character has no meaning inside a literal: it closes none and is not an escape or a line break. -/
def isPlain (c : Char) : Bool := !(['\x27', '"', '/', '\\', '\n'].contains c)

theorem ne_of_isPlain {x : Char} (h : isPlain c = true) (hx : isPlain x = false) : c ≠ x := by
  rintro rfl
  rw [h] at hx
  cases hx

theorem breaks_of_isPlain (hc : isPlain c = true) : breaks d c = false := by
  rw [breaks, decide_eq_false (ne_of_isPlain hc (by decide)), Bool.and_false]

theorem closeLiteral_escaped (hc : breaks d c = false) (rest : List Char) :
    closeLiteral d ('\\' :: c :: rest) = none ↔ closeLiteral d rest = none := by
  rw [closeLiteral, hc, if_neg Bool.false_ne_true, Option.map_eq_none_iff]

theorem closeLiteral_cons_congr {xs ys : List Char} (hc : c ≠ '\\')
    (h : closeLiteral d xs = none ↔ closeLiteral d ys = none) :
    closeLiteral d (c :: xs) = none ↔ closeLiteral d (c :: ys) = none := by
  rw [closeLiteral_cons hc, closeLiteral_cons hc]
  split
  · exact iff_of_false nofun nofun
  · split
    · exact Iff.rfl
    · rw [Option.map_eq_none_iff, Option.map_eq_none_iff, h]

include hd

theorem closeLiteral_plain (hc : isPlain c = true) (rest : List Char) :
    closeLiteral d (c :: rest) = none ↔ closeLiteral d rest = none := by
  have hclose : c ≠ d := ne_of_isPlain hc (by rcases isDelimiter_iff.1 hd with (rfl | rfl) | rfl <;> decide)
  rw [closeLiteral_cons (ne_of_isPlain hc (by decide)), if_neg hclose, breaks_of_isPlain hc, if_neg Bool.false_ne_true,
    Option.map_eq_none_iff]

variable (hgap : ∀ c ∈ gap, isPlain c = true)

include hgap

theorem closeLiteral_plains : closeLiteral d (gap ++ y) = none ↔ closeLiteral d y = none := by
  induction gap with
  | nil => exact Iff.rfl
  | cons c gap ih =>
    obtain ⟨hc, hgap⟩ := forall_mem_cons.1 hgap
    rw [cons_append, closeLiteral_plain hd hc, ih hgap]

/-- An escape takes one plain character, if there is one, and changes nothing else. -/
theorem closeLiteral_escape (hy : ∀ c ∈ y.head?, isPlain c = true) :
    closeLiteral d ('\\' :: (gap ++ y)) = none ↔ closeLiteral d y = none := by
  rcases gap with _ | ⟨c, gap⟩
  · rcases y with _ | ⟨c, y⟩
    · rcases isDelimiter_iff.1 hd with (rfl | rfl) | rfl <;> exact iff_of_true rfl rfl
    · rw [nil_append, closeLiteral_escaped (breaks_of_isPlain (hy c rfl)), closeLiteral_plain hd (hy c rfl)]
  · obtain ⟨hc, hgap⟩ := forall_mem_cons.1 hgap
    rw [cons_append, closeLiteral_escaped (breaks_of_isPlain hc), closeLiteral_plains hd hgap]

/-- Whether a literal is closed behind a text does not depend on plain characters before the rest. -/
theorem closeLiteral_gap_congr (hgap' : ∀ c ∈ gap', isPlain c = true)
    (hy : ∀ c ∈ y.head?, isPlain c = true) (w : List Char) :
    closeLiteral d (w ++ (gap ++ y)) = none ↔ closeLiteral d (w ++ (gap' ++ y)) = none := by
  fun_induction closeLiteral d w with
  | case1 => rw [nil_append, nil_append, closeLiteral_plains hd hgap, closeLiteral_plains hd hgap']
  | case2 c rest hc =>
    have hnone (r : List Char) : closeLiteral d ('\\' :: c :: r) = none := by rw [closeLiteral, if_pos hc]
    exact iff_of_true (hnone _) (hnone _)
  | case3 c rest hc ih =>
    rw [Bool.not_eq_true] at hc
    simp only [cons_append, closeLiteral_escaped hc, ih]
  | case4 rest =>
    have hclosed (r : List Char) : closeLiteral d (d :: r) ≠ none := by
      rw [closeLiteral_cons (ne_backslash_of_isDelimiter hd), if_pos rfl]
      nofun
    exact iff_of_false (hclosed _) (hclosed _)
  | case5 c rest hrest hclose hbreak =>
    by_cases hslash : c = '\\'
    · subst hslash
      obtain rfl : rest = [] := by
        rcases rest with _ | ⟨c, rest⟩
        · rfl
        · exact (hrest c rest rfl rfl).elim
      rw [singleton_append, singleton_append, closeLiteral_escape hd hgap hy, closeLiteral_escape hd hgap' hy]
    · rw [decide_eq_false hslash, Bool.false_or] at hbreak
      have hnone (r : List Char) : closeLiteral d (c :: r) = none := by
        rw [closeLiteral_cons hslash, if_neg hclose, if_pos hbreak]
      exact iff_of_true (hnone _) (hnone _)
  | case6 c rest _ hclose hbreak ih =>
    rw [Bool.or_eq_true, not_or, decide_eq_true_eq] at hbreak
    exact closeLiteral_cons_congr hbreak.1 ih

end Plain

section Reading

variable {c d : Char} {last : Option Char} {cs s r raw after : List Char}

/-- Whether a character opens a literal before a text. -/
def opens (last : Option Char) (c : Char) (cs : List Char) : Bool :=
  (c = '\x27' || c = '"') || (c = '/' && operandCanStart last && cs.head? != some '/')

def isFlag (d c : Char) : Bool := d = '/' && c.isAlpha

theorem readLiteral?_cons (last : Option Char) (c : Char) (cs : List Char) :
    readLiteral? last (c :: cs) = if opens last c cs then
      (closeLiteral c cs).map fun (s, r) => (c :: s ++ r.takeWhile (isFlag c), r.dropWhile (isFlag c)) else none := by
  rw [readLiteral?, opens]
  split
  · rename_i hc
    have hslash : c ≠ '/' := by
      rintro rfl
      cases hc
    have hflag (r : List Char) : r.takeWhile (isFlag c) = [] ∧ r.dropWhile (isFlag c) = r := by
      cases r <;> simp [isFlag, hslash]
    simp only [hc, Bool.true_or, if_true, closeString_eq hslash, hflag, append_nil]
  · rename_i hc
    simp only [Bool.not_eq_true] at hc
    rw [hc, Bool.false_or]
    split
    · rename_i hopen
      obtain rfl : c = '/' := by simp_all
      rw [closePattern_eq, show isFlag '/' = Char.isAlpha from rfl]
    · rfl

theorem isDelimiter_of_opens (h : opens last d cs = true) : isDelimiter d = true := by
  simp only [opens, Bool.or_eq_true, Bool.and_eq_true, decide_eq_true_eq] at h
  exact isDelimiter_iff.2 (h.imp_right fun h => h.1.1)

theorem exists_of_readLiteral (h : readLiteral? last cs = some (raw, after)) :
    ∃ d rest s r, cs = d :: rest ∧ opens last d rest = true ∧ closeLiteral d rest = some (s, r) ∧
      raw = d :: s ++ r.takeWhile (isFlag d) ∧ after = r.dropWhile (isFlag d) := by
  rcases cs with _ | ⟨d, rest⟩
  · cases h
  · rw [readLiteral?_cons] at h
    obtain ⟨hopen, h⟩ := Option.ite_none_right_eq_some.1 h
    obtain ⟨⟨s, r⟩, hs, he⟩ := Option.map_eq_some_iff.1 h
    cases he
    exact ⟨d, rest, s, r, rfl, hopen, hs, rfl, rfl⟩

theorem literals_eq_flatMap (cs : List Char) : literals cs = (pieces cs).flatMap fun p => p.literal?.toList :=
  filterMap_eq_flatMap_toList _ _

end Reading

end NullSafe.Literal
