import NullSafe.Proofs.Restoring

/-! # Literals of texts that are cut

A text can be cut between two of its pieces, and another text can follow the cut. The pieces before the cut are the same
if the other text does not close what the first one left open.
-/

namespace NullSafe.Literal

open Text List

section Continuing

variable {y y' gap gap' : List Char}

/-- What is still open before a text stays open before another one. -/
structure Continues (y y' : List Char) : Prop where
  open_ : ∀ d, isDelimiter d = true → ∀ w, closeLiteral d (w ++ y) = none → closeLiteral d (w ++ y') = none
  slash : y.head? ≠ some '/'
  flag : ∀ c ∈ y'.head?, c.isAlpha = false

/-- Plain characters can be put in the place of others before a text that starts with a plain character. -/
theorem continues_gap (hgap : ∀ c ∈ gap, isPlain c = true) (hgap' : ∀ c ∈ gap', isPlain c = true)
    (hy : ∀ c ∈ y.head?, isPlain c = true) (hflag : ∀ c ∈ (gap' ++ y).head?, c.isAlpha = false) :
    Continues (gap ++ y) (gap' ++ y) where
  open_ _ hd w := (closeLiteral_gap_congr hd hgap hgap' hy w).1
  slash hslash := by
    have hplain : isPlain '/' = true := by
      rcases gap with _ | ⟨c, gap⟩
      · exact hy _ hslash
      · cases hslash
        exact hgap _ (.head _)
    exact absurd hplain (by decide)
  flag := hflag

theorem continues_nil (hy : y.head? ≠ some '/') : Continues y [] where
  open_ d hd w h := by
    rcases hw : closeLiteral d w with _ | ⟨s, r⟩
    · rw [append_nil, hw]
    · rw [← (closeLiteral_eq_some hw).1, append_assoc, closeLiteral_append hd hw] at h
      cases h
  slash := hy
  flag := nofun

end Continuing

section Cuts

variable {last last' : Option Char} {cs rest : List Char} {ps : List Piece}

/-- A text starts with pieces, and then comes the rest, where the last character that is not blank is `last'`. -/
inductive Cut : Option Char → List Char → List Piece → Option Char → List Char → Prop where
  | here {last : Option Char} {cs : List Char} : Cut last cs [] last cs
  | literal {last last' : Option Char} {c : Char} {cs raw after rest : List Char} {ps : List Piece}
      (h : readLiteral? last (c :: cs) = some (raw, after)) (h' : Cut (some c) after ps last' rest) :
      Cut last (c :: cs) (.literal raw :: ps) last' rest
  | char {last last' : Option Char} {c : Char} {cs rest : List Char} {ps : List Piece}
      (h : readLiteral? last (c :: cs) = none) (h' : Cut (lastAfter last c) cs ps last' rest) :
      Cut last (c :: cs) (.char c :: ps) last' rest

theorem Cut.pieces (h : Cut last cs ps last' rest) : piecesFrom last cs = ps ++ piecesFrom last' rest := by
  induction h with
  | here => rfl
  | literal h _ ih => rw [piecesFrom_literal h, ih, cons_append]
  | char h _ ih => rw [piecesFrom_char h, ih, cons_append]

theorem cut_of_pieces {qs : List Piece} (h : piecesFrom last cs = ps ++ qs) :
    ∃ last' rest, Cut last cs ps last' rest ∧ qs = piecesFrom last' rest := by
  induction ps generalizing last cs with
  | nil => exact ⟨last, cs, .here, h.symm⟩
  | cons p ps ih =>
    rcases cs with _ | ⟨c, cs⟩
    · rw [piecesFrom] at h
      cases h
    · rcases hr : readLiteral? last (c :: cs) with _ | ⟨raw, after⟩
      · rw [piecesFrom_char hr, cons_append] at h
        obtain ⟨rfl, htail⟩ := List.cons.inj h
        obtain ⟨last', rest, hcut, hqs⟩ := ih htail
        exact ⟨last', rest, .char hr hcut, hqs⟩
      · rw [piecesFrom_literal hr, cons_append] at h
        obtain ⟨rfl, htail⟩ := List.cons.inj h
        obtain ⟨last', rest, hcut, hqs⟩ := ih htail
        exact ⟨last', rest, .literal hr hcut, hqs⟩

theorem Cut.text (h : Cut last cs ps last' rest) : cs = ps.flatMap Piece.text ++ rest := by
  induction h with
  | here => rfl
  | literal h _ ih => rw [flatMap_cons, append_assoc, ← ih, Piece.text, (readLiteral?_eq_some h).1]
  | char _ _ ih =>
    rw [flatMap_cons, append_assoc, ← ih]
    rfl

/-- A literal does not depend on the text behind it, except that letters would be flags of a pattern. -/
theorem readLiteral_append {raw after : List Char} (h : readLiteral? last cs = some (raw, after)) {after' : List Char}
    (hflag : raw.head? = some '/' → ∀ c ∈ after'.head?, c.isAlpha = false) :
    readLiteral? last (raw ++ after') = some (raw, after') := by
  obtain ⟨d, rest, s, r, rfl, hopen, hs, rfl, rfl⟩ := exists_of_readLiteral h
  obtain ⟨rfl, hlast⟩ := closeLiteral_eq_some hs
  have hne : s ≠ [] := by
    rintro rfl
    cases hlast
  have hall : ∀ x ∈ r.takeWhile (isFlag d), isFlag d x = true := fun x hx => mem_takeWhile_imp hx
  have hnone : after'.takeWhile (isFlag d) = [] ∧ after'.dropWhile (isFlag d) = after' := by
    rcases after' with _ | ⟨x, after'⟩
    · exact ⟨rfl, rfl⟩
    · have hx : isFlag d x = false := by
        by_cases hslash : d = '/'
        · rw [isFlag, hflag (congrArg some hslash) x rfl, Bool.and_false]
        · rw [isFlag, decide_eq_false hslash, Bool.false_and]
      simp [hx]
  have hopen' : opens last d (s ++ (r.takeWhile (isFlag d) ++ after')) = true := by
    rw [← hopen, opens, opens, head?_append_of_ne_nil _ hne, head?_append_of_ne_nil _ hne]
  rw [cons_append, cons_append, append_assoc, readLiteral?_cons, if_pos hopen',
    closeLiteral_append (isDelimiter_of_opens hopen) hs, Option.map_some]
  dsimp only
  rw [takeWhile_append_of_pos hall, dropWhile_append_of_pos hall, hnone.1, hnone.2, append_nil]
  rfl

/-- The flags of a pattern end before the text behind it. -/
theorem not_isAlpha_of_readLiteral {raw after : List Char} (h : readLiteral? last cs = some (raw, after))
    (hraw : raw.head? = some '/') : ∀ c ∈ after.head?, c.isAlpha = false := by
  obtain ⟨d, rest, s, r, rfl, -, -, rfl, rfl⟩ := exists_of_readLiteral h
  cases hraw
  intro c hc
  have hnot := head?_dropWhile_not (isFlag '/') r
  rw [Option.mem_def.1 hc] at hnot
  exact hnot

/-- A character that starts no literal does not start one where what is open stays open. -/
theorem Continues.readLiteral {y y' w : List Char} {c : Char} (hy : Continues y y')
    (h : readLiteral? last (c :: (w ++ y)) = none) : readLiteral? last (c :: (w ++ y')) = none := by
  rw [readLiteral?_cons] at h ⊢
  split
  · rename_i hopen
    have hopen' : opens last c (w ++ y) = true := by
      rcases w with _ | ⟨d, w⟩
      · -- nothing but a slash behind it would keep it from starting a pattern
        simp only [opens, Bool.or_eq_true, Bool.and_eq_true, bne_iff_ne] at hopen ⊢
        exact hopen.imp_right fun hopen => ⟨hopen.1, hy.slash⟩
      · exact hopen
    rw [if_pos hopen', Option.map_eq_none_iff] at h
    rw [hy.open_ c (isDelimiter_of_opens hopen) w h]
    rfl
  · rfl

/-- The pieces before a cut are the same if another text follows that keeps open what is open. -/
theorem Cut.continue (h : Cut last cs ps last' rest) {rest' : List Char} (hrest : Continues rest rest') :
    Cut last (ps.flatMap Piece.text ++ rest') ps last' rest' := by
  induction h with
  | here => exact .here
  | @literal last last' c cs raw after rest ps h h' ih =>
    have hflag : raw.head? = some '/' → ∀ x ∈ (ps.flatMap Piece.text ++ rest').head?, x.isAlpha = false := by
      intro hraw
      have hafter := not_isAlpha_of_readLiteral h hraw
      rw [h'.text] at hafter
      generalize ps.flatMap Piece.text = text at hafter ⊢
      rcases text with _ | ⟨x, text⟩
      · exact hrest.flag
      · exact hafter
    have hread := readLiteral_append h hflag
    obtain ⟨hraw, a, b, tail, rfl, -⟩ := readLiteral?_eq_some h
    cases (List.cons.inj hraw).1
    rw [flatMap_cons, append_assoc]
    exact .literal hread (ih hrest)
  | @char last last' c cs rest ps h h' ih =>
    rw [h'.text] at h
    exact .char (hrest.readLiteral h) (ih hrest)

end Cuts

section Ends

variable {last : Option Char} {cs raw after : List Char} {ps : List Piece} {gap xs : List Char}

/-- A literal ends with its delimiter or with a flag. -/
theorem getLast?_readLiteral (h : readLiteral? last cs = some (raw, after)) :
    ∃ c, raw.getLast? = some c ∧ (isDelimiter c = true ∨ c.isAlpha = true) := by
  obtain ⟨d, rest, s, r, rfl, hopen, hs, rfl, rfl⟩ := exists_of_readLiteral h
  rcases hflags : (r.takeWhile (isFlag d)).getLast? with _ | c
  · refine ⟨d, ?_, .inl (isDelimiter_of_opens hopen)⟩
    rw [getLast?_append, hflags, getLast?_cons, (closeLiteral_eq_some hs).2]
    rfl
  · have hflag : isFlag d c = true := mem_takeWhile_imp (mem_of_getLast? hflags)
    refine ⟨c, ?_, .inr (Bool.and_eq_true_iff.1 hflag).2⟩
    rw [getLast?_append, hflags]
    rfl

/-- A piece as it is found in a text: a literal starts with a delimiter and ends with one or with a flag. -/
def Piece.IsWhole : Piece → Prop
  | char _ => True
  | literal raw => (∃ c tail, raw = c :: tail ∧ isDelimiter c = true) ∧
      ∃ c, raw.getLast? = some c ∧ (isDelimiter c = true ∨ c.isAlpha = true)

theorem isWhole_of_mem_piecesFrom (last : Option Char) (cs : List Char) : ∀ p ∈ piecesFrom last cs, p.IsWhole := by
  fun_induction piecesFrom last cs with
  | case1 => simp
  | case2 last c rest raw after hr ih =>
    refine forall_mem_cons.2 ⟨⟨?_, getLast?_readLiteral hr⟩, ih⟩
    obtain ⟨happ, a, b, tail, rfl, -⟩ := readLiteral?_eq_some hr
    cases (List.cons.inj happ).1
    exact ⟨_, _, rfl, (readLiteral_start hr).2.1⟩
  | case3 last c rest hr ih => exact forall_mem_cons.2 ⟨trivial, ih⟩

theorem isBlank_eq_false_of_ends {c : Char} (h : isDelimiter c = true ∨ c.isAlpha = true) : isBlank c = false := by
  rcases h with h | h
  · rcases isDelimiter_iff.1 h with (rfl | rfl) | rfl <;> decide
  · refine Surface.isBlank_eq_false_of_isNameRest ?_
    simp [Surface.isNameRest, Char.isAlphanum, h]

/-- Blanks at the end of a text are no parts of literals. -/
theorem exists_of_blank_end {x : List Char} (hps : ∀ p ∈ ps, p.IsWhole) (hgap : Blank gap)
    (h : ps.flatMap Piece.text = x ++ gap) : ∃ qs, ps = qs ++ gap.map .char ∧ qs.flatMap Piece.text = x := by
  induction gap using List.reverseRecOn generalizing ps with
  | nil => exact ⟨ps, by simp, by simpa using h⟩
  | append_singleton gap c ih =>
    obtain ⟨hinit, hc⟩ := forall_mem_append.1 hgap
    rcases eq_nil_or_concat ps with rfl | ⟨qs, p, rfl⟩
    · simp at h
    · rw [concat_eq_append] at hps h ⊢
      obtain ⟨hqs, hp⟩ := forall_mem_append.1 hps
      rw [flatMap_append, flatMap_singleton, ← append_assoc] at h
      have hlast : p.text.getLast? = some c := by
        have hne : p.text ≠ [] := by
          rcases p with d | raw
          · nofun
          · obtain ⟨⟨d, tail, rfl, -⟩, -⟩ := hp _ (.head _)
            nofun
        have heq := congrArg List.getLast? h
        rwa [getLast?_append_of_ne_nil _ hne, getLast?_concat] at heq
      rcases p with d | raw
      · obtain rfl : d = c := Option.some.inj hlast
        obtain ⟨qs', rfl, hx⟩ := ih hqs hinit (append_cancel_right h)
        exact ⟨qs', by simp, hx⟩
      · obtain ⟨-, d, hd, hends⟩ := hp _ (.head _)
        rw [show raw.getLast? = some c from hlast] at hd
        cases hd
        have hblank := isBlank_eq_false_of_ends hends
        rw [hc _ (.head _)] at hblank
        cases hblank

/-- Where a text can be cut, the pieces before the cut are those of the text before it. -/
theorem pieces_left {qs : List Piece} {ys : List Char} (h : pieces (xs ++ ys) = ps ++ qs)
    (hps : ps.flatMap Piece.text = xs) (hys : ys.head? ≠ some '/') : pieces xs = ps := by
  obtain ⟨last, rest, hcut, -⟩ := cut_of_pieces h
  have htext := hcut.text
  rw [hps] at htext
  cases append_cancel_left htext
  have hpieces := (hcut.continue (continues_nil hys)).pieces
  rwa [hps, append_nil, show piecesFrom last [] = [] by rw [piecesFrom], append_nil] at hpieces

theorem pieces_append_blank (hgap : Blank gap) : pieces (xs ++ gap) = pieces xs ++ gap.map .char := by
  obtain ⟨qs, hqs, hxs⟩ := exists_of_blank_end (isWhole_of_mem_piecesFrom none (xs ++ gap)) hgap
    (text_piecesFrom none _)
  have hnext : gap.head? ≠ some '/' := fun hslash => absurd (hgap _ (mem_of_head? hslash)) (by decide)
  rw [pieces_left hqs hxs hnext]
  exact hqs

theorem isolate_append_blank (hgap : Blank gap) : isolate (xs ++ gap) = isolate xs ++ gap := by
  rw [isolate, pieces_append_blank hgap, flatMap_append, flatMap_map]
  exact congrArg (_ ++ ·) (flatMap_singleton' gap)

end Ends

end NullSafe.Literal
