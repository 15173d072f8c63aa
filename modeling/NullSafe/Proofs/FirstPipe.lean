import NullSafe.Proofs.Cutting

/-! # The first pipe of a text

The first formatter pipe is looked for in a text with its literals. It is where the text with its literals set aside is
split first.
-/

namespace NullSafe.Surface

open Text Literal List Piece

variable {ps before after : List Piece} {d : Int} {b b' : Option Char} {pos : Nat}

theorem head?_flatMap_isolated (h : ∀ p ∈ ps, p.IsWhole) :
    (ps.flatMap isolated).head? = (ps.head?.elim [] Piece.text).head? := by
  rcases ps with _ | ⟨p, ps⟩
  · rfl
  · rcases p with c | raw
    · rfl
    · obtain ⟨⟨c, tail, rfl, -⟩, -⟩ := h _ (.head _)
      rfl

theorem ne_bar_of_isDelimiter {c : Char} (h : isDelimiter c = true) : c ≠ '|' ∧ depthStep c = 0 := by
  rcases isDelimiter_iff.1 h with (rfl | rfl) | rfl <;> exact ⟨by decide, rfl⟩

theorem separates_bar (hps : ∀ p ∈ ps, p.IsWhole) (hb : b = some '|' ↔ b' = some '|') :
    separates '|' b' (ps.flatMap isolated) = isLoneBar b (ps.head?.elim [] Piece.text) := by
  have hbar : (b != some '|') = (b' != some '|') := by
    rw [Bool.eq_iff_iff, bne_iff_ne, bne_iff_ne, ne_eq, ne_eq, hb]
  rw [separates, isLoneBar, isLoneBar, head?_flatMap_isolated hps, hbar]
  rfl

theorem getLast?_ne_bar {raw : List Char} (h : (literal raw).IsWhole) : raw.getLast? ≠ some '|' := by
  obtain ⟨-, c, hc, hends⟩ := h
  rw [hc]
  rintro ⟨⟩
  exact absurd hends (by decide)

theorem splitFrom_ne_bar {c : Char} {rest : List Char} (hc : c ≠ '|') (hdepth : depthStep c = 0) :
    (splitFrom '|' d b (c :: rest)).2 = (splitFrom '|' d (some c) rest).2 := by
  rw [splitFrom_cons (by simp [hc]), hdepth, Int.add_zero]
  rfl

theorem splitFrom_of_findPipe_none (hps : ∀ p ∈ ps, p.IsWhole) (hb : b = some '|' ↔ b' = some '|')
    (h : findPipeFrom pos d b ps = none) : (splitFrom '|' d b' (ps.flatMap isolated)).2 = [] := by
  induction ps generalizing pos d b b' with
  | nil => rfl
  | cons p ps ih =>
    obtain ⟨hp, hrest⟩ := forall_mem_cons.1 hps
    rw [flatMap_cons]
    rcases p with c | raw
    · rw [findPipeFrom] at h
      split at h
      · cases h
      · rename_i hpipe
        rw [← separates_bar hrest hb, Bool.not_eq_true] at hpipe
        change (splitFrom '|' d b' (c :: ps.flatMap isolated)).2 = []
        rw [splitFrom_cons hpipe]
        exact ih hrest Iff.rfl h
    · have hlast := getLast?_ne_bar hp
      obtain ⟨⟨c, tail, rfl, hc⟩, -⟩ := hp
      obtain ⟨hbar, hdepth⟩ := ne_bar_of_isDelimiter hc
      change (splitFrom '|' d b' (c :: c :: ps.flatMap isolated)).2 = []
      rw [splitFrom_ne_bar hbar hdepth, splitFrom_ne_bar hbar hdepth]
      exact ih hrest (iff_of_false hlast fun he => hbar (Option.some.inj he)) h

structure IsFirstPipe (d : Int) (b : Option Char) (xs ys : List Char) : Prop where
  unsplit : (splitFrom '|' d b xs).2 = []
  depth : d + depthOf xs = 0
  last : lastOr b xs ≠ some '|'
  next : ys.head? ≠ some '|'

theorem IsFirstPipe.splitFrom {xs ys : List Char} (h : IsFirstPipe d b xs ys) :
    splitFrom '|' d b (xs ++ '|' :: ys) =
      (xs, (splitFrom '|' 0 (some '|') ys).1 :: (splitFrom '|' 0 (some '|') ys).2) := by
  have hlone : separates '|' (lastOr b xs) ys = true := by simp [separates, isLoneBar, h.last, h.next]
  rw [splitFrom_append h.unsplit, h.depth, Surface.splitFrom, hlone, show (0 : Int) + depthStep '|' = 0 from rfl]
  simp [prepend]

theorem IsFirstPipe.cons {c : Char} {xs ys : List Char} (h : IsFirstPipe (d + depthStep c) (some c) xs ys)
    (hc : (c = '|' && d = 0 && separates '|' b (xs ++ '|' :: ys)) = false) : IsFirstPipe d b (c :: xs) ys where
  unsplit := by
    have hc' : (c = '|' && d = 0 && separates '|' b xs) = false := by
      rcases xs with _ | ⟨x, xs⟩
      · have hbar : c ≠ '|' := fun he => h.last (congrArg some he)
        simp [hbar]
      · exact hc
    rw [splitFrom_cons hc']
    exact h.unsplit
  depth := by
    have := h.depth
    rw [depthOf_cons]
    omega
  last := by
    rw [lastOr_cons]
    exact h.last
  next := h.next

theorem exists_of_findPipe {i : Nat} (hps : ∀ p ∈ ps, p.IsWhole) (hb : b = some '|' ↔ b' = some '|')
    (h : findPipeFrom pos d b ps = some i) : ∃ before after, ps = before ++ Piece.char '|' :: after ∧
      i = pos + (before.flatMap Piece.text).length ∧
      IsFirstPipe d b' (before.flatMap isolated) (after.flatMap isolated) := by
  induction ps generalizing pos d b b' with
  | nil => cases h
  | cons p ps ih =>
    obtain ⟨hp, hrest⟩ := forall_mem_cons.1 hps
    rcases p with c | raw
    · rw [findPipeFrom] at h
      split at h
      · rename_i hpipe
        cases h
        rw [← separates_bar hrest hb] at hpipe
        simp only [Bool.and_eq_true, decide_eq_true_eq, separates, isLoneBar, bne_self_eq_false, Bool.false_or,
          bne_iff_ne, ne_eq] at hpipe
        obtain ⟨⟨rfl, rfl⟩, hlast, hnext⟩ := hpipe
        exact ⟨[], ps, rfl, rfl, rfl, rfl, hlast, hnext⟩
      · rename_i hpipe
        rw [← separates_bar hrest hb, Bool.not_eq_true] at hpipe
        obtain ⟨before, after, rfl, rfl, hfirst⟩ := ih hrest (Iff.refl (some c = some '|')) h
        refine ⟨.char c :: before, after, rfl, ?_, hfirst.cons ?_⟩
        · simp only [flatMap_cons, Piece.text, length_append, length_singleton]
          omega
        · rwa [flatMap_append, flatMap_cons] at hpipe
    · have hlast := getLast?_ne_bar hp
      obtain ⟨⟨c, tail, rfl, hc⟩, -⟩ := hp
      obtain ⟨hbar, hdepth⟩ := ne_bar_of_isDelimiter hc
      have hstep : c :: tail = (literal (c :: tail)).text := rfl
      obtain ⟨before, after, rfl, rfl, hfirst⟩ :=
        ih hrest (iff_of_false hlast fun he => hbar (Option.some.inj he) : _ ↔ some c = some '|') h
      have hpass (b : Option Char) {xs ys : List Char} (h : IsFirstPipe d (some c) xs ys) :
          IsFirstPipe d b (c :: xs) ys :=
        IsFirstPipe.cons (by rwa [hdepth, Int.add_zero]) (by simp [hbar])
      refine ⟨.literal (c :: tail) :: before, after, rfl, ?_, hpass b' (hpass (some c) hfirst)⟩
      simp only [flatMap_cons, Piece.text, length_append]
      omega

section Splits

variable {cs : List Char} {i : Nat}

/-- The text before the pipe that is found is the first part, once literals are set aside. -/
theorem splitPipes_of_findPipe (h : findPipe cs = some i) :
    ∃ part parts, splitPipes (isolate cs) = isolate (cs.take i) :: part :: parts := by
  obtain ⟨before, after, hpieces, rfl, hfirst⟩ := exists_of_findPipe (isWhole_of_mem_piecesFrom none cs) Iff.rfl h
  have hcs : cs = before.flatMap Piece.text ++ '|' :: after.flatMap Piece.text := by
    rw [← text_piecesFrom none cs, hpieces, flatMap_append, flatMap_cons]
    rfl
  have hbefore : pieces (before.flatMap Piece.text) = before := by
    have hjoined : pieces (before.flatMap Piece.text ++ '|' :: after.flatMap Piece.text) =
        before ++ Piece.char '|' :: after := by
      rw [← hcs]
      exact hpieces
    exact pieces_left hjoined rfl (by simp)
  have htake : cs.take (0 + (before.flatMap Piece.text).length) = before.flatMap Piece.text := by
    rw [Nat.zero_add, hcs, take_left]
  have hisolate : isolate cs = before.flatMap isolated ++ '|' :: after.flatMap isolated := by
    rw [isolate, show pieces cs = _ from hpieces, flatMap_append, flatMap_cons]
    rfl
  refine ⟨(splitFrom '|' 0 (some '|') (after.flatMap isolated)).1,
    (splitFrom '|' 0 (some '|') (after.flatMap isolated)).2, ?_⟩
  rw [htake, hisolate, splitPipes, splitTop, hfirst.splitFrom, isolate, hbefore]

theorem splitPipes_of_findPipe_none (h : findPipe cs = none) : splitPipes (isolate cs) = [isolate cs] := by
  have hnil : (splitFrom '|' 0 none (isolate cs)).2 = [] :=
    splitFrom_of_findPipe_none (isWhole_of_mem_piecesFrom none cs) Iff.rfl h
  have hsplit := splitFrom_append hnil []
  rw [append_nil] at hsplit
  rw [splitPipes, splitTop, hsplit]
  simp [prepend, splitFrom]

end Splits

end NullSafe.Surface
