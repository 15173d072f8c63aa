import NullSafe.Proofs.Isolation
import NullSafe.Proofs.Pipelines

/-! # Restoring what was set aside

Restoring goes through a text from left to right and finds its placeholders. The text of an expression comes back as it
was, unless two slashes stand next to each other before its last literal: they are found, too, and take the literal
that comes next. Generated code has the placeholders of the text it was generated for.
-/

namespace NullSafe.Literal

open Text List Piece

section Reading

variable {last : Option Char} {cs raw after : List Char}

/-- A literal is the start of the text, and it does not start with two slashes. -/
theorem readLiteral?_eq_some (h : readLiteral? last cs = some (raw, after)) :
    raw ++ after = cs ∧ ∃ a b rest, raw = a :: b :: rest ∧ ¬ (a = '/' ∧ b = '/') := by
  obtain ⟨d, rest, s, r, rfl, hopen, hs, rfl, rfl⟩ := exists_of_readLiteral h
  obtain ⟨rfl, hlast⟩ := closeLiteral_eq_some hs
  rcases s with _ | ⟨b, s⟩
  · cases hlast
  refine ⟨?_, d, b, _, rfl, ?_⟩
  · rw [append_assoc, takeWhile_append_dropWhile, cons_append]
  · rintro ⟨rfl, rfl⟩
    exact absurd hopen (by simp [opens])

theorem text_piecesFrom (last : Option Char) (cs : List Char) : (piecesFrom last cs).flatMap Piece.text = cs := by
  fun_induction piecesFrom last cs with
  | case1 => rfl
  | case2 last c rest raw after hr ih => rw [flatMap_cons, ih, Piece.text, (readLiteral?_eq_some hr).1]
  | case3 last c rest hr ih => exact congrArg (c :: ·) ih

theorem of_mem_piecesFrom (h : .literal raw ∈ piecesFrom last cs) :
    ∃ a b rest, raw = a :: b :: rest ∧ ¬ (a = '/' ∧ b = '/') := by
  fun_induction piecesFrom last cs with
  | case1 => cases h
  | case2 last c rest raw' after hr ih =>
    rcases mem_cons.1 h with he | h
    · cases he
      exact (readLiteral?_eq_some hr).2
    · exact ih h
  | case3 last c rest hr ih =>
    rcases mem_cons.1 h with he | h
    · cases he
    · exact ih h

theorem head?_isolated (last : Option Char) (cs : List Char) :
    ((piecesFrom last cs).flatMap isolated).head? = cs.head? := by
  unfold piecesFrom
  split
  · rfl
  · split
    · rename_i hr
      rw [flatMap_cons, isolated, (readLiteral_start hr).1]
      rfl
    · rfl

end Reading

section Strays

/-- Two slashes stand next to each other outside literals, and a literal comes after them. -/
def Strays (ps : List Piece) : Prop :=
  ∃ before after, ps = before ++ Piece.char '/' :: .char '/' :: after ∧ ∃ raw, Piece.literal raw ∈ after

variable {c : Char} {raw : List Char} {p : Piece} {ps : List Piece}

theorem strays_cons : Strays (p :: ps) ↔
    (p = .char '/' ∧ ps.head? = some (.char '/') ∧ ∃ raw, .literal raw ∈ ps) ∨ Strays ps := by
  constructor
  · rintro ⟨before, after, heq, raw, hraw⟩
    cases before with
    | nil =>
      cases heq
      exact .inl ⟨rfl, rfl, raw, .tail _ hraw⟩
    | cons q before =>
      cases heq
      exact .inr ⟨before, after, rfl, raw, hraw⟩
  · rintro (⟨rfl, hhead, raw, hraw⟩ | ⟨before, after, rfl, h⟩)
    · obtain ⟨after, rfl⟩ := head?_eq_some_iff.1 hhead
      refine ⟨[], after, rfl, raw, ?_⟩
      simpa using hraw
    · exact ⟨p :: before, after, rfl, h⟩

theorem literals_eq_nil_iff : ps.filterMap literal? = [] ↔ ∀ raw, .literal raw ∉ ps := by
  rw [filterMap_eq_nil_iff]
  constructor
  · exact fun h raw hraw => nomatch h _ hraw
  · rintro h (c | raw) hp
    · rfl
    · exact absurd hp (h raw)

theorem restoreRaw_nil (text : List Char) : restoreRaw [] text = text := by
  cases text <;> rfl

theorem restoreRaw_cons {queue : List (List Char)} {c : Char} {text : List Char}
    (h : isDelimiter c = true → text.head? ≠ some c) : restoreRaw queue (c :: text) = c :: restoreRaw queue text := by
  unfold restoreRaw
  rw [fill_cons h]
  rcases fill (ε := Empty) .ok queue text with e | restored
  · exact e.elim
  · rfl

theorem restoreRaw_placeholder {queue : List (List Char)} {c : Char} (hc : isDelimiter c = true)
    (raw text : List Char) : restoreRaw (raw :: queue) (c :: c :: text) = raw ++ restoreRaw queue text := by
  unfold restoreRaw
  rw [fill, if_pos (by simp [hc])]
  rcases fill (ε := Empty) .ok queue text with e | restored
  · exact e.elim
  · rfl

/-- The next piece after a slash that opens no literal is a slash if the text goes on with one. -/
theorem head?_after_slash {cs : List Char} (h : cs.head? = some '/') :
    (piecesFrom (some '/') cs).head? = some (.char '/') := by
  obtain ⟨rest, rfl⟩ := head?_eq_some_iff.1 h
  unfold piecesFrom
  split
  · rename_i hr
    exact absurd rfl ((readLiteral_start hr).2.2 rfl)
  · rfl

theorem restore_piecesFrom_iff (last : Option Char) (cs : List Char) :
    restoreRaw ((piecesFrom last cs).filterMap literal?) ((piecesFrom last cs).flatMap isolated) = cs ↔
      ¬ Strays (piecesFrom last cs) := by
  fun_induction piecesFrom last cs with
  | case1 =>
    refine iff_of_true rfl ?_
    rintro ⟨before, after, heq, -⟩
    simp at heq
  | case2 last c rest raw after hr ih =>
    obtain ⟨hstart, hc, -⟩ := readLiteral_start hr
    have hisolated : (literal raw).isolated = [c, c] := by rw [isolated, hstart]; rfl
    have hqueue (ps : List Piece) : (.literal raw :: ps).filterMap literal? = raw :: ps.filterMap literal? := rfl
    rw [flatMap_cons, hisolated, hqueue, cons_append, cons_append, nil_append,
      restoreRaw_placeholder hc, ← (readLiteral?_eq_some hr).1, append_cancel_left_eq, ih, strays_cons]
    simp
  | case3 last c rest hr ih =>
    simp only [dite_eq_ite] at ih
    have hhead := head?_isolated (if isBlank c then last else some c) rest
    rw [flatMap_cons, filterMap_cons_none rfl, isolated, singleton_append]
    by_cases hmeet : isDelimiter c = true ∧ rest.head? = some c
    · obtain ⟨hc, hrest⟩ := hmeet
      -- a quote before the same quote would have opened a literal, so these are slashes
      obtain rfl : c = '/' := by
        rcases isDelimiter_iff.1 hc with hq | hslash
        · exact absurd hrest (head?_ne_of_readLiteral hq hr)
        · exact hslash
      have hlast : (if isBlank '/' then last else some '/') = some '/' := rfl
      rw [hlast] at ih hhead ⊢
      have hnext := head?_after_slash hrest
      rcases hqueue : (piecesFrom (some '/') rest).filterMap literal? with _ | ⟨raw, queue⟩
      · have hplain : ∀ raw, .literal raw ∉ piecesFrom (some '/') rest := literals_eq_nil_iff.1 hqueue
        refine iff_of_true ?_ ?_
        · rw [hqueue, restoreRaw_nil] at ih
          rw [restoreRaw_nil, ih.2]
          rintro ⟨before, after, heq, raw, hraw⟩
          exact hplain raw (heq ▸ by simp [hraw])
        · rw [strays_cons]
          rintro (⟨-, -, raw, hraw⟩ | ⟨before, after, heq, raw, hraw⟩)
          · exact hplain raw hraw
          · exact hplain raw (heq ▸ by simp [hraw])
      · have hmem : literal raw ∈ piecesFrom (some '/') rest := by
          have hraw : raw ∈ (piecesFrom (some '/') rest).filterMap literal? := hqueue ▸ .head _
          obtain ⟨p, hp, he⟩ := mem_filterMap.1 hraw
          cases p with
          | char => cases he
          | literal => cases he; exact hp
        refine iff_of_false ?_ (not_not.2 (strays_cons.2 (.inl ⟨rfl, hnext, raw, hmem⟩)))
        obtain ⟨a, b, r, rfl, hraw⟩ := of_mem_piecesFrom hmem
        obtain ⟨text, htext⟩ := head?_eq_some_iff.1 (hhead.trans hrest)
        obtain ⟨rest', rfl⟩ := head?_eq_some_iff.1 hrest
        rw [htext, restoreRaw_placeholder hc]
        intro heq
        obtain ⟨ha, htail⟩ := List.cons.inj heq
        exact hraw ⟨ha, (List.cons.inj htail).1⟩
    · have hapart : isDelimiter c = true →
          ((piecesFrom (if isBlank c then last else some c) rest).flatMap isolated).head? ≠ some c :=
        fun hc he => hmeet ⟨hc, hhead ▸ he⟩
      rw [restoreRaw_cons hapart, strays_cons]
      have hfirst : ¬ (char c = .char '/' ∧
          (piecesFrom (if isBlank c then last else some c) rest).head? = some (.char '/') ∧
          ∃ raw, .literal raw ∈ piecesFrom (if isBlank c then last else some c) rest) := by
        rintro ⟨hc, hnext, -⟩
        cases hc
        refine hmeet ⟨rfl, ?_⟩
        obtain ⟨ps, hps⟩ := head?_eq_some_iff.1 hnext
        rw [← hhead, hps]
        rfl
      rw [List.cons.injEq, or_iff_right hfirst, ← ih]
      simp

end Strays

section Positions

variable {pos i : Nat} {ps : List Piece} {span : Nat × Nat}

theorem spansFrom_append (pos : Nat) (ps qs : List Piece) : spansFrom pos (ps ++ qs) =
    spansFrom pos ps ++ spansFrom (pos + (ps.flatMap Piece.text).length) qs := by
  induction ps generalizing pos with
  | nil => rfl
  | cons p ps ih =>
    cases p <;> simp [spansFrom, ih, Piece.text, Nat.add_assoc, Nat.add_comm]

theorem bounds_of_mem_spansFrom (h : span ∈ spansFrom pos ps) :
    pos ≤ span.1 ∧ span.1 ≤ span.2 ∧ span.2 ≤ pos + (ps.flatMap Piece.text).length := by
  induction ps generalizing pos with
  | nil => cases h
  | cons p ps ih =>
    rw [flatMap_cons, length_append]
    cases p with
    | char c =>
      have := ih h
      simp only [Piece.text, length_singleton]
      omega
    | literal raw =>
      simp only [Piece.text]
      rcases mem_cons.1 h with rfl | h
      · simp
      · have := ih h
        omega

theorem spansFrom_eq_nil_iff : spansFrom pos ps = [] ↔ ∀ raw, .literal raw ∉ ps := by
  induction ps generalizing pos with
  | nil => simp [spansFrom]
  | cons p ps ih =>
    cases p with
    | char c => simp [spansFrom, ih]
    | literal raw => exact iff_of_false nofun fun h => h raw (.head _)

/-- Two slashes stand at a position and are no part of a literal. -/
def SlashesAt (cs : List Char) (spans : List (Nat × Nat)) (i : Nat) : Prop :=
  cs[i]? = some '/' ∧ cs[i + 1]? = some '/' ∧ ∀ span ∈ spans, i + 2 ≤ span.1 ∨ span.2 ≤ i

theorem exists_of_slashesAt (pos : Nat) (hfirst : (ps.flatMap Piece.text)[i]? = some '/')
    (hsecond : (ps.flatMap Piece.text)[i + 1]? = some '/')
    (hout : ∀ span ∈ spansFrom pos ps, pos + i + 2 ≤ span.1 ∨ span.2 ≤ pos + i) :
    ∃ before after, ps = before ++ char '/' :: .char '/' :: after ∧ (before.flatMap Piece.text).length = i := by
  induction ps generalizing pos i with
  | nil => cases hfirst
  | cons p ps ih =>
    cases p with
    | literal raw =>
      -- the slashes come after this literal, as they are apart from it
      have hlength : raw.length ≤ i := by
        rcases hout _ (.head _) with h | h <;> simp only at h <;> omega
      obtain ⟨j, rfl⟩ := Nat.exists_eq_add_of_le hlength
      rw [flatMap_cons, Piece.text] at hfirst hsecond
      rw [Nat.add_assoc] at hsecond
      rw [getElem?_append_right (by omega), Nat.add_sub_cancel_left] at hfirst hsecond
      obtain ⟨before, after, rfl, hj⟩ := ih (pos + raw.length) hfirst hsecond
        fun span hspan => by have := hout span (.tail _ hspan); omega
      refine ⟨.literal raw :: before, after, rfl, ?_⟩
      simp [Piece.text, hj]
    | char c =>
      have hout' : ∀ span ∈ spansFrom (pos + 1) ps, pos + i + 2 ≤ span.1 ∨ span.2 ≤ pos + i := hout
      cases i with
      | succ i =>
        obtain ⟨before, after, rfl, hi⟩ := ih (pos + 1) hfirst hsecond
          fun span hspan => by have := hout' span hspan; omega
        exact ⟨.char c :: before, after, rfl, by simp [Piece.text, hi]⟩
      | zero =>
        cases ps with
        | nil => cases hsecond
        | cons q ps =>
          cases q with
          | literal raw =>
            rcases hout' _ (.head _) with h | h <;> simp only at h <;> omega
          | char d =>
            cases hfirst
            cases hsecond
            exact ⟨[], ps, rfl, rfl⟩

theorem slashesAt_of_eq {before after : List Piece} (hps : ps = before ++ Piece.char '/' :: .char '/' :: after)
    (hi : (before.flatMap Piece.text).length = i) : SlashesAt (ps.flatMap Piece.text) (spansFrom 0 ps) i := by
  subst hps hi
  refine ⟨?_, ?_, ?_⟩
  · simp [Piece.text]
  · simp [Piece.text]
  · intro span hspan
    rw [spansFrom_append, mem_append] at hspan
    rcases hspan with h | h
    · have := bounds_of_mem_spansFrom h
      omega
    · have hafter : span ∈ spansFrom (0 + (before.flatMap Piece.text).length + 1 + 1) after := h
      have := bounds_of_mem_spansFrom hafter
      omega

/-- Slashes before a literal, by their position. -/
theorem strays_iff (ps : List Piece) : Strays ps ↔
    ∃ i, SlashesAt (ps.flatMap Piece.text) (spansFrom 0 ps) i ∧ ∃ span ∈ spansFrom 0 ps, i < span.1 := by
  constructor
  · rintro ⟨before, after, hps, raw, hraw⟩
    refine ⟨_, slashesAt_of_eq hps rfl, ?_⟩
    rw [hps, spansFrom_append]
    have hne : spansFrom (0 + (before.flatMap Piece.text).length + 1 + 1) after ≠ [] :=
      fun h => spansFrom_eq_nil_iff.1 h raw hraw
    obtain ⟨span, hspan⟩ := exists_mem_of_ne_nil _ hne
    have := bounds_of_mem_spansFrom hspan
    exact ⟨span, mem_append_right _ hspan, by omega⟩
  · rintro ⟨i, ⟨hfirst, hsecond, hout⟩, span, hspan, hi⟩
    obtain ⟨before, after, rfl, rfl⟩ := exists_of_slashesAt 0 hfirst hsecond fun span h => by have := hout span h; omega
    refine ⟨before, after, rfl, ?_⟩
    by_contra hnone
    have hnil : spansFrom (0 + (before.flatMap Piece.text).length + 1 + 1) after = [] :=
      spansFrom_eq_nil_iff.2 (not_exists.1 hnone)
    rw [spansFrom_append, mem_append] at hspan
    rcases hspan with h | h
    · have := bounds_of_mem_spansFrom h
      omega
    · exact absurd (hnil ▸ h) not_mem_nil

/-- Restoring a text whose literals were set aside gives a text and leaves nothing queued. It gives the text back
if and only if no two slashes stand next to each other outside its literals and before the last of them. -/
theorem restore_isolate_eq_iff (text : String) :
    ∃ queued restored, Table.isolate {} text.toList = .ok (isolate text.toList, queued) ∧
      queued.restore (ε := Empty) .ok (isolate text.toList) = .ok (.ok restored, {}) ∧
      (restored = text.toList ↔ ¬ ∃ i, SlashesAt text.toList (spans text) i ∧ ∃ span ∈ spans text, i < span.1) ∧
      ((∀ i, ¬ SlashesAt text.toList (spans text) i) → restored = text.toList) := by
  refine ⟨_, restoreRaw (literals text.toList) (isolate text.toList), rfl, ?_, ?_⟩
  · change Except.ok (fill (ε := Empty) .ok (literals text.toList) (isolate text.toList), _) = _
    rw [restoreRaw]
    rcases fill (ε := Empty) .ok (literals text.toList) (isolate text.toList) with e | restored
    · exact e.elim
    · rfl
  · have hiff : restoreRaw (literals text.toList) (isolate text.toList) = text.toList ↔
        ¬ ∃ i, SlashesAt text.toList (spans text) i ∧ ∃ span ∈ spans text, i < span.1 := by
      have hstrays := strays_iff (pieces text.toList)
      rw [pieces, text_piecesFrom] at hstrays
      exact (restore_piecesFrom_iff none text.toList).trans (not_congr hstrays)
    refine ⟨hiff, fun h => hiff.2 ?_⟩
    rintro ⟨i, hi, -⟩
    exact h i hi

end Positions

section Finding

/-- The delimiters of the placeholders that restoring finds in a text. -/
def found : List Char → List Char
  | c :: d :: rest => if c = d && isDelimiter c then c :: found rest else found (d :: rest)
  | _ => []

theorem found_eq (cs : List Char) : found cs = placeholders cs := by
  fun_induction found cs with
  | case1 c d rest hc ih =>
    obtain ⟨rfl, hdelim⟩ : c = d ∧ isDelimiter c = true := by simpa using hc
    rw [ih, placeholders, placeholders, placeholdersFrom, if_pos hdelim, if_neg (by simp), placeholdersFrom,
      if_pos hdelim, if_pos rfl]
  | case2 c d rest hc ih =>
    rw [ih]
    by_cases hdelim : isDelimiter c = true
    · have hd : (d :: rest).head? ≠ some c := by
        rintro he
        cases he
        exact hc (by simp [hdelim])
      rw [placeholders.eq_def (c :: _), placeholdersFrom, if_pos hdelim, if_neg (by simp), placeholdersFrom_some hd]
    · rw [placeholders.eq_def (c :: _), placeholdersFrom_cons_plain (by simpa using hdelim)]
  | case3 cs hcs =>
    rcases cs with _ | ⟨c, _ | ⟨d, rest⟩⟩
    · rfl
    · by_cases h : isDelimiter c = true <;> simp [placeholders, placeholdersFrom, h]
    · exact absurd rfl (hcs c d rest)

open Surface

/-- Restoring finds the same placeholders in generated code as in the text that the code was generated for. -/
theorem found_generate {globals names : List String} {cs text : List Char} {body : Body Placeholder}
    (htext : desugar cs = .ok text) (hbody : generate (Scope.ofNames globals names) text = .ok body) :
    found (body.chars Placeholder.chars) = found cs := by
  obtain ⟨t, ht, hemit⟩ := generate_eq_ok_iff.1 hbody
  obtain ⟨hleaves, hshows⟩ := placeholders_of_analyse htext ht hemit
  rw [found_eq, found_eq, placeholders_body hshows.separated, Code.leaves, hshows.leaves, hleaves]

/-- A string that is formatted, with a pattern as the argument. -/
theorem found_generate_piped :
    ∃ text body, desugar "'' | f(//)".toList = .ok text ∧ generate (Scope.ofNames [] []) text = .ok body ∧
      found (body.chars Placeholder.chars) = ['\x27', '/'] := by
  have htext : desugar "'' | f(//)".toList = .ok (nest "''".toList [⟨['f'], ["//".toList]⟩]) := by decide +kernel
  have hwords : replaceWords (nest "''".toList [⟨['f'], ["//".toList]⟩]) =
      nest "''".toList [⟨['f'], ["//".toList]⟩] := by decide +kernel
  have hparse : parse (nest "''".toList [⟨['f'], ["//".toList]⟩]) =
      .ok (Formatter.tree ['f'] (.literal (.string .single)) [.literal .pattern]) := by
    have hfits : ∀ f ∈ [Formatter.mk ['f'] ["//".toList]], f.Fits :=
      List.forall_mem_singleton.2 ⟨by unfold Formatter.IsNamed; decide +kernel, by decide +kernel⟩
    refine (parse_nest_iff (by decide +kernel) hfits).2 ⟨_, parse_placeholder (.string .single),
      .cons ?_ (.cons (parse_placeholder .pattern) .nil) (.nil _)⟩
    unfold IsName
    decide +kernel
  have hok : (emit (Scope.ofNames [] []) (Formatter.tree ['f'] (.literal (.string .single)) [.literal .pattern])).isOk
      = true := rfl
  rcases hemit : emit (Scope.ofNames [] []) (Formatter.tree ['f'] (.literal (.string .single)) [.literal .pattern])
    with f | body <;> rw [hemit] at hok
  · cases hok
  · have hbody : generate (Scope.ofNames [] []) (nest "''".toList [⟨['f'], ["//".toList]⟩]) = .ok body :=
      generate_eq_ok_iff.2 ⟨_, hwords.symm ▸ hparse, hemit⟩
    exact ⟨_, body, htext, hbody, (found_generate htext hbody).trans (by decide)⟩

end Finding

end NullSafe.Literal
