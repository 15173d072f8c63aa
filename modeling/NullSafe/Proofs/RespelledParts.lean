import NullSafe.Proofs.Respelling

/-! # Pipelines with operators spelled as words

A text with formatter pipes is taken apart at the same places when its operators are spelled as words,
unless an operator follows a bar. Its parts have the same tokens as before, so the text has the same tree.
-/

namespace NullSafe.Surface

open Text List LogicalOp

section Splits

variable {sep c : Char} {d : Int} {b b' : Option Char} {xs ys : List Char}

/-- An operator stands behind a bar, with nothing but blanks between them. -/
def OperatorFollowsBar (cs : List Char) : Prop :=
  ∃ (op : LogicalOp) (before gap after : List Char),
    (∀ c ∈ gap, isBlank c = true) ∧ cs = before ++ '|' :: (gap ++ op.mark :: op.mark :: after)

theorem OperatorFollowsBar.append (h : OperatorFollowsBar ys) (xs : List Char) : OperatorFollowsBar (xs ++ ys) := by
  obtain ⟨op, before, gap, after, hgap, rfl⟩ := h
  exact ⟨op, xs ++ before, gap, after, hgap, by rw [append_assoc]⟩

theorem operatorFollowsBar_of_three (rest : List Char) : OperatorFollowsBar ('|' :: '|' :: '|' :: rest) :=
  ⟨.either, [], [], rest, nofun, rfl⟩

theorem head?_splitFrom (h : (splitFrom sep d b xs).1.head? = some c) : xs.head? = some c := by
  rcases xs with _ | ⟨x, xs⟩
  · cases h
  · rw [splitFrom] at h
    dsimp only at h
    split at h
    · cases h
    · exact h

theorem head?_splitAssignFrom {t v : List Char} (h : splitAssignFrom d b xs = some (t, v)) (ht : t.head? = some c) :
    xs.head? = some c := by
  rcases xs with _ | ⟨x, xs⟩
  · cases h
  · rw [splitAssignFrom] at h
    split at h
    · cases h
      cases ht
    · obtain ⟨⟨t', v'⟩, -, he⟩ := Option.map_eq_some_iff.1 h
      cases he
      exact ht

/-- A part of a text does not start with an operator where the text does not. -/
theorem not_startsOperator_cons (h : ¬ StartsOperator mark (c :: xs))
    (hys : ∀ x, ys.head? = some x → xs.head? = some x) : ¬ StartsOperator mark (c :: ys) := by
  rintro ⟨op, rest, he⟩
  obtain ⟨rfl, rfl⟩ := List.cons.inj he
  obtain ⟨rest', rfl⟩ := head?_eq_some_iff.1 (hys op.mark rfl)
  exact h ⟨op, rest', rfl⟩

/-- The text that an operator is spelled as. -/
def spacedWord (op : LogicalOp) : List Char := ' ' :: (op.word ++ [' '])

theorem respell_operator_append (op : LogicalOp) (xs : List Char) :
    respell (op.mark :: op.mark :: xs) = spacedWord op ++ respell xs := by
  rw [respell_operator, spacedWord, cons_append, append_assoc]
  rfl

variable (hsep : sep = ',' ∨ sep = '|')

include hsep

theorem splitFrom_operator (op : LogicalOp) :
    splitFrom sep d b (op.mark :: op.mark :: xs) = prepend [op.mark, op.mark] (splitFrom sep d (some op.mark) xs) := by
  have hnone : (splitFrom sep d b [op.mark, op.mark]).2 = [] := by
    rcases hsep with rfl | rfl <;> cases op <;> simp [mark, splitFrom, separates, isLoneBar]
  have hdepth : depthOf [op.mark, op.mark] = 0 := by cases op <;> rfl
  have happend := splitFrom_append hnone xs
  rwa [hdepth, Int.add_zero] at happend

theorem splitFrom_spacedWord (op : LogicalOp) :
    splitFrom sep d b (spacedWord op ++ xs) = prepend (spacedWord op) (splitFrom sep d (some ' ') xs) := by
  have hmem : sep ∉ spacedWord op := by rcases hsep with rfl | rfl <;> cases op <;> decide
  have hnone : (splitFrom sep d b (spacedWord op)).2 = [] := by rw [splitFrom_of_not_mem hmem]
  have hdepth : depthOf (spacedWord op) = 0 := by cases op <;> rfl
  have hlast : lastOr b (spacedWord op) = some ' ' := by cases op <;> rfl
  rw [splitFrom_append hnone, hdepth, hlast, Int.add_zero]

theorem separates_respell (h : ¬ StartsOperator mark (sep :: xs))
    (hb : sep = '|' → b = some '|' ∨ b' = some '|' → (sep :: xs).head? ≠ some '|') :
    separates sep b' (respell xs) = separates sep b xs := by
  rcases hsep with rfl | rfl
  · rfl
  · have hnext : xs.head? ≠ some '|' := by
      intro hhead
      obtain ⟨rest, rfl⟩ := head?_eq_some_iff.1 hhead
      exact h ⟨.either, rest, rfl⟩
    have hnext' : (respell xs).head? ≠ some '|' := by
      rcases head?_respell xs with he | ⟨he, -⟩ <;> rw [he]
      · exact hnext
      · decide
    have hfirst : b ≠ some '|' ∧ b' ≠ some '|' := ⟨fun he => hb rfl (.inl he) rfl, fun he => hb rfl (.inr he) rfl⟩
    simp only [separates, isLoneBar, bne_iff_ne.2 hnext, bne_iff_ne.2 hnext',
      bne_iff_ne.2 hfirst.1, bne_iff_ne.2 hfirst.2]

/-- A respelled text is split at the same places. -/
theorem splitFrom_respell (hbars : sep = '|' → ¬ OperatorFollowsBar xs)
    (hb : sep = '|' → b = some '|' ∨ b' = some '|' → xs.head? ≠ some '|') :
    splitFrom sep d b' (respell xs) = Prod.map respell (List.map respell) (splitFrom sep d b xs) := by
  induction xs using operator_induct mark generalizing d b b' with
  | hnil => rfl
  | hop op rest ih =>
    rw [respell_operator_append, splitFrom_operator hsep, splitFrom_spacedWord hsep, ih, prepend, prepend,
      Prod.map_apply, Prod.map_apply]
    · exact congrArg (·, _) (respell_operator_append op _).symm
    · exact fun hbar h => hbars hbar (h.append [op.mark, op.mark])
    · -- a third bar would follow the operator
      rintro rfl hbar hhead
      obtain ⟨rest, rfl⟩ := head?_eq_some_iff.1 hhead
      cases op with
      | both => rcases hbar with hbar | hbar <;> cases hbar
      | either => exact hbars rfl (operatorFollowsBar_of_three rest)
  | hcons c rest h ih =>
    have hrest : splitFrom sep (d + depthStep c) (some c) (respell rest) =
        Prod.map respell (List.map respell) (splitFrom sep (d + depthStep c) (some c) rest) := by
      refine ih (fun hbar hrest => hbars hbar (hrest.append [c])) ?_
      rintro rfl hbar hhead
      obtain ⟨rest, rfl⟩ := head?_eq_some_iff.1 hhead
      cases or_self_iff.1 hbar
      exact h ⟨.either, rest, rfl⟩
    have hfirst : respell (c :: (splitFrom sep (d + depthStep c) (some c) rest).1) =
        c :: respell (splitFrom sep (d + depthStep c) (some c) rest).1 :=
      respell_cons (not_startsOperator_cons h fun _ => head?_splitFrom)
    have hstop : (c = sep && d = 0 && separates sep b' (respell rest)) =
      (c = sep && d = 0 && separates sep b rest) := by
      by_cases hc : c = sep
      · subst hc
        rw [separates_respell hsep h hb]
      · simp [hc]
    rw [respell_cons h, splitFrom, splitFrom, hrest]
    dsimp only
    rw [hstop]
    split
    · rfl
    · rw [Prod.map_apply, Prod.map_apply, hfirst]

omit hsep

theorem splitAssignFrom_respell (hb : ∀ ys, isComparison b ys = isComparison b' ys) :
    splitAssignFrom d b' (respell xs) = (splitAssignFrom d b xs).map (Prod.map respell respell) := by
  induction xs using operator_induct mark generalizing d b b' with
  | hnil => rfl
  | hop op rest ih =>
    have hleft : splitAssignFrom d b (op.mark :: op.mark :: rest) =
        (splitAssignFrom d (some op.mark) rest).map (Prod.map ([op.mark, op.mark] ++ ·) id) := by
      have hmem : '=' ∉ [op.mark, op.mark] := by cases op <;> decide
      have hdepth : depthOf [op.mark, op.mark] = 0 := by cases op <;> rfl
      have happend := splitAssignFrom_append (splitAssignFrom_of_not_mem hmem d b) rest
      rw [hdepth, Int.add_zero] at happend
      exact happend
    have hright : splitAssignFrom d b' (spacedWord op ++ respell rest) =
        (splitAssignFrom d (some ' ') (respell rest)).map (Prod.map (spacedWord op ++ ·) id) := by
      have hmem : '=' ∉ spacedWord op := by cases op <;> decide
      have hdepth : depthOf (spacedWord op) = 0 := by cases op <;> rfl
      have hlast : lastOr b' (spacedWord op) = some ' ' := by cases op <;> rfl
      rw [splitAssignFrom_append (splitAssignFrom_of_not_mem hmem d b'), hdepth, hlast, Int.add_zero]
      rfl
    have hmark : ∀ ys, isComparison (some op.mark) ys = isComparison (some ' ') ys := by cases op <;> exact fun _ => rfl
    rw [respell_operator_append, hleft, hright, ih hmark, Option.map_map, Option.map_map]
    congr 1
    funext parts
    exact Prod.ext (respell_operator_append op parts.1).symm rfl
  | hcons c rest h ih =>
    have hafter : isComparison b' (respell rest) = isComparison b rest := by
      rw [← hb, isComparison, isComparison]
      have hhead : (respell rest).head? = some '=' ↔ rest.head? = some '=' := by
        rcases head?_respell rest with he | ⟨he, op, hop⟩
        · rw [he]
        · rw [he, hop]
          cases op <;> decide
      simp only [hhead]
    rw [respell_cons h, splitAssignFrom, splitAssignFrom, hafter]
    split
    · rfl
    · rw [ih fun _ => rfl, Option.map_map, Option.map_map]
      rcases hsplit : splitAssignFrom (d + depthStep c) (some c) rest with _ | ⟨t, v⟩
      · rfl
      · have hfirst : respell (c :: t) = c :: respell t :=
          respell_cons (not_startsOperator_cons h fun _ => head?_splitAssignFrom hsplit)
        simp [hfirst]

end Splits

section Blanks

variable {xs ys pre post : List Char}

theorem trim_eq_nil_iff : trim xs = [] ↔ Blank xs := by
  constructor
  · intro h
    obtain ⟨pre, post, hxs, hpre, hpost⟩ := exists_trim xs
    rw [h, nil_append] at hxs
    rw [hxs]
    exact forall_mem_append.2 ⟨hpre, hpost⟩
  · intro h
    rw [trim, trimLeft, dropWhile_eq_nil_iff.2 h]
    rfl

theorem trim_blanks (hpre : Blank pre) (hpost : Blank post) : trim (pre ++ (xs ++ post)) = trim xs := by
  by_cases hnil : trim xs = []
  · rw [hnil, trim_eq_nil_iff]
    exact forall_mem_append.2 ⟨hpre, forall_mem_append.2 ⟨trim_eq_nil_iff.1 hnil, hpost⟩⟩
  · obtain ⟨pre', post', hxs, hpre', hpost'⟩ := exists_trim xs
    have houter : pre ++ (xs ++ post) = (pre ++ pre') ++ (trim xs ++ (post' ++ post)) := by
      conv_lhs => rw [hxs]
      simp only [append_assoc]
    rw [houter]
    exact trim_append (forall_mem_append.2 ⟨hpre, hpre'⟩) (forall_mem_append.2 ⟨hpost', hpost⟩) hnil
      (head?_trim xs) (getLast?_trim xs)

theorem respell_blanks (h : Blank xs) : respell xs = xs := by
  have happend : respell (xs ++ []) = xs ++ respell [] := respell_append_left fun c hc => ne_mark_of_isBlank (h c hc)
  rwa [append_nil, respell, append_nil] at happend

theorem respell_between_blanks (hpre : Blank pre) (hpost : Blank post) :
    respell (pre ++ (xs ++ post)) = pre ++ (respell xs ++ post) := by
  have hends : ∀ op : LogicalOp, xs.getLast? = some op.mark → post.head? ≠ some op.mark :=
    fun op _ he => ne_mark_of_isBlank (hpost _ (mem_of_head? he)) op rfl
  rw [respell_append_left fun c hc => ne_mark_of_isBlank (hpre c hc), respell_append hends, respell_blanks hpost]

theorem trim_respell_trim (xs : List Char) : trim (respell (trim xs)) = trim (respell xs) := by
  obtain ⟨pre, post, hxs, hpre, hpost⟩ := exists_trim xs
  conv_rhs => rw [hxs]
  rw [respell_between_blanks hpre hpost, trim_blanks hpre hpost]

theorem trim_respell_eq_nil_iff : trim (respell xs) = [] ↔ trim xs = [] := by
  rw [trim_eq_nil_iff, trim_eq_nil_iff]
  refine ⟨fun h => ?_, fun h => by rwa [respell_blanks h]⟩
  induction xs using operator_induct mark with
  | hnil => nofun
  | hop op rest =>
    rw [respell_operator] at h
    obtain ⟨c, word, hword⟩ : ∃ c word, op.word = c :: word := by cases op <;> exact ⟨_, _, rfl⟩
    have hblank := h c (by simp [hword])
    cases op <;> cases hword <;> exact absurd hblank (by decide)
  | hcons c rest hc ih =>
    rw [respell_cons hc] at h
    obtain ⟨hblank, hrest⟩ := forall_mem_cons.1 h
    exact forall_mem_cons.2 ⟨hblank, ih hrest⟩

theorem trim_trim (xs : List Char) : trim (trim xs) = trim xs := by
  obtain ⟨pre, post, hxs, hpre, hpost⟩ := exists_trim xs
  conv_rhs => rw [hxs]
  rw [trim_blanks hpre hpost]

theorem trim_cons {c : Char} (hc : isBlank c = false) : trim (c :: xs) = c :: trimRight xs := by
  rw [trim, trimLeft, dropWhile_cons_of_neg (by rw [hc]; decide), trimRight, trimRight, reverse_cons, dropWhile_append]
  split
  · rename_i hnil
    rw [List.isEmpty_iff.1 hnil, dropWhile_cons_of_neg (by rw [hc]; decide)]
    rfl
  · rw [reverse_append]
    rfl

/-- A respelled text without blanks at its ends starts as before or with a word. -/
theorem head?_trim_respell (h : ∀ c ∈ xs.head?, isBlank c = false) :
    ¬ StartsOperator mark xs ∧ (trim (respell xs)).head? = xs.head? ∨
      StartsOperator mark xs ∧ ∃ op : LogicalOp, (trim (respell xs)).head? = op.word.head? := by
  by_cases hstart : StartsOperator mark xs
  · obtain ⟨op, rest, rfl⟩ := hstart
    have hblank : Blank [' '] := by decide
    have hskip := @trim_blanks (op.word ++ ' ' :: respell rest) [' '] [] hblank nofun
    rw [append_nil, singleton_append] at hskip
    refine .inr ⟨⟨op, rest, rfl⟩, op, ?_⟩
    rw [respell_operator, hskip]
    cases op <;> rw [word, cons_append, trim_cons (by decide)] <;> rfl
  · refine .inl ⟨hstart, ?_⟩
    rcases xs with _ | ⟨c, xs⟩
    · rfl
    · rw [respell_cons hstart, trim_cons (h c rfl)]
      rfl

end Blanks

section Assignments

variable {d : Int} {b : Option Char} {xs post : List Char}

theorem splitAssignFrom_blanks (hpost : Blank post) :
    splitAssignFrom d b (xs ++ post) = (splitAssignFrom d b xs).map fun (t, v) => (t, v ++ post) := by
  have hsign : '=' ∉ post := fun hmem => absurd (hpost _ hmem) (by decide)
  induction xs generalizing d b with
  | nil => exact splitAssignFrom_of_not_mem hsign d b
  | cons c xs ih =>
    have hafter : isComparison b (xs ++ post) = isComparison b xs := by
      rcases xs with _ | ⟨x, xs⟩
      · rcases post with _ | ⟨y, post⟩
        · rfl
        · have hy : y ≠ '=' := fun he => hsign (he ▸ .head _)
          simp [isComparison, hy]
      · rfl
    rw [cons_append, splitAssignFrom, splitAssignFrom, hafter, ih, Option.map_map]
    split
    · rfl
    · rw [Option.map_map]
      rfl

/-- An assignment is found in a text without the blanks at its ends, unless one is between them and the sign. -/
theorem splitAssignment_trim (h : (trim xs).head? = some '=' → xs.head? = some '=') :
    splitAssignment (trim xs) = splitAssignment xs := by
  obtain ⟨pre, post, hxs, hpre, hpost⟩ := exists_trim xs
  have hsign : '=' ∉ pre := fun hmem => absurd (hpre _ hmem) (by decide)
  have hdepth : depthOf pre = 0 := depthOf_of_isInert fun c hc => isInert_of_isBlank (hpre c hc)
  have hbefore : splitAssignFrom 0 (lastOr none pre) (trim xs) = splitAssignFrom 0 none (trim xs) := by
    rcases pre with _ | ⟨c, pre⟩
    · rfl
    · rcases htrim : trim xs with _ | ⟨x, rest⟩
      · rfl
      · have hx : x ≠ '=' := by
          rintro rfl
          rw [htrim] at h
          have hhead := h rfl
          rw [hxs] at hhead
          cases hhead
          exact absurd (hpre _ (.head _)) (by decide)
        rw [splitAssignFrom, splitAssignFrom]
        simp only [hx, decide_false, Bool.false_and, Bool.false_eq_true, if_false]
  unfold splitAssignment
  conv_rhs => rw [hxs]
  rw [splitAssignFrom_append (splitAssignFrom_of_not_mem hsign 0 none), splitAssignFrom_blanks hpost, hdepth,
    Int.add_zero, hbefore, Option.map_map, Option.map_map]
  congr 1
  funext parts
  have ht := @trim_blanks parts.1 pre [] hpre (forall_mem_nil _)
  have hv := @trim_blanks parts.2 [] post (forall_mem_nil _) hpost
  rw [append_nil] at ht
  exact Prod.ext ht.symm hv.symm

theorem splitAssignment_respell (xs : List Char) : splitAssignment (trim (respell xs)) =
    (splitAssignment (trim xs)).map (Prod.map (fun a => trim (respell a)) fun a => trim (respell a)) := by
  have hstart : (trim (respell (trim xs))).head? = some '=' → (respell (trim xs)).head? = some '=' := by
    intro hsign
    rcases head?_trim_respell (head?_trim xs) with ⟨-, he⟩ | ⟨-, op, he⟩ <;> rw [he] at hsign
    · rcases head?_respell (trim xs) with he' | ⟨-, op, he'⟩
      · rw [he', hsign]
      · rw [he'] at hsign
        cases op <;> cases hsign
    · cases op <;> cases hsign
  rw [← trim_respell_trim, splitAssignment_trim hstart, splitAssignment, splitAssignment,
    splitAssignFrom_respell fun _ => rfl, Option.map_map, Option.map_map]
  congr 1
  funext parts
  exact Prod.ext (trim_respell_trim parts.1).symm (trim_respell_trim parts.2).symm

end Assignments

section Segments

variable {c : Char} {xs ys zs segment name gap : List Char}

theorem span_respell {k : Char → Bool} (hspace : k ' ' = false) (hmark : ∀ op : LogicalOp, k op.mark = false) :
    (respell xs).takeWhile k = xs.takeWhile k ∧ (respell xs).dropWhile k = respell (xs.dropWhile k) := by
  induction xs using operator_induct mark with
  | hnil => exact ⟨rfl, rfl⟩
  | hop op rest => simp [respell_operator, hspace, hmark op]
  | hcons c rest h ih =>
    rw [respell_cons h]
    rcases hc : k c with _ | _
    · simp [hc, respell_cons h]
    · simp [hc, ih]

theorem trimLeft_respell (h : ¬ StartsOperator mark (trimLeft xs)) : trimLeft (respell xs) = respell (trimLeft xs) := by
  induction xs using operator_induct mark with
  | hnil => rfl
  | hop op rest =>
    rw [trimLeft, dropWhile_cons_of_neg (by cases op <;> decide)] at h
    exact absurd ⟨op, rest, rfl⟩ h
  | hcons c rest hc ih =>
    rw [respell_cons hc]
    rcases hblank : isBlank c with _ | _
    · rw [trimLeft, trimLeft, dropWhile_cons_of_neg (by rw [hblank]; decide),
        dropWhile_cons_of_neg (by rw [hblank]; decide), respell_cons hc]
    · rw [trimLeft, dropWhile_cons_of_pos hblank] at h ⊢
      rw [trimLeft, dropWhile_cons_of_pos hblank]
      exact ih h

theorem exists_of_respell_eq (hword : ∀ op, c ∉ spacedWord op) (h : respell xs = ys ++ c :: zs) :
    ∃ xs' xs'', xs = xs' ++ c :: xs'' ∧ respell xs' = ys ∧ respell xs'' = zs := by
  induction xs using operator_induct mark generalizing ys with
  | hnil => exact absurd h (by simp [respell])
  | hop op rest ih =>
    have hlater : ∀ {as}, respell rest = as ++ c :: zs → ys = spacedWord op ++ as → ∃ xs' xs'',
        op.mark :: op.mark :: rest = xs' ++ c :: xs'' ∧ respell xs' = ys ∧ respell xs'' = zs := by
      rintro as has rfl
      obtain ⟨xs', xs'', rfl, rfl, hzs⟩ := ih has
      exact ⟨op.mark :: op.mark :: xs', xs'', rfl, respell_operator_append op xs', hzs⟩
    rw [respell_operator_append] at h
    rcases append_eq_append_iff.1 h with ⟨as, hys, has⟩ | ⟨as, hys, htail⟩
    · exact hlater has hys
    · rcases as with _ | ⟨x, as⟩
      · exact hlater (nil_append _ ▸ htail.symm) (by rw [hys, append_nil, append_nil])
      · obtain ⟨rfl, -⟩ := List.cons.inj htail
        exact absurd (hys ▸ mem_append_right _ (.head _)) (hword op)
  | hcons x rest hx ih =>
    rw [respell_cons hx] at h
    rcases ys with _ | ⟨y, ys⟩
    · obtain ⟨rfl, rfl⟩ := List.cons.inj h
      exact ⟨[], rest, rfl, rfl, rfl⟩
    · obtain ⟨rfl, htail⟩ := List.cons.inj h
      obtain ⟨xs', xs'', rfl, rfl, hzs⟩ := ih htail
      refine ⟨x :: xs', xs'', rfl, respell_cons (not_startsOperator_cons hx fun z hz => ?_), hzs⟩
      rw [head?_append, hz]
      rfl

theorem isBlank_eq_false_of_continuesWord (h : continuesWord c = true) : isBlank c = false := by
  by_contra hblank
  rw [continuesWord_of_isBlank (Bool.not_eq_false _ ▸ hblank)] at h
  cases h

/-- What is a name between blanks when respelled is that name, unless it starts with an operator. -/
theorem eq_of_respell_eq_name (h : ¬ StartsOperator mark (trimLeft xs)) {pre : List Char}
    (hpre : Blank pre) (hgap : Blank gap) (hne : name ≠ [])
    (hname : ∀ c ∈ name, continuesWord c = true) (he : respell xs = pre ++ (name ++ gap)) :
      xs = pre ++ (name ++ gap) := by
  have hnonblank : ∀ c ∈ (name ++ gap).head?, isBlank c = false := by
    intro c hc
    rw [head?_append_of_ne_nil _ hne] at hc
    exact isBlank_eq_false_of_continuesWord (hname c (mem_of_head? hc))
  have htrim : respell (trimLeft xs) = name ++ gap := by
    rw [← trimLeft_respell h, he]
    exact (span_append hpre hnonblank).2
  have hends : ∀ c ∈ gap.head?, continuesWord c = false :=
    fun c hc => continuesWord_of_isBlank (hgap c (mem_of_head? hc))
  obtain ⟨htake, hdrop⟩ := @span_respell (trimLeft xs) continuesWord (by decide) fun op => by cases op <;> decide
  rw [htrim, (span_append hname hends).1] at htake
  rw [htrim, (span_append hname hends).2] at hdrop
  have hrest : (trimLeft xs).dropWhile continuesWord = gap := by
    have hblank := trim_respell_eq_nil_iff.1 (trim_eq_nil_iff.2 (hdrop ▸ hgap))
    rw [hdrop, respell_blanks (trim_eq_nil_iff.1 hblank)]
  have htext : trimLeft xs = name ++ gap := by
    rw [← takeWhile_append_dropWhile (p := continuesWord) (l := trimLeft xs), ← htake, hrest]
  have hsplit : xs.takeWhile isBlank ++ trimLeft xs = xs := takeWhile_append_dropWhile
  rw [← hsplit, respell_append_left fun c hc => ne_mark_of_isBlank (mem_takeWhile_imp hc), htrim] at he
  rw [← hsplit, htext, append_cancel_right he]

theorem ne_mark_of_continuesWord (h : continuesWord c = true) (op : LogicalOp) : c ≠ op.mark := by
  rintro rfl
  cases op <;> exact absurd h (by decide)

/-- A formatter as it is written: a name, and what is between the parentheses behind it. -/
def called (name gap : List Char) (inner : Option (List Char)) : List Char :=
  name ++ gap ++ inner.elim [] fun inner => '(' :: (inner ++ [')'])

theorem respell_called (hname : ∀ c ∈ name, continuesWord c = true) (hgap : Blank gap) (inner : Option (List Char)) :
    respell (called name gap inner) = called name gap (inner.map respell) := by
  have hplain : ∀ c ∈ name ++ gap, ∀ op : LogicalOp, c ≠ op.mark := forall_mem_append.2
    ⟨fun c hc => ne_mark_of_continuesWord (hname c hc), fun c hc => ne_mark_of_isBlank (hgap c hc)⟩
  have hopen : ∀ op : LogicalOp, '(' ≠ op.mark := by intro op; cases op <;> decide
  have hclose : ∀ op : LogicalOp, ')' ≠ op.mark := by intro op; cases op <;> decide
  rw [called, called, respell_append_left hplain]
  rcases inner with _ | inner
  · rfl
  · rw [Option.map_some, Option.elim_some, Option.elim_some, respell_cons (not_startsOperator_of_ne hopen),
      respell_append_cons hclose]
    rfl

theorem trim_called {inner : List Char} (hne : name ≠ []) (hname : ∀ c ∈ name, continuesWord c = true) :
    trim (called name gap (some inner)) = called name gap (some inner) := by
  have htrim := @trim_append (called name gap (some inner)) [] [] nofun nofun (by simp [called]) ?_ ?_
  · rwa [append_nil] at htrim
  · intro c hc
    rw [called, append_assoc, head?_append_of_ne_nil _ hne] at hc
    exact isBlank_eq_false_of_continuesWord (hname c (mem_of_head? hc))
  · rw [called, Option.elim_some, ← cons_append, ← append_assoc, getLast?_concat]
    rintro c ⟨⟩
    decide

theorem not_startsOperator_trimLeft (h : ¬ StartsOperator mark (trimLeft (xs ++ ys))) :
    ¬ StartsOperator mark (trimLeft xs) := by
  rintro ⟨op, rest, he⟩
  refine h ⟨op, rest ++ ys, ?_⟩
  rw [trimLeft] at he
  rw [trimLeft, dropWhile_append, he]
  rfl

theorem splitSegment?_respell (h : ¬ StartsOperator mark (trimLeft segment)) :
    splitSegment? (respell segment) = (splitSegment? segment).map (Prod.map id (Option.map respell)) := by
  have hnamed : ∀ {name : List Char}, name.head?.any isFormatterStart = true → (∀ c ∈ name, isWord c = true ∨ c = '$') →
      name ≠ [] ∧ ∀ c ∈ name, continuesWord c = true := by
    intro name hstart hname
    refine ⟨?_, fun c hc => by simpa [continuesWord] using hname c hc⟩
    rintro rfl
    cases hstart
  refine Option.ext fun parts => ?_
  obtain ⟨name, inner⟩ := parts
  rw [Option.map_eq_some_iff]
  constructor
  · intro hsplit
    obtain ⟨⟨hstart, hname⟩, gap, hgap, htrim⟩ := splitSegment?_eq_some hsplit
    obtain ⟨hne, hword⟩ := hnamed hstart hname
    have hblank := all_eq_true.1 hgap
    obtain ⟨pre, post, hsegment, hpre, hpost⟩ := exists_trim (respell segment)
    rw [htrim] at hsegment
    rcases inner with _ | inner
    · have he : respell segment = pre ++ (name ++ (gap ++ post)) := by simpa using hsegment
      have hsame := eq_of_respell_eq_name h hpre (forall_mem_append.2 ⟨hblank, hpost⟩) hne hword he
      rw [← he] at hsame
      exact ⟨(name, none), hsame ▸ hsplit, rfl⟩
    · have he : respell segment = (pre ++ (name ++ gap)) ++ '(' :: (inner ++ ')' :: post) := by simpa using hsegment
      obtain ⟨xs, ys, rfl, hxs, hys⟩ := exists_of_respell_eq (by intro op; cases op <;> decide) he
      obtain ⟨raw, zs, rfl, rfl, hzs⟩ := exists_of_respell_eq (by intro op; cases op <;> decide) hys
      obtain rfl := eq_of_respell_eq_name (not_startsOperator_trimLeft h) hpre hblank hne hword hxs
      have hend : Blank zs := trim_eq_nil_iff.1 (trim_respell_eq_nil_iff.1 (trim_eq_nil_iff.2 (hzs ▸ hpost)))
      have hcalled : pre ++ (name ++ gap) ++ '(' :: (raw ++ ')' :: zs) = pre ++ (called name gap (some raw) ++ zs) := by
        simp [called]
      refine ⟨(name, some raw), splitSegment?_of_eq hstart hname hgap ?_, rfl⟩
      rw [hcalled, trim_blanks hpre hend]
      exact trim_called hne hword
  · rintro ⟨⟨name', inner'⟩, hsplit, he⟩
    cases he
    obtain ⟨⟨hstart, hname⟩, gap, hgap, htrim⟩ := splitSegment?_eq_some hsplit
    obtain ⟨hne, hword⟩ := hnamed hstart hname
    refine splitSegment?_of_eq hstart hname hgap ?_
    change trim (respell segment) = called name' gap (inner'.map respell)
    change trim segment = called name' gap inner' at htrim
    rw [← trim_respell_trim, htrim, respell_called hword (all_eq_true.1 hgap)]
    rcases inner' with _ | inner'
    · rw [Option.map_none, ← htrim, trim_trim]
    · exact trim_called hne hword

end Segments

section Pipelines

variable {cs segment : List Char}

theorem splitTop_respell {sep : Char} (hsep : sep = ',' ∨ sep = '|') (hbars : sep = '|' → ¬ OperatorFollowsBar cs) :
    splitTop sep (respell cs) = (splitTop sep cs).map respell := by
  have hnone : sep = '|' → (none : Option Char) = some '|' ∨ (none : Option Char) = some '|' → cs.head? ≠ some '|' := by
    rintro - (h | h) <;> cases h
  rw [splitTop, splitTop, splitFrom_respell hsep hbars hnone]
  rfl

def respellPart (cs : List Char) : List Char := trim (respell cs)

theorem isEmpty_respellPart (cs : List Char) : (respellPart cs).isEmpty = (trim cs).isEmpty := by
  rw [Bool.eq_iff_iff, List.isEmpty_iff, List.isEmpty_iff, respellPart, trim_respell_eq_nil_iff]

theorem readFormatter_respell (h : ¬ StartsOperator mark (trimLeft segment)) :
    (readFormatter (respell segment)).toOption = (readFormatter segment).toOption.map (Formatter.map respellPart) := by
  unfold readFormatter
  rw [splitSegment?_respell h]
  rcases splitSegment? segment with _ | ⟨name, _ | inner⟩
  · rfl
  · rfl
  · have hparts : (splitTop ',' (respell inner)).map trim = ((splitTop ',' inner).map trim).map respellPart := by
      rw [splitTop_respell (.inl rfl) fun h => absurd h (by decide), map_map, map_map]
      exact map_congr_left fun raw _ => (trim_respell_trim raw).symm
    have hany : (((splitTop ',' inner).map trim).map respellPart).any List.isEmpty =
        ((splitTop ',' inner).map trim).any List.isEmpty := by
      simp only [any_map]
      congr 1
      funext raw
      change (respellPart (trim raw)).isEmpty = (trim raw).isEmpty
      rw [isEmpty_respellPart, trim_trim]
    dsimp only [Option.map_some, Prod.map_apply]
    rw [show (trim (respell inner)).isEmpty = (trim inner).isEmpty from isEmpty_respellPart inner, hparts, hany]
    split
    · rfl
    · split <;> rfl

theorem mapM_toOption {α β ε : Type} {g : α → Except ε β} {f : α → α} {k : β → β} {as : List α}
    (h : ∀ a ∈ as, (g (f a)).toOption = (g a).toOption.map k) :
    ((as.map f).mapM g).toOption = (as.mapM g).toOption.map (List.map k) := by
  induction as with
  | nil => rfl
  | cons a as ih =>
    obtain ⟨ha, has⟩ := forall_mem_cons.1 h
    have hrest := ih has
    rw [map_cons, mapM_cons, mapM_cons]
    rcases hga : g a with e | b <;> rcases hgf : g (f a) with e' | b' <;> rw [hga, hgf] at ha <;> cases ha
    · rfl
    · rcases hs : as.mapM g with e | bs <;> rcases hs' : (as.map f).mapM g with e' | bs' <;> rw [hs, hs'] at hrest <;>
        cases hrest
      · rfl
      · rfl

theorem exists_of_mem_segments {first : List Char} {segments : List (List Char)} (h : segment ∈ segments) :
    ∃ before after, List.intercalate ['|'] (first :: segments) = before ++ '|' :: (segment ++ after) := by
  induction segments generalizing first with
  | nil => cases h
  | cons s segments ih =>
    rw [intercalate_cons_cons]
    rcases mem_cons.1 h with rfl | hmem
    · rcases segments with _ | ⟨s', segments⟩
      · exact ⟨first, [], by simp⟩
      · exact ⟨first, ['|'] ++ List.intercalate ['|'] (s' :: segments), by simp [intercalate_cons_cons]⟩
    · obtain ⟨before, after, he⟩ := @ih s hmem
      exact ⟨first ++ ['|'] ++ before, after, by rw [he, append_assoc _ before]⟩

theorem not_startsOperator_of_mem {first : List Char} {segments : List (List Char)}
    (hparts : splitPipes cs = first :: segments)
    (h : ¬ OperatorFollowsBar cs) (hsegment : segment ∈ segments) : ¬ StartsOperator mark (trimLeft segment) := by
  rintro ⟨op, rest, he⟩
  obtain ⟨before, after, hcs⟩ := @exists_of_mem_segments segment first segments hsegment
  have hjoin : List.intercalate ['|'] (first :: segments) = cs := hparts ▸ intercalate_splitFrom '|' 0 none cs
  have hsplit : segment.takeWhile isBlank ++ trimLeft segment = segment := takeWhile_append_dropWhile
  refine h ⟨op, before, segment.takeWhile isBlank, rest ++ after, fun c hc => mem_takeWhile_imp hc, ?_⟩
  rw [← hjoin, hcs]
  conv_lhs => rw [← hsplit, he]
  simp

/-- A respelled pipeline is taken apart as before, with its parts respelled. -/
theorem Pipeline.read_respell (h : ¬ OperatorFollowsBar cs) :
    (Pipeline.read (respell cs)).toOption = (Pipeline.read cs).toOption.map (Pipeline.map respellPart) := by
  unfold Pipeline.read
  rw [splitPipes, splitTop_respell (.inr rfl) fun _ => h]
  rcases hparts : splitTop '|' cs with _ | ⟨first, segments⟩
  · rw [splitPipes, hparts]
    rfl
  have hformatters := mapM_toOption fun segment hsegment =>
    readFormatter_respell (not_startsOperator_of_mem hparts h hsegment)
  have hassign := splitAssignment_respell first
  rw [splitPipes, hparts, map_cons]
  dsimp only
  rw [show (trim (respell first)).isEmpty = (trim first).isEmpty from isEmpty_respellPart first, hassign]
  split
  · rfl
  · rcases hfs : segments.mapM readFormatter with e | fs <;>
      rcases hfs' : (segments.map respell).mapM readFormatter with e' | fs' <;> rw [hfs, hfs'] at hformatters <;>
      cases hformatters
    · rfl
    · rcases splitAssignment (trim first) with _ | ⟨target, value⟩
      · exact congrArg (fun value => some (Pipeline.mk none value (fs.map (Formatter.map respellPart))))
          (trim_respell_trim first).symm
      · rfl

end Pipelines

section Calls

variable {xs ys value value' : List Char} {f f' : Formatter} {fs fs' : List Formatter} {p p' : Pipeline}

theorem Alike.refl (xs : List Char) : Alike xs xs := fun _ _ => Iff.rfl

theorem alike_respellPart (xs : List Char) : Alike (replaceWords xs) (replaceWords (respellPart xs)) := by
  intro ls hjoined
  rw [respellPart, lexes_trim_iff]
  exact alike_respell [] xs ls hjoined

theorem joined_of_intercalate {pieces : List (List Lexeme)} (h : Joined (List.intercalate [.symbol .comma] pieces)) :
    ∀ piece ∈ pieces, Joined piece := by
  induction pieces with
  | nil => nofun
  | cons piece pieces ih =>
    rcases pieces with _ | ⟨piece', pieces⟩
    · rw [intercalate_singleton] at h
      exact forall_mem_singleton.2 h
    · rw [intercalate_cons_cons, append_assoc] at h
      exact forall_mem_cons.2 ⟨(joined_of_append h).1, ih (joined_of_append (joined_of_append h).2).2⟩

theorem forall₂_lexes_iff {texts texts' : List (List Char)} {pieces : List (List Lexeme)}
    (h : List.Forall₂ Alike texts texts') (hpieces : ∀ piece ∈ pieces, Joined piece) :
    List.Forall₂ Lexes texts pieces ↔ List.Forall₂ Lexes texts' pieces := by
  induction h generalizing pieces with
  | nil => exact Iff.rfl
  | cons htext _ ih =>
    rcases pieces with _ | ⟨piece, pieces⟩
    · exact iff_of_false nofun nofun
    · obtain ⟨hpiece, hrest⟩ := forall_mem_cons.1 hpieces
      rw [forall₂_cons, forall₂_cons, htext piece hpiece, ih hrest]

/-- Two formatters with the same name and arguments that are alike. -/
def Formatter.Alike (f f' : Formatter) : Prop := f.name = f'.name ∧ List.Forall₂ Surface.Alike f.arguments f'.arguments

theorem Formatter.Alike.apply (hf : f.Alike f') (hvalue : Surface.Alike value value') :
    Surface.Alike (f.apply value []) (f'.apply value' []) := by
  intro ls hjoined
  have hcallee : f.callee = f'.callee := congrArg (fun name => "_formatters_.".toList ++ name ++ ".call".toList) hf.1
  have hpassed : List.Forall₂ Surface.Alike (f.passed value) (f'.passed value') := .cons (.refl _) (.cons hvalue hf.2)
  rw [lexes_apply_iff, lexes_apply_iff, hcallee]
  refine exists_congr fun as => exists_congr fun pieces => and_congr_right fun _ => and_congr_left ?_
  rintro rfl
  have hinner := (joined_of_append (joined_of_append hjoined).2.tail).1
  exact forall₂_lexes_iff hpassed (joined_of_intercalate hinner)

theorem alike_nest (hfs : List.Forall₂ Formatter.Alike fs fs') (hvalue : Alike value value') :
    Alike (nest value fs) (nest value' fs') := by
  induction hfs generalizing value value' with
  | nil => exact hvalue
  | cons hf _ ih => exact ih (hf.apply hvalue)

structure Pipeline.Alike (p p' : Pipeline) : Prop where
  target : Option.Rel Surface.Alike p.target p'.target
  value : Surface.Alike p.value p'.value
  formatters : List.Forall₂ Formatter.Alike p.formatters p'.formatters

theorem Pipeline.Alike.calls (h : p.Alike p') : List.Forall₂ Formatter.Alike p.calls p'.calls := by
  obtain ⟨htarget, -, hfs⟩ := h
  unfold Pipeline.calls
  generalize p.target = target at htarget ⊢
  generalize p'.target = target' at htarget ⊢
  generalize p.formatters = fs at hfs ⊢
  generalize p'.formatters = fs' at hfs ⊢
  cases htarget with
  | none => exact hfs
  | some =>
    cases hfs with
    | nil => exact .nil
    | cons hf hfs => exact .cons ⟨hf.1, rel_append hf.2 (.cons (.refl _) .nil)⟩ hfs

theorem Pipeline.Alike.text (h : p.Alike p') : Surface.Alike p.text p'.text := by
  have hnest := alike_nest h.calls h.value
  obtain ⟨htarget, -, -⟩ := h
  unfold Pipeline.text
  generalize p.target = target at htarget ⊢
  generalize p'.target = target' at htarget ⊢
  cases htarget with
  | none => exact hnest
  | some htarget =>
    intro ls hjoined
    dsimp only
    rw [lexes_assignment_iff, lexes_assignment_iff]
    refine exists_congr fun as => exists_congr fun bs => ?_
    constructor <;> rintro ⟨has, hbs, rfl⟩ <;> obtain ⟨hjoinedAs, hjoinedBs⟩ := joined_of_append hjoined
    · exact ⟨(htarget as hjoinedAs).1 has, (hnest bs hjoinedBs.tail).1 hbs, rfl⟩
    · exact ⟨(htarget as hjoinedAs).2 has, (hnest bs hjoinedBs.tail).2 hbs, rfl⟩

end Calls

section Trees

variable {cs : List Char} {t : Expr Placeholder}

/-- The tree of a text that can have formatter pipes. -/
def HasTree (cs : List Char) (t : Expr Placeholder) : Prop :=
  ∃ unpiped, desugar cs = .ok unpiped ∧ parse (replaceWords unpiped) = .ok t

theorem desugar_of_length_lt (h : ¬ 2 ≤ (splitPipes cs).length) : desugar cs = .ok cs := by
  unfold desugar
  rcases hparts : splitPipes cs with _ | ⟨first, _ | ⟨segment, segments⟩⟩
  · rfl
  · rfl
  · rw [hparts] at h
    exact absurd (Nat.le_add_left 2 segments.length) h

theorem Pipeline.alike_respellPart (p : Pipeline) :
    (p.map replaceWords).Alike ((p.map respellPart).map replaceWords) := by
  have hparts : ∀ texts : List (List Char),
      List.Forall₂ Surface.Alike (texts.map replaceWords) ((texts.map respellPart).map replaceWords) := by
    intro texts
    rw [map_map, forall₂_map_left_iff, forall₂_map_right_iff]
    exact forall₂_same.2 fun text _ => Surface.alike_respellPart text
  refine ⟨?_, Surface.alike_respellPart p.value, ?_⟩
  · rcases p with ⟨_ | target, value, formatters⟩
    · exact .none
    · exact .some (Surface.alike_respellPart target)
  · rcases p with ⟨target, value, formatters⟩
    simp only [Pipeline.map, map_map]
    rw [forall₂_map_left_iff, forall₂_map_right_iff]
    exact forall₂_same.2 fun f _ => ⟨rfl, hparts f.arguments⟩

theorem hasTree_iff {unpiped : List Char} (h : desugar cs = .ok unpiped) :
    HasTree cs t ↔ parse (replaceWords unpiped) = .ok t := by
  unfold HasTree
  rw [h]
  exact ⟨by rintro ⟨_, ⟨⟩, ht⟩; exact ht, fun ht => ⟨_, rfl, ht⟩⟩

/-- A text has the same tree when it is respelled, unless an operator follows a bar. -/
theorem hasTree_respell_iff (h : ¬ OperatorFollowsBar cs) : HasTree (respell cs) t ↔ HasTree cs t := by
  have hsplit : (splitPipes (respell cs)).length = (splitPipes cs).length := by
    rw [splitPipes, splitTop_respell (.inr rfl) fun _ => h, length_map]
    rfl
  by_cases hlength : 2 ≤ (splitPipes cs).length
  · have hdesugar := desugar_eq hlength
    have hdesugar' := desugar_eq (hsplit ▸ hlength)
    have hread := Pipeline.read_respell h
    rcases hp : Pipeline.read cs with e | p <;> rcases hp' : Pipeline.read (respell cs) with e' | p' <;>
      rw [hp, hp'] at hread <;> cases hread <;> rw [hp] at hdesugar <;> rw [hp'] at hdesugar'
    · unfold HasTree
      rw [hdesugar, hdesugar']
      exact iff_of_false (by rintro ⟨_, he, -⟩; cases he) (by rintro ⟨_, he, -⟩; cases he)
    · rw [hasTree_iff hdesugar, hasTree_iff hdesugar',
        Pipeline.replaceWords_text (Pipeline.isWritten_of_read hp).isNamed,
        Pipeline.replaceWords_text (Pipeline.isWritten_of_read hp').isNamed]
      exact p.alike_respellPart.text.parse_iff.symm
  · rw [hasTree_iff (desugar_of_length_lt hlength), hasTree_iff (desugar_of_length_lt (hsplit ▸ hlength))]
    exact (alike_respell [] cs).parse_iff.symm

end Trees

end NullSafe.Surface
