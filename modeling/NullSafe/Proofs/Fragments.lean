import NullSafe.Proofs.RespelledParts

/-! # Fragments of pipelines

A text with formatter pipes is taken apart at commas, parentheses, pipes and the sign of an assignment. A fragment
without such signs is in one of the parts. If its tokens are not joined, the whole text has no tree.
-/

namespace NullSafe.Surface

open Text List

/-- A text that is not taken apart, with what can stand before it and behind it. -/
structure Fragment where
  text : List Char
  before : Option Char → Prop
  after : Option Char → Prop
  before_none : before none
  after_none : after none
  first : ∀ c ∈ text.head?, isBlank c = false
  last : ∀ c ∈ text.getLast?, isBlank c = false
  signs : ∀ c ∈ text, c ∉ [',', '=', '(', ')']
  outside : ∃ c ∈ text, isBlank c = false ∧ continuesWord c = false

namespace Fragment

variable {F : Fragment} {c : Char} {cs xs ys pre post : List Char}

def In (F : Fragment) (cs : List Char) : Prop :=
  ∃ xs ys, cs = xs ++ (F.text ++ ys) ∧ F.before xs.getLast? ∧ F.after ys.head?

theorem text_ne_nil (F : Fragment) : F.text ≠ [] := by
  obtain ⟨c, hc, -⟩ := F.outside
  rintro hnil
  rw [hnil] at hc
  cases hc

theorem not_mem_text (F : Fragment) (hc : c ∈ [',', '=', '(', ')']) : c ∉ F.text := fun hmem => F.signs c hmem hc

theorem before_getLast? (h : F.before (xs ++ ys).getLast?) : F.before ys.getLast? := by
  rcases hys : ys.getLast? with _ | c
  · exact F.before_none
  · rwa [getLast?_append, hys] at h

theorem after_head? (h : F.after (xs ++ ys).head?) : F.after xs.head? := by
  rcases hxs : xs.head? with _ | c
  · exact F.after_none
  · rwa [head?_append, hxs] at h

theorem In.of_append_cons (hc : c ∉ F.text) (h : F.In (xs ++ c :: ys)) : F.In xs ∨ F.In ys := by
  obtain ⟨us, vs, he, hbefore, hafter⟩ := h
  rcases append_eq_append_iff.1 he with ⟨as, rfl, htail⟩ | ⟨as, rfl, htail⟩
  · right
    rcases as with _ | ⟨a, as⟩
    · obtain ⟨x, text, htext⟩ := exists_cons_of_ne_nil F.text_ne_nil
      rw [htext] at htail hc
      exact absurd (List.cons.inj htail).1 fun hx => hc (hx ▸ .head _)
    · obtain ⟨rfl, rfl⟩ := List.cons.inj htail
      rw [← singleton_append, ← append_assoc] at hbefore
      exact ⟨as, vs, rfl, before_getLast? hbefore, hafter⟩
  · left
    rcases append_eq_append_iff.1 htail with ⟨bs, rfl, rfl⟩ | ⟨bs, htext, hys⟩
    · exact ⟨us, bs, rfl, hbefore, after_head? hafter⟩
    · rcases bs with _ | ⟨x, bs⟩
      · refine ⟨us, [], ?_, hbefore, F.after_none⟩
        rw [htext, append_nil, append_nil]
      · obtain ⟨rfl, -⟩ := List.cons.inj hys
        exact absurd (htext ▸ mem_append_right _ (.head _)) hc

theorem In.of_intercalate {parts : List (List Char)} (hc : c ∉ F.text) (h : F.In (List.intercalate [c] parts)) :
    ∃ part ∈ parts, F.In part := by
  induction parts with
  | nil =>
    obtain ⟨xs, ys, he, -⟩ := h
    exact absurd he (by simp [List.intercalate, F.text_ne_nil])
  | cons part parts ih =>
    rcases parts with _ | ⟨part', parts⟩
    · rw [intercalate_singleton] at h
      exact ⟨part, .head _, h⟩
    · rw [intercalate_cons_cons, append_assoc, singleton_append] at h
      rcases h.of_append_cons hc with h | h
      · exact ⟨part, .head _, h⟩
      · obtain ⟨p, hp, hin⟩ := ih h
        exact ⟨p, .tail _ hp, hin⟩

theorem In.of_blanks_append (hpre : Blank pre) (h : F.In (pre ++ cs)) : F.In cs := by
  induction pre with
  | nil => exact h
  | cons c pre ih =>
    obtain ⟨hc, hrest⟩ := forall_mem_cons.1 hpre
    obtain ⟨_ | ⟨x, us⟩, vs, he, hbefore, hafter⟩ := h
    · have hhead : F.text.head? = some c := by
        rw [← head?_append_of_ne_nil _ F.text_ne_nil, ← nil_append (F.text ++ vs), ← he]
        rfl
      rw [F.first c hhead] at hc
      cases hc
    · rw [cons_append, cons_append] at he
      rw [← singleton_append] at hbefore
      exact ih hrest ⟨us, vs, (List.cons.inj he).2, before_getLast? hbefore, hafter⟩

theorem In.of_append_blanks (hpost : Blank post) (h : F.In (cs ++ post)) : F.In cs := by
  obtain ⟨us, vs, he, hbefore, hafter⟩ := h
  rw [← append_assoc] at he
  rcases append_eq_append_iff.1 he with ⟨as, htext, hpost'⟩ | ⟨as, rfl, rfl⟩
  · rcases as with _ | ⟨a, as⟩
    · refine ⟨us, [], ?_, hbefore, F.after_none⟩
      rw [append_nil, htext, append_nil]
    · obtain ⟨z, hz⟩ := Option.isSome_iff_exists.1 (getLast?_isSome.2 (cons_ne_nil a as))
      have hlast : F.text.getLast? = some z := by
        rw [← getLast?_append_of_ne_nil us F.text_ne_nil, htext, getLast?_append_of_ne_nil _ (cons_ne_nil a as), hz]
      have hblank := hpost z (hpost' ▸ mem_append_left _ (mem_of_getLast? hz))
      rw [F.last z hlast] at hblank
      cases hblank
  · exact ⟨us, as, by rw [append_assoc], hbefore, after_head? hafter⟩

theorem In.trim (h : F.In cs) : F.In (trim cs) := by
  obtain ⟨pre, post, hcs, hpre, hpost⟩ := exists_trim cs
  rw [hcs] at h
  exact (h.of_blanks_append hpre).of_append_blanks hpost

theorem not_in_of_forall (h : ∀ c ∈ cs, isBlank c = true ∨ continuesWord c = true) : ¬ F.In cs := by
  rintro ⟨xs, ys, rfl, -⟩
  obtain ⟨c, hc, hblank, hword⟩ := F.outside
  have hkind := h c (mem_append_right _ (mem_append_left _ hc))
  rw [hblank, hword] at hkind
  simp at hkind

theorem not_in_nil : ¬ F.In [] := not_in_of_forall nofun

theorem In.of_isWritten {f : Formatter} {segment : List Char} (hf : f.IsNamed) (hwritten : f.IsWritten segment)
    (h : F.In segment) : ∃ a ∈ f.arguments, F.In a := by
  obtain ⟨gap, hgap, hform⟩ := hwritten
  have hname : ¬ F.In (f.name ++ gap) := by
    refine not_in_of_forall (forall_mem_append.2 ⟨fun c hc => .inr ?_, fun c hc => .inl ?_⟩)
    · simpa [continuesWord] using hf.2 c hc
    · exact all_eq_true.1 hgap c hc
  have htext := h.trim
  obtain ⟨-, htrim⟩ | ⟨inner, htrim, hinner⟩ := hform <;> rw [htrim] at htext
  · exact absurd htext hname
  · rcases htext.of_append_cons (F.not_mem_text (by decide)) with hin | hin
    · exact absurd hin hname
    rcases hin.of_append_cons (F.not_mem_text (by decide)) with hin | hin
    · obtain ⟨-, hnil⟩ | ⟨raws, rfl, hraws⟩ := hinner
      · exact absurd (hnil ▸ hin.trim) not_in_nil
      · obtain ⟨raw, hraw, hin⟩ := hin.of_intercalate (F.not_mem_text (by decide))
        exact ⟨Text.trim raw, hraws ▸ mem_map_of_mem hraw, hin.trim⟩
    · exact absurd hin not_in_nil

/-- A fragment of an assignment is in what is assigned or in what it is assigned to. -/
theorem In.of_splitAssignment {target value : List Char} (h : F.In cs)
    (hsplit : splitAssignment cs = some (target, value)) : F.In target ∨ F.In value := by
  obtain ⟨⟨t, v⟩, ht, he⟩ := Option.map_eq_some_iff.1 hsplit
  cases he
  rw [← Literal.splitAssignFrom_text ht] at h
  exact (h.of_append_cons (F.not_mem_text (by decide))).imp In.trim In.trim

end Fragment

def Pipeline.parts (p : Pipeline) : List (List Char) :=
  p.target.toList ++ p.value :: p.formatters.flatMap Formatter.arguments

theorem Pipeline.parts_map (g : List Char → List Char) (p : Pipeline) : (p.map g).parts = p.parts.map g := by
  rcases p with ⟨_ | target, value, formatters⟩ <;>
    simp [Pipeline.parts, Pipeline.map, Formatter.map, map_flatMap, flatMap_map]

theorem Fragment.In.exists_part {F : Fragment} {p : Pipeline} {cs part : List Char} (hp : p.IsWritten cs)
    (hpart : part ∈ splitPipes cs) (h : F.In part) : ∃ a ∈ p.parts, F.In a := by
  obtain ⟨first, segments, hparts, hhead, hfs⟩ := hp
  rw [hparts] at hpart
  unfold Pipeline.parts
  rcases mem_cons.1 hpart with rfl | hmem
  · rcases htarget : p.target with _ | target <;> rw [htarget] at hhead
    · exact ⟨p.value, .head _, hhead.2 ▸ h.trim⟩
    · rcases h.trim.of_splitAssignment hhead with hin | hin
      · exact ⟨target, .head _, hin⟩
      · exact ⟨p.value, .tail _ (.head _), hin⟩
  · obtain ⟨f, hf, hnamed, hwritten⟩ := exists_of_forall₂ hfs.flip _ hmem
    obtain ⟨a, ha, hin⟩ := h.of_isWritten hnamed hwritten
    exact ⟨a, mem_append_right _ (.tail _ (mem_flatMap.2 ⟨f, hf, ha⟩)), hin⟩

section Lexed

variable {cs value : List Char} {fs : List Formatter} {p : Pipeline} {t : Expr Placeholder}

/-- A text has tokens, and an operand follows each operator. -/
def Lexed (cs : List Char) : Prop := ∃ ls, Lexes cs ls ∧ Joined ls

theorem lexed_of_parse (h : parse cs = .ok t) : Lexed cs := by
  obtain ⟨ls, hls, -, d, -, rfl, -⟩ := parse_eq_ok_iff.1 h
  exact ⟨_, hls, d.joined_yield⟩

theorem lexed_of_forall₂ {texts : List (List Char)} {pieces : List (List Lexeme)} (h : List.Forall₂ Lexes texts pieces)
    (hpieces : ∀ piece ∈ pieces, Joined piece) : ∀ text ∈ texts, Lexed text := by
  induction h with
  | nil => nofun
  | cons hls _ ih =>
    obtain ⟨hpiece, hrest⟩ := forall_mem_cons.1 hpieces
    exact forall_mem_cons.2 ⟨⟨_, hls, hpiece⟩, ih hrest⟩

theorem lexed_of_apply {f : Formatter} (h : Lexed (f.apply value [])) : Lexed value ∧ ∀ a ∈ f.arguments, Lexed a := by
  obtain ⟨ls, hls, hjoined⟩ := h
  obtain ⟨xs, pieces, -, hpieces, rfl⟩ := Formatter.lexes_apply_iff.1 hls
  have hinner := joined_of_intercalate (joined_of_append (joined_of_append hjoined).2.tail).1
  obtain ⟨-, hpassed⟩ := forall_mem_cons.1 (lexed_of_forall₂ hpieces hinner)
  exact forall_mem_cons.1 hpassed

theorem lexed_of_nest (h : Lexed (nest value fs)) : Lexed value ∧ ∀ f ∈ fs, ∀ a ∈ f.arguments, Lexed a := by
  induction fs generalizing value with
  | nil => exact ⟨h, nofun⟩
  | cons f fs ih =>
    obtain ⟨happly, hfs⟩ := ih h
    obtain ⟨hvalue, hf⟩ := lexed_of_apply happly
    exact ⟨hvalue, forall_mem_cons.2 ⟨hf, hfs⟩⟩

theorem Pipeline.lexed_parts (h : Lexed p.text) : ∀ a ∈ p.parts, Lexed a := by
  have hcalls : ∀ {targets : List (List Char)}, (∀ a ∈ targets, Lexed a) → Lexed (nest p.value p.calls) →
      ∀ a ∈ targets ++ p.value :: p.formatters.flatMap Formatter.arguments, Lexed a := by
    intro targets htargets hnest
    obtain ⟨hvalue, hfs⟩ := lexed_of_nest hnest
    refine forall_mem_append.2 ⟨htargets, forall_mem_cons.2 ⟨hvalue, fun a ha => ?_⟩⟩
    obtain ⟨f, hf, ha⟩ := mem_flatMap.1 ha
    exact Pipeline.forall_of_calls hfs f hf a ha
  unfold Pipeline.text at h
  unfold Pipeline.parts
  rcases htarget : p.target with _ | target <;> rw [htarget] at h
  · exact hcalls nofun h
  · obtain ⟨ls, hls, hjoined⟩ := h
    obtain ⟨xs, ys, hxs, hys, rfl⟩ := lexes_assignment_iff.1 hls
    obtain ⟨hleft, hright⟩ := joined_of_append hjoined
    exact hcalls (forall_mem_singleton.2 ⟨xs, hxs, hleft⟩) ⟨ys, hys, hright.tail⟩

/-- What a text with a tree is taken apart into has tokens. -/
theorem HasTree.lexed (h : HasTree cs t) :
    Lexed (replaceWords cs) ∨ ∃ p : Pipeline, p.IsWritten cs ∧ ∀ a ∈ p.parts, Lexed (replaceWords a) := by
  obtain ⟨unpiped, hunpiped, ht⟩ := h
  by_cases hlength : 2 ≤ (splitPipes cs).length
  · right
    rw [desugar_eq hlength] at hunpiped
    rcases hp : Pipeline.read cs with e | p <;> rw [hp] at hunpiped <;> cases hunpiped
    have hwritten := Pipeline.isWritten_of_read hp
    rw [Pipeline.replaceWords_text hwritten.isNamed] at ht
    have hparts := Pipeline.lexed_parts (lexed_of_parse ht)
    rw [Pipeline.parts_map] at hparts
    exact ⟨p, hwritten, fun a ha => hparts _ (mem_map_of_mem ha)⟩
  · left
    rw [desugar_of_length_lt hlength] at hunpiped
    cases hunpiped
    exact lexed_of_parse ht

/-- A text has no tree if a fragment of it has no joined tokens. -/
theorem Fragment.In.not_hasTree {F : Fragment} (hbar : '|' ∉ F.text) (hF : ∀ a, F.In a → ¬ Lexed (replaceWords a))
    (h : F.In cs) : ¬ HasTree cs t := by
  intro ht
  rcases ht.lexed with hlexed | ⟨p, hwritten, hparts⟩
  · exact hF cs h hlexed
  · have hjoin : List.intercalate ['|'] (splitPipes cs) = cs := intercalate_splitFrom '|' 0 none cs
    obtain ⟨part, hpart, hin⟩ := (hjoin.symm ▸ h : F.In (List.intercalate ['|'] (splitPipes cs))).of_intercalate hbar
    obtain ⟨a, ha, hin⟩ := hin.exists_part hwritten hpart
    exact hF a hin (hparts a ha)

end Lexed

section Operators

variable {op : LogicalOp} {cs xs ys gap : List Char} {d : Int} {b : Option Char} {t : Expr Placeholder}
  {hgap : ∀ c ∈ gap, isBlank c = true}

theorem not_joined_of_last {as bs : List Lexeme} {l : Lexeme} (has : Lexes xs as) (hlast : xs.getLast? = some op.mark)
    (hl : l.startsOperand = false) : ¬ Joined (as ++ l :: bs) := by
  obtain ⟨init, rfl⟩ := getLast?_eq_some_iff.1 (getLast?_of_lexes_mark has hlast)
  intro hjoined
  rw [append_assoc, singleton_append] at hjoined
  have hpair := (isChain_cons_cons.1 (isChain_append.1 hjoined).2.1).1 (isLogical_symbol op)
  rw [hl] at hpair
  cases hpair

theorem not_sign_of_isBlank {c : Char} (h : isBlank c = true) : c ∉ [',', '=', '(', ')'] := by
  intro hmem
  simp only [mem_cons, not_mem_nil, or_false] at hmem
  rcases hmem with rfl | rfl | rfl | rfl <;> exact absurd h (by decide)

def barFragment (op : LogicalOp) (gap : List Char) (hgap : ∀ c ∈ gap, isBlank c = true) : Fragment where
  text := '|' :: (gap ++ [op.mark, op.mark])
  before _ := True
  after _ := True
  before_none := trivial
  after_none := trivial
  first := by
    rintro c ⟨⟩
    decide
  last := by
    rw [← singleton_append, ← append_assoc, append_cons, getLast?_concat]
    rintro c ⟨⟩
    cases op <;> decide
  signs := by
    refine forall_mem_cons.2 ⟨by decide, forall_mem_append.2 ⟨fun c hc => not_sign_of_isBlank (hgap c hc), ?_⟩⟩
    cases op <;> decide
  outside := ⟨'|', .head _, by decide, by decide⟩

theorem operatorFollowsBar_of_in (h : (barFragment op gap hgap).In cs) : OperatorFollowsBar cs := by
  obtain ⟨before, after, rfl, -⟩ := h
  exact ⟨op, before, gap, after, hgap, by simp [barFragment]⟩

theorem OperatorFollowsBar.not_lexed (h : OperatorFollowsBar cs) : ¬ Lexed (replaceWords cs) := by
  obtain ⟨op, before, gap, after, hgap, rfl⟩ := h
  have hwords : replaceWords (before ++ '|' :: (gap ++ op.mark :: op.mark :: after)) =
      replaceWords before ++ '|' :: (gap ++ op.mark :: op.mark :: replaceWords after) := by
    rw [replaceWords, replaceWordsFrom_append_cons (by decide), replaceWordsFrom_blank hgap (by decide)]
    exact congrArg (fun cs => replaceWords before ++ '|' :: (gap ++ cs)) (replaceWords_operator op [] after)
  rw [hwords]
  generalize replaceWords before = xs
  generalize replaceWords after = ys
  have hlast : (xs ++ ['|']).getLast? = some LogicalOp.either.mark := getLast?_concat
  -- where the bar ends a token, it ends an operator
  have hcut : ∀ {c : Char} {rest : List Char}, EndsBefore (xs ++ ['|']) c →
      gap ++ op.mark :: op.mark :: ys = c :: rest → ¬ Lexed (xs ++ '|' :: c :: rest) := by
    rintro c rest hends he ⟨ls, hls, hjoined⟩
    rw [append_cons, hends.lexes_iff] at hls
    obtain ⟨as, bs, has, hbs, rfl⟩ := hls
    rw [← he, lexes_blank_append_iff hgap, lexes_operator_iff] at hbs
    obtain ⟨bs, -, rfl⟩ := hbs
    exact not_joined_of_last has hlast (startsOperand_symbol op) hjoined
  rcases gap with _ | ⟨c, gap⟩
  · cases op with
    | both => exact hcut (.inr ⟨by decide, by rw [hlast]; decide⟩) rfl
    | either =>
      rintro ⟨ls, hls, hjoined⟩
      exact @not_joined_of_three .either xs ys ls hls hjoined
  · exact hcut (.inl (by rw [isCut, hgap c (.head _)]; rfl)) rfl

/-- An operator behind a bar is in the same part as the bar, unless a part starts with it. -/
theorem OperatorFollowsBar.splitFrom (h : OperatorFollowsBar cs) : OperatorFollowsBar (splitFrom '|' d b cs).1 ∨
    ∃ s ∈ (splitFrom '|' d b cs).2, OperatorFollowsBar s ∨ ∃ op : LogicalOp, (trimLeft s).head? = some op.mark := by
  obtain ⟨op, before, gap, after, hgap, rfl⟩ := h
  induction before generalizing d b with
  | nil =>
    have hbar : '|' ∉ gap := fun hmem => absurd (hgap _ hmem) (by decide)
    have hnone : (Surface.splitFrom '|' (d + depthStep '|') (some '|') gap).2 = [] := by rw [splitFrom_of_not_mem hbar]
    rw [nil_append, Surface.splitFrom, splitFrom_append hnone, splitFrom_operator (.inr rfl)]
    generalize Surface.splitFrom '|' _ (some op.mark) after = parts
    dsimp only [prepend]
    split
    · refine .inr ⟨_, .head _, .inr ⟨op, ?_⟩⟩
      rw [cons_append, trimLeft, (span_append hgap ?_).2]
      · rfl
      · rintro c ⟨⟩
        cases op <;> decide
    · exact .inl ⟨op, [], gap, parts.1, hgap, rfl⟩
  | cons c before ih =>
    rw [cons_append, Surface.splitFrom]
    dsimp only
    have hrest := @ih (d + depthStep c) (some c)
    split
    · rcases hrest with h | ⟨s, hs, h⟩
      · exact .inr ⟨_, .head _, .inl h⟩
      · exact .inr ⟨s, .tail _ hs, h⟩
    · exact hrest.imp_left fun h => h.append [c]

theorem Formatter.IsWritten.head?_ne {f : Formatter} {segment : List Char} (hf : f.IsNamed) (h : f.IsWritten segment) :
    (trimLeft segment).head? ≠ some op.mark := by
  intro hhead
  obtain ⟨rest, hrest⟩ := head?_eq_some_iff.1 hhead
  have hmark : isBlank op.mark = false := by cases op <;> decide
  have htrim : (trim segment).head? = some op.mark := by
    have hcons := @trim_cons rest op.mark hmark
    rw [trim, trimLeft, dropWhile_cons_of_neg (by rw [hmark]; decide)] at hcons
    rw [trim, hrest, hcons]
    rfl
  obtain ⟨c, name, hname⟩ : ∃ c name, f.name = c :: name := by
    rcases hname : f.name with _ | ⟨c, name⟩
    · exact absurd (hname ▸ hf.1) (by decide)
    · exact ⟨c, name, rfl⟩
  have hfirst : (trim segment).head? = some c := by
    obtain ⟨gap, -, ⟨-, he⟩ | ⟨inner, he, -⟩⟩ := h <;> rw [he, hname] <;> rfl
  have hstart := hf.1
  rw [hname, head?_cons] at hstart
  cases htrim.symm.trans hfirst
  cases op <;> exact absurd hstart (by decide)

theorem OperatorFollowsBar.not_hasTree (h : OperatorFollowsBar cs) : ¬ HasTree cs t := by
  intro ht
  rcases ht.lexed with hlexed | ⟨p, hwritten, hparts⟩
  · exact h.not_lexed hlexed
  · have hpart : ∀ part ∈ splitPipes cs, ¬ OperatorFollowsBar part := by
      rintro part hmem ⟨op, before, gap, after, hgap, he⟩
      have hin : (barFragment op gap hgap).In part := ⟨before, after, by simp [barFragment, he], trivial, trivial⟩
      obtain ⟨a, ha, hin⟩ := hin.exists_part hwritten hmem
      exact (operatorFollowsBar_of_in hin).not_lexed (hparts a ha)
    obtain ⟨first, segments, hsplit, -, hfs⟩ := hwritten
    rcases @OperatorFollowsBar.splitFrom cs 0 none h with hfirst | ⟨s, hs, hs' | ⟨op, hop⟩⟩
    · exact hpart _ (.head _) hfirst
    · exact hpart s (.tail _ hs) hs'
    · have hmem : s ∈ segments := (List.cons.inj hsplit).2 ▸ hs
      obtain ⟨f, -, hnamed, hf⟩ := exists_of_forall₂ hfs.flip _ hmem
      exact hf.head?_ne hnamed hop

def slashFragment (op : LogicalOp) (gap : List Char) (hgap : ∀ c ∈ gap, isBlank c = true) : Fragment where
  text := op.word ++ ' ' :: (gap ++ ['/'])
  before x := wordCanStart x = true
  after x := x ≠ some '/'
  before_none := rfl
  after_none := nofun
  first := by
    cases op <;> rintro c ⟨⟩ <;> decide
  last := by
    rw [append_cons, ← append_assoc, getLast?_concat]
    rintro c ⟨⟩
    decide
  signs := by
    refine forall_mem_append.2 ⟨by cases op <;> decide, forall_mem_cons.2 ⟨by decide, ?_⟩⟩
    exact forall_mem_append.2 ⟨fun c hc => not_sign_of_isBlank (hgap c hc), by decide⟩
  outside := ⟨'/', by simp, by decide, by decide⟩

theorem getLast?_replaceWords_word (h : wordCanStart xs.getLast? = true) :
    (replaceWords (xs ++ op.word)).getLast? = some op.mark := by
  have hword : ∀ {x : Option Char}, wordCanStart x = true → replaceWordsFrom x op.word = [op.mark, op.mark] := by
    intro x hx
    rw [@replaceWordsFrom_congr x none hx]
    cases op <;> decide
  rcases eq_nil_or_concat xs with rfl | ⟨init, c, rfl⟩
  · rw [nil_append, replaceWords, hword rfl]
    rfl
  · rw [concat_eq_append, getLast?_concat] at h
    have hc : continuesWord c = false := by
      simp only [wordCanStart, Bool.and_eq_true, Bool.not_eq_true'] at h
      exact h.1
    rw [concat_eq_append, append_assoc, singleton_append, replaceWords, replaceWordsFrom_append_cons hc, hword h]
    simp

theorem head?_of_replaced (h : Replaced xs ys) (hhead : ys.head? = some '/') : xs.head? = some '/' := by
  cases h with
  | nil | both | either => cases hhead
  | cons => exact hhead

/-- A slash behind a word operator divides and is no operand. -/
theorem not_lexed_of_slashFragment (h : (slashFragment op gap hgap).In cs) : ¬ Lexed (replaceWords cs) := by
  obtain ⟨before, after, rfl, hbefore, hafter⟩ := h
  have hsplit : before ++ ((slashFragment op gap hgap).text ++ after) =
      before ++ op.word ++ ' ' :: (gap ++ '/' :: after) := by
    simp [slashFragment]
  have hwords : replaceWords (before ++ op.word ++ ' ' :: (gap ++ '/' :: after)) =
      replaceWords (before ++ op.word) ++ ' ' :: (gap ++ '/' :: replaceWordsFrom (some '/') after) := by
    rw [replaceWords, replaceWordsFrom_append_cons (by decide), replaceWordsFrom_blank hgap (by decide), replaceWords,
      replaceWordsFrom_cons (not_startsWord_of_ends (by decide))]
    rfl
  have hslash : readLexeme? ('/' :: replaceWordsFrom (some '/') after) =
      some (.symbol .slash, replaceWordsFrom (some '/') after) := by
    have hnext := fun hhead => hafter (head?_of_replaced (replaced_replaceWordsFrom (some '/') after) hhead)
    generalize replaceWordsFrom (some '/') after = rest at hnext ⊢
    have hplain : readPlaceholder? ('/' :: rest) = none := by
      rcases rest with _ | ⟨c, rest⟩
      · rfl
      · have hc : c ≠ '/' := fun he => hnext (he ▸ rfl)
        simp [readPlaceholder?, hc]
    rw [readLexeme?, hplain]
    rfl
  rw [hsplit, hwords]
  rintro ⟨ls, hls, hjoined⟩
  rw [lexes_append_cons_iff (by decide)] at hls
  obtain ⟨as, bs, has, hbs, rfl⟩ := hls
  rw [lexes_blank_iff (by decide), lexes_blank_append_iff hgap, lexes_read_iff (by decide) hslash] at hbs
  obtain ⟨bs, -, rfl⟩ := hbs
  exact not_joined_of_last has (getLast?_replaceWords_word hbefore) rfl hjoined

theorem not_hasTree_of_slashFragment (h : (slashFragment op gap hgap).In cs) : ¬ HasTree cs t := by
  refine h.not_hasTree ?_ fun a => not_lexed_of_slashFragment
  have hbar : '|' ∉ gap := fun hmem => absurd (hgap _ hmem) (by decide)
  cases op <;> simp [slashFragment, LogicalOp.word, hbar]

end Operators

end NullSafe.Surface
