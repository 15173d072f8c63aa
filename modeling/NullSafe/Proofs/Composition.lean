import NullSafe.Proofs.Queues

/-! # Pipelines part by part

The tree of a text with formatter pipes is made of the trees of its parts. The text before the first pipe and the
arguments are parsed on their own, and the formatters are calls around what is before them. Where that text is an
assignment, the calls are around the value that it assigns: the characters of a text tell where it assigns as its tokens
do, if the sign is outside brackets.
-/

namespace NullSafe.Surface

open Text List

section Signs

variable {a b cs : List Char} {l : Lexeme}

theorem Symbol.read?_left {s : Symbol} {r : List Char} (h : Symbol.read? (a ++ '=' :: b) = some (s, r ++ '=' :: b)) :
    Symbol.read? a = some (s, r) := by
  obtain ⟨happ, -⟩ := Symbol.read?_eq_some h
  obtain rfl : s.chars ++ r = a := by
    rw [← append_assoc] at happ
    exact append_cancel_right happ
  refine read?_chars_append fun he hr => head?_of_read? h he ?_
  rw [head?_append, hr]
  rfl

theorem readLexeme?_left {r : List Char} (h : readLexeme? (a ++ '=' :: b) = some (l, r ++ '=' :: b)) :
    readLexeme? a = some (l, r) := by
  have ha : a ≠ [] := by
    rintro rfl
    obtain ⟨happ, hne⟩ := readLexeme?_eq_some h
    have hlength := congrArg List.length happ
    have := length_pos_iff.2 hne
    simp at hlength
    omega
  rcases @readLexeme?_append_cases a b '=' (by decide) (by decide) (by decide) ha with
    ⟨l', r', hread, happ⟩ | ⟨hread, happ⟩ <;> rw [happ] at h <;> rw [hread]
  · obtain ⟨rfl, hr⟩ := Prod.mk.inj (Option.some.inj h)
    rw [append_cancel_right hr]
  · obtain ⟨⟨s, r'⟩, hs, heq⟩ := Option.map_eq_some_iff.1 h
    cases heq
    rw [Symbol.read?_left hs]
    rfl

/-- The tokens on both sides of an assignment sign are those of the texts on its sides. -/
theorem Lexes.exists_assign {xs ys : List Lexeme} (h : Lexes cs (xs ++ Lexeme.symbol .assign :: ys)) :
    ∃ pre post, cs = pre ++ '=' :: post ∧ Lexes pre xs ∧ Lexes post ys := by
  generalize hls : xs ++ Lexeme.symbol .assign :: ys = ls at h
  induction h generalizing xs with
  | nil => cases xs <;> cases hls
  | @blank c rest ls hc _ ih =>
    obtain ⟨pre, post, rfl, hpre, hpost⟩ := ih hls
    exact ⟨c :: pre, post, rfl, .blank hc hpre, hpost⟩
  | @read c rest after l ls hc hl h ih =>
    obtain ⟨happ, hne⟩ := readLexeme?_eq_some hl
    rcases xs with _ | ⟨l', xs⟩
    · cases hls
      exact ⟨[], after, happ.symm, .nil, h⟩
    · obtain ⟨rfl, hrest⟩ := List.cons.inj hls
      obtain ⟨pre, post, rfl, hpre, hpost⟩ := ih hrest
      rw [← happ, ← append_assoc] at hl
      have hread := readLexeme?_left hl
      obtain ⟨x, chars, hchars⟩ := exists_cons_of_ne_nil hne
      refine ⟨l'.chars ++ pre, post, by rw [← happ, append_assoc], ?_, hpost⟩
      rw [hchars] at happ hread ⊢
      obtain rfl : x = c := (List.cons.inj happ).1
      exact .read hc hread hpre

end Signs

section Heads

variable {h : List Char} {t : Expr Placeholder} {ls : List Lexeme} {d e : Nat}

/-- A text has an assignment sign outside brackets. -/
def AssignsOutside (cs : List Char) : Prop :=
  ∃ xs ys, Lexes cs (xs ++ Lexeme.symbol .assign :: ys) ∧ Closed (fun _ => true) xs

theorem not_assignsOutside {p : Lexeme → Bool} (hp : p (.symbol .assign) = false) (hls : Lexes h ls)
    (hscan : scan p 0 ls = some e) : ¬ AssignsOutside h := by
  rintro ⟨xs, ys, hxs, hclosed⟩
  obtain rfl := hxs.unique hls
  rw [scan_append] at hscan
  obtain ⟨e', he', hscan⟩ := Option.bind_eq_some_iff.1 hscan
  cases (scan_mono (fun _ _ => rfl) he').symm.trans hclosed
  obtain ⟨hopens, -⟩ | ⟨hcloses, -⟩ | ⟨-, -, hinside | hassign, -⟩ := scan_cons_cases hscan
  · cases hopens
  · cases hcloses
  · cases hinside
  · rw [hp] at hassign
    cases hassign

theorem scan_unassigned (h : scan (fun _ => true) d ls = some e)
    (hno : ∀ xs ys, ls = xs ++ Lexeme.symbol .assign :: ys → scan (fun _ => true) d xs ≠ some 0) :
    scan (· != .symbol .assign) d ls = some e := by
  induction ls generalizing d with
  | nil => exact h
  | cons l ls ih =>
    obtain ⟨hopens, h'⟩ | ⟨hcloses, d, rfl, h'⟩ | ⟨hopens, hcloses, -, h'⟩ := scan_cons_cases h
    · refine (scan_open hopens).trans (ih h' fun xs ys hls hxs => hno (l :: xs) ys (by rw [hls]; rfl) ?_)
      rw [scan_open hopens, hxs]
    · refine (scan_close hcloses).trans (ih h' fun xs ys hls hxs => hno (l :: xs) ys (by rw [hls]; rfl) ?_)
      rw [scan_close hcloses, hxs]
    · have hl : 0 < d ∨ (l != .symbol .assign) = true := by
        by_cases hassign : l = .symbol .assign
        · exact .inl (Nat.pos_of_ne_zero fun hd => hno [] ls (by rw [hassign]; rfl) (by rw [hd]; rfl))
        · exact .inr (bne_iff_ne.2 hassign)
      refine (scan_plain hopens hcloses hl).trans (ih h' fun xs ys hls hxs => hno (l :: xs) ys (by rw [hls]; rfl) ?_)
      rw [scan_plain hopens hcloses (.inr rfl), hxs]

theorem assignsOutside_trim_iff : AssignsOutside (trim h) ↔ AssignsOutside h := by
  unfold AssignsOutside
  simp only [lexes_blanks_iff]

/-- An expression without an assignment sign outside brackets is not split at one. -/
theorem splitAssignment_of_not_assignsOutside (ht : parse h = .ok t) (hno : ¬ AssignsOutside h) :
    splitAssignment h = none := by
  obtain ⟨ls, hls, -, d, -, rfl, -⟩ := parse_eq_ok_iff.1 ht
  have hscan : scan (· != .symbol .assign) 0 d.yield = some 0 :=
    scan_unassigned (d.closed_yield.mono fun _ _ => rfl) fun xs ys hyield hxs => hno ⟨xs, ys, hyield ▸ hls, hxs⟩
  have hnone : splitAssignFrom 0 none h = none := hls.splitAssignFrom_eq_none (by decide) hscan none
  rw [splitAssignment, hnone]
  rfl

/-- An assignment sign outside brackets is between the text of a target and that of a value. -/
theorem exists_of_assignsOutside {target value : Expr Placeholder} (ht : parse h = .ok (.assign target value))
    (hsign : AssignsOutside h) :
    ∃ pre post, h = pre ++ '=' :: post ∧ parse pre = .ok target ∧ target.isTarget = true ∧ parse post = .ok value := by
  obtain ⟨ls, hls, hfit, d, hvalid, rfl, hmeaning⟩ := parse_eq_ok_iff.1 ht
  cases d with
  | assign target' value' =>
    cases hmeaning
    obtain ⟨hvalid, htarget, hvalid'⟩ := hvalid
    obtain ⟨pre, post, rfl, hpre, hpost⟩ := Lexes.exists_assign hls
    obtain ⟨hfit, hfit'⟩ := fit_append.1 hfit
    exact ⟨pre, post, rfl, parse_eq_ok_iff.2 ⟨_, hpre, hfit, .unassigned target', hvalid, rfl, rfl⟩, htarget,
      parse_eq_ok_iff.2 ⟨_, hpost, (fit_cons.1 hfit').2, value', hvalid', rfl, rfl⟩⟩
  | unassigned c =>
    exfalso
    cases c with
    | conditional => cases hmeaning
    | unconditional c =>
      -- outside brackets an operation has no assignment sign
      exact not_assignsOutside rfl hls c.closed_yield hsign

/-- An assignment is split at its sign into the text of its target and that of its value. -/
theorem exists_splitAssignment {target value : Expr Placeholder} (ht : parse h = .ok (.assign target value))
    (hsign : AssignsOutside h) : ∃ pre post, splitAssignment h = some (pre, post) ∧ parse pre = .ok target ∧
      target.isTarget = true ∧ parse post = .ok value := by
  obtain ⟨pre, post, rfl, hpre, htarget, hpost⟩ := exists_of_assignsOutside ht hsign
  have hnone : splitAssignFrom 0 none pre = none := by
    obtain ⟨ls, hls, -, -⟩ := parse_eq_ok_iff.1 hpre
    obtain ⟨-, e, hscan⟩ := straddles_eq_false_iff.1 (straddles_of_parse_target hpre htarget) ls hls
    exact hls.splitAssignFrom_eq_none (by decide) hscan none
  have hsplit : splitAssignFrom 0 none (pre ++ ([] ++ '=' :: ([] ++ post))) = some (pre ++ [], [] ++ post) :=
    splitAssignFrom_assignment ((Replaced.refl _).contained hpre) (fun hnil => parse_nil_ne _ (hnil ▸ hpre)) hnone
      ((Replaced.refl _).contained hpost).first nofun nofun
  rw [nil_append, nil_append, append_nil] at hsplit
  exact ⟨trim pre, trim post, by rw [splitAssignment, hsplit]; rfl, parse_blanks hpre, htarget, parse_blanks hpost⟩

end Heads

section Pipelines

variable {h : List Char} {t : Expr Placeholder} {segments : List (List Char)} {stages : List (Stage Placeholder)}

/-- A text is written for a stage: the name of a formatter, and between parentheses its arguments. -/
def IsStageText (segment : List Char) (s : Stage Placeholder) : Prop :=
  ∃ f : Formatter, f.IsWritten segment ∧ f.IsStage s

theorem exists_formatters (h : List.Forall₂ IsStageText segments stages) :
    ∃ fs, List.Forall₂ (fun f segment => f.IsNamed ∧ f.IsWritten segment) fs segments ∧
      List.Forall₂ Formatter.IsStage fs stages := by
  induction h with
  | nil => exact ⟨[], .nil, .nil⟩
  | cons h _ ih =>
    obtain ⟨f, hwritten, hstage⟩ := h
    obtain ⟨fs, hfs, hstages⟩ := ih
    exact ⟨f :: fs, .cons ⟨Formatter.isNamed_of_isName hstage.2.1, hwritten⟩ hfs, .cons hstage hstages⟩

theorem isSegment_of_isStageText {segment : List Char} {s : Stage Placeholder} (h : IsStageText segment s) :
    IsSegment segment := by
  obtain ⟨f, hwritten, -, hname, harguments⟩ := h
  refine hwritten.isSegment (Formatter.isNamed_of_isName hname) fun a ha => ?_
  obtain ⟨v, -, hv⟩ := exists_of_forall₂ harguments a ha
  exact ((Replaced.refl a).contained hv).barless

/-- The text before the first pipe is that of the value, or that of an assignment of the value. -/
def IsHead (h : List Char) (p : Piped Placeholder) : Prop :=
  match p.target with
  | none => splitAssignment (trim h) = none ∧ parse (trim h) = .ok p.value
  | some target => ∃ pre post, splitAssignment (trim h) = some (pre, post) ∧ parse pre = .ok target ∧
    target.isTarget = true ∧ parse post = .ok p.value

/-- A pipeline is accepted as the tree of its parts. -/
theorem parsePiped_of_isHead {p : Piped Placeholder} (ht : parse h = .ok t) (hp : IsHead h p)
    (hstages : List.Forall₂ IsStageText segments p.stages) (hne : segments ≠ []) :
    parsePiped (h ++ segments.flatMap ('|' :: ·)) = .ok p.tree := by
  have hsplit : splitPipes (h ++ segments.flatMap ('|' :: ·)) = h :: segments := by
    refine splitPipes_segments ((Replaced.refl h).contained ht).barless fun s hs => ?_
    obtain ⟨stage, -, hstage⟩ := exists_of_forall₂ hstages s hs
    exact isSegment_of_isStageText hstage
  have hlength : 2 ≤ (splitPipes (h ++ segments.flatMap ('|' :: ·))).length := by
    have := length_pos_iff.2 hne
    rw [hsplit, length_cons]
    omega
  obtain ⟨fs, hwritten, hfs⟩ := exists_formatters hstages
  refine WellFormed.parsePiped ?_ hlength
  rcases p with ⟨_ | target, value, stages⟩
  · obtain ⟨hnone, hvalue⟩ := hp
    exact ⟨⟨none, trim h, fs⟩, ⟨h, segments, hsplit, ⟨hnone, rfl⟩, hwritten⟩, value, _, hvalue, applied_nest hfs _, rfl⟩
  · obtain ⟨pre, post, hassign, htarget, htarget', hvalue⟩ := hp
    have hcalls : List.Forall₂ Formatter.IsStage (Pipeline.calls ⟨some pre, post, fs⟩)
        (Piped.calls ⟨some target, value, stages⟩) := forall₂_calls rfl hfs
    exact ⟨⟨some pre, post, fs⟩, ⟨h, segments, hsplit, hassign, hwritten⟩, value, _, hvalue, applied_nest hcalls _,
      target, htarget, htarget', rfl⟩

theorem isHead_of_not_assignsOutside (ht : parse h = .ok t) (hno : ¬ AssignsOutside h) : IsHead h ⟨none, t, stages⟩ :=
  ⟨splitAssignment_of_not_assignsOutside (parse_blanks ht) (mt assignsOutside_trim_iff.1 hno), parse_blanks ht⟩

theorem isHead_of_assignsOutside {target value : Expr Placeholder} (ht : parse h = .ok (.assign target value))
    (hsign : AssignsOutside h) : IsHead h ⟨some target, value, stages⟩ :=
  exists_splitAssignment (parse_blanks ht) (assignsOutside_trim_iff.2 hsign)

end Pipelines

section Unpiped

/-- A single bar outside brackets. -/
def HasPipe (cs : List Char) : Prop :=
  ∃ xs ys, cs = xs ++ '|' :: ys ∧ depthOf xs = 0 ∧ xs.getLast? ≠ some '|' ∧ ys.head? ≠ some '|'

theorem splitFrom_of_not_hasPipe {cs : List Char} {d : Int} {b : Option Char}
    (h : ∀ xs ys, cs = xs ++ '|' :: ys → d + depthOf xs = 0 → lastOr b xs ≠ some '|' → ys.head? = some '|') :
    (splitFrom '|' d b cs).2 = [] := by
  induction cs generalizing d b with
  | nil => rfl
  | cons c cs ih =>
    have hstop : (c = '|' && d = 0 && separates '|' b cs) = false := by
      by_contra hpipe
      simp only [Bool.not_eq_false, Bool.and_eq_true, decide_eq_true_eq, separates, bne_self_eq_false, Bool.false_or,
        isLoneBar, bne_iff_ne] at hpipe
      obtain ⟨⟨rfl, rfl⟩, hlast, hnext⟩ := hpipe
      exact hnext (h [] cs rfl rfl hlast)
    rw [splitFrom_cons hstop]
    refine ih fun xs ys hcs hdepth hlast => h (c :: xs) ys (by rw [hcs]; rfl) ?_ ?_
    · rw [depthOf_cons, ← Int.add_assoc]
      exact hdepth
    · rwa [lastOr_cons]

theorem desugar_of_not_hasPipe {cs : List Char} (h : ¬ HasPipe cs) : desugar cs = .ok cs := by
  have hnone : (splitFrom '|' 0 none cs).2 = [] := by
    refine splitFrom_of_not_hasPipe fun xs ys hcs hdepth hlast => ?_
    by_contra hnext
    rw [Int.zero_add] at hdepth
    rw [lastOr, Option.or_none] at hlast
    exact h ⟨xs, ys, hcs, hdepth, hlast, hnext⟩
  rw [desugar, splitPipes, splitTop]
  dsimp only
  rw [hnone]

end Unpiped

/-- The tree of a text with formatter pipes is made of the trees of its parts: calls around the value before the first
pipe, or around the value that is assigned there if the sign is outside brackets. A text without a pipe stays. -/
theorem parsePiped_parts {h : List Char} {t : Expr Placeholder} {segments : List (List Char)}
    {stages : List (Stage Placeholder)} (ht : parse h = .ok t) (hne : segments ≠ [])
    (hstages : List.Forall₂ IsStageText segments stages) :
    (¬ AssignsOutside h → parsePiped (h ++ segments.flatMap ('|' :: ·)) = .ok (Piped.tree ⟨none, t, stages⟩)) ∧
      (∀ target value, t = .assign target value → AssignsOutside h →
        parsePiped (h ++ segments.flatMap ('|' :: ·)) = .ok (Piped.tree ⟨some target, value, stages⟩)) ∧
      ∀ cs, ¬ HasPipe cs → desugar cs = .ok cs := by
  refine ⟨fun hno => ?_, ?_, fun cs hcs => desugar_of_not_hasPipe hcs⟩
  · exact parsePiped_of_isHead ht (isHead_of_not_assignsOutside ht hno) hstages hne
  · rintro target value rfl hsign
    exact parsePiped_of_isHead ht (isHead_of_assignsOutside ht hsign) hstages hne

section Grouped

theorem derives_assignment :
    Derives .assign [.name ['a'], .symbol .assign, .name ['b']] (.assign (.name "a") (.name "b")) := by
  change Derives .assign ([Lexeme.name ['a']] ++ Lexeme.symbol .assign :: [.name ['b']]) _
  exact (derives_assignment_iff ⟨0, rfl⟩ ⟨0, rfl⟩).2
    ⟨_, _, derives_name (by decide), rfl, derives_name (by decide), rfl⟩

theorem lexes_assignment : Lexes "a = b".toList [.name ['a'], .symbol .assign, .name ['b']] := by
  have htokens : tokenize "a = b".toList = .ok [⟨.name ['a'], 0⟩, ⟨.symbol .assign, 2⟩, ⟨.name ['b'], 4⟩] := by
    decide +kernel
  exact lexes_of_tokensFrom htokens

theorem parse_assignment : parse "a = b".toList = .ok (.assign (.name "a") (.name "b")) :=
  parse_eq_ok_iff.2 ⟨_, lexes_assignment, by unfold Fit; decide, derives_assignment⟩

theorem isStageText_name : IsStageText " f ".toList ⟨"f", []⟩ :=
  ⟨⟨['f'], []⟩, ⟨[], rfl, .inl ⟨rfl, by decide⟩⟩, rfl, by unfold IsName; decide, .nil⟩

theorem isStageText_call : IsStageText " g(c, d)".toList ⟨"g", [.name "c", .name "d"]⟩ := by
  have hwritten : Formatter.IsWritten ⟨['g'], [['c'], ['d']]⟩ " g(c, d)".toList :=
    ⟨[], rfl, .inr ⟨"c, d".toList, by decide, .inr ⟨[['c'], " d".toList], by decide, by decide⟩⟩⟩
  refine ⟨_, hwritten, rfl, by unfold IsName; decide, ?_⟩
  exact .cons (parse_of_isName (by unfold IsName; decide) (by decide))
    (.cons (parse_of_isName (by unfold IsName; decide) (by decide)) .nil)

/-- The first of two formatters is told that the value is assigned. -/
theorem parsePiped_assignment : AssignsOutside "a = b".toList ∧
    parsePiped "a = b| f | g(c, d)".toList =
      .ok (.assign (.name "a") (Stage.nest (.name "b") [⟨"f", [.constant .yes]⟩, ⟨"g", [.name "c", .name "d"]⟩])) := by
  have hsign : AssignsOutside "a = b".toList := ⟨[.name ['a']], [.name ['b']], lexes_assignment, rfl⟩
  obtain ⟨-, hpiped, -⟩ := parsePiped_parts parse_assignment (List.cons_ne_nil _ _)
    (.cons isStageText_name (.cons isStageText_call .nil))
  exact ⟨hsign, hpiped _ _ rfl hsign⟩

theorem lexes_grouped : Lexes "(a = b)".toList
    [.symbol .openParen, .name ['a'], .symbol .assign, .name ['b'], .symbol .closeParen] := by
  have htokens : tokenize "(a = b)".toList = .ok [⟨.symbol .openParen, 0⟩, ⟨.name ['a'], 1⟩, ⟨.symbol .assign, 3⟩,
      ⟨.name ['b'], 5⟩, ⟨.symbol .closeParen, 6⟩] := by
    decide +kernel
  exact lexes_of_tokensFrom htokens

theorem parse_grouped : parse "(a = b)".toList = .ok (.assign (.name "a") (.name "b")) := by
  obtain ⟨inner, hvalid, hyield, hmeaning⟩ := derives_assignment
  refine parse_eq_ok_iff.2 ⟨_, lexes_grouped, by unfold Fit; decide,
    derives_primary ⟨.group inner, hvalid, ?_, hmeaning⟩⟩
  rw [Derivation.yield, hyield]
  rfl

/-- The formatters are called around an assignment in brackets and not around the value that it assigns. -/
theorem not_forall_parsePiped_assign :
    ¬ ∀ (h : List Char) (target value : Expr Placeholder) (segments : List (List Char))
        (stages : List (Stage Placeholder)),
      parse h = .ok (.assign target value) → segments ≠ [] → List.Forall₂ IsStageText segments stages →
        parsePiped (h ++ segments.flatMap ('|' :: ·)) = .ok (Piped.tree ⟨some target, value, stages⟩) := by
  intro hall
  have hstages : List.Forall₂ IsStageText [" f ".toList] [⟨"f", []⟩] := .cons isStageText_name .nil
  have hno : ¬ AssignsOutside "(a = b)".toList :=
    not_assignsOutside (p := (· != .symbol .assign)) (e := 0) rfl lexes_grouped rfl
  have hassigned := hall _ _ _ _ _ parse_grouped (List.cons_ne_nil _ _) hstages
  have haround := parsePiped_of_isHead parse_grouped (isHead_of_not_assignsOutside parse_grouped hno) hstages
    (List.cons_ne_nil _ _)
  cases hassigned.symm.trans haround

end Grouped

section Splitting

/-- What a text is split into is parsed to the sides of the assignment. -/
theorem splitAssignment_agrees {cs : List Char} {t : Expr Placeholder} (h : parse cs = .ok t) :
    (∀ target value, t = .assign target value → AssignsOutside cs →
      ∃ pre post, splitAssignment cs = some (pre, post) ∧ parse pre = .ok target ∧ parse post = .ok value) ∧
    (¬ AssignsOutside cs → splitAssignment cs = none) := by
  refine ⟨?_, splitAssignment_of_not_assignsOutside h⟩
  rintro target value rfl hsign
  obtain ⟨pre, post, hsplit, hpre, -, hpost⟩ := exists_splitAssignment h hsign
  exact ⟨pre, post, hsplit, hpre, hpost⟩

theorem splitAssignment_agrees_assignment : AssignsOutside "a = b".toList ∧
    ∃ pre post, splitAssignment "a = b".toList = some (pre, post) ∧ parse pre = .ok (.name "a") ∧
      parse post = .ok (.name "b") := by
  have hsign : AssignsOutside "a = b".toList := ⟨[.name ['a']], [.name ['b']], lexes_assignment, rfl⟩
  exact ⟨hsign, (splitAssignment_agrees parse_assignment).1 _ _ rfl hsign⟩

/-- An assignment in brackets is not split. -/
theorem not_forall_splitAssignment :
    ¬ ∀ (cs : List Char) (target value : Expr Placeholder), parse cs = .ok (.assign target value) →
      ∃ pre post, splitAssignment cs = some (pre, post) ∧ parse pre = .ok target ∧ parse post = .ok value := by
  intro hall
  obtain ⟨pre, post, hsplit, -⟩ := hall _ _ _ parse_grouped
  rw [show splitAssignment "(a = b)".toList = none by decide +kernel] at hsplit
  cases hsplit

end Splitting

end NullSafe.Surface
