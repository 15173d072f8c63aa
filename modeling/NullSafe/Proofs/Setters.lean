import NullSafe.Proofs.FirstPipe
import NullSafe.Proofs.Paths
import NullSafe.Proofs.Queues

/-! # Setters

The setter of an expression is made as a text: an assignment sign and the name of the value are put before its first
pipe. What is compiled assigns to the part before the pipe as long as that part does not reach across the sign.
-/

namespace NullSafe.Surface

open Text Literal List

/-- The parts of an expression that its setter is made of. -/
structure Setter where
  negated : Bool
  head : List Char
  gap : List Char
  tail : List Char
  deriving DecidableEq

namespace Setter

def ofBody (negated : Bool) (body : List Char) : Setter :=
  match findPipe body with
  | none => ⟨negated, body, [], []⟩
  | some i => ⟨negated, trimRight (body.take i), ((body.take i).reverse.takeWhile isBlank).reverse, body.drop i⟩

def ofText (cs : List Char) : Setter :=
  let text := trim cs
  let negated := text.head? = some '!' && text.tail.head? != some '='
  ofBody negated (if negated then trimLeft text.tail else text)

def valueText (negated : Bool) : List Char := (if negated then ['!'] else []) ++ valueName.toList

def signText (negated piped : Bool) : List Char := " = ".toList ++ valueText negated ++ if piped then [' '] else []

def sign (s : Setter) : List Char := signText s.negated !s.tail.isEmpty

def body (s : Setter) : List Char := s.head ++ (s.gap ++ s.tail)

def text (s : Setter) : List Char := s.head ++ (s.sign ++ s.tail)

/-- No literal reaches across the sign: the literals of the assignment are those of its parts. -/
def Separate (s : Setter) : Prop := pieces s.text = pieces s.head ++ (s.sign.map .char ++ pieces s.tail)

instance (s : Setter) : Decidable s.Separate := inferInstanceAs (Decidable (_ = _))

def segments (s : Setter) : List (List Char) := (splitPipes (isolate s.tail)).tail

end Setter

section Cutting

variable {last : Option Char} {xs ys : List Char}

theorem piecesFrom_bar (last : Option Char) (cs : List Char) :
    piecesFrom last ('|' :: cs) = .char '|' :: piecesFrom (some '|') cs :=
  piecesFrom_char rfl

theorem isPlain_of_isBlank {c : Char} (h : isBlank c = true) (hc : c ≠ '\n') : isPlain c = true := by
  by_contra hplain
  simp only [isPlain, Bool.not_eq_true, Bool.not_eq_false', contains_iff_mem, mem_cons, not_mem_nil, or_false] at hplain
  rcases hplain with rfl | rfl | rfl | rfl | rfl
  all_goals first | exact hc rfl | exact absurd h (by decide)

theorem plain_of_isBlank (h : Blank xs) : Plain xs :=
  plain_of_kind (by decide) (by decide) (by decide) h

theorem splitFrom_left {d : Int} {b : Option Char} (h : (splitFrom '|' d b (xs ++ ys)).2 = [])
    (hys : ys.head? ≠ some '|') : (splitFrom '|' d b xs).2 = [] := by
  induction xs generalizing d b with
  | nil => rfl
  | cons c xs ih =>
    rw [cons_append] at h
    have hstop := stops_eq_false h
    have hstop' : (c = '|' && d = 0 && separates '|' b xs) = false := by
      rcases xs with _ | ⟨x, xs⟩
      · simpa [separates, isLoneBar, hys] using hstop
      · exact hstop
    rw [splitFrom_cons hstop] at h
    rw [splitFrom_cons hstop']
    exact ih h

end Cutting

namespace Setter

variable {s : Setter} {cs body : List Char}

/-- The parts are those of a text that is cut at its first pipe. -/
structure Cuts (s : Setter) : Prop where
  first : ∀ c ∈ s.head.head?, isBlank c = false
  last : ∀ c ∈ s.head.getLast?, isBlank c = false
  blank : ∀ c ∈ s.gap, isBlank c = true
  cut : ∃ last, Cut none (s.head ++ (s.gap ++ s.tail)) (pieces s.head) last (s.gap ++ s.tail)
  pipe : (s.gap = [] ∧ s.tail = [] ∧ (splitFrom '|' 0 none (isolate s.head)).2 = []) ∨
    ∃ rest, s.tail = '|' :: rest ∧
      IsFirstPipe 0 none (isolate s.head ++ s.gap) ((piecesFrom (some '|') rest).flatMap Piece.isolated)

theorem getLast?_of_suffix {xs ys : List Char} (h : xs <:+ ys) (hne : xs ≠ []) : xs.getLast? = ys.getLast? := by
  obtain ⟨pre, rfl⟩ := h
  exact (getLast?_append_of_ne_nil _ hne).symm

theorem getLast?_trimRight (cs : List Char) : ∀ c ∈ (trimRight cs).getLast?, isBlank c = false := by
  intro c hc
  rw [trimRight, getLast?_reverse] at hc
  exact head?_trimLeft c hc

theorem cuts_of_pipe (negated : Bool) {head gap rest : List Char} {before after : List Piece}
    (hfirst : ∀ c ∈ head.head?, isBlank c = false) (hlast : ∀ c ∈ head.getLast?, isBlank c = false)
    (hblank : Blank gap)
    (hpieces : pieces (head ++ (gap ++ '|' :: rest)) = before ++ Piece.char '|' :: after)
    (hbefore : before.flatMap Piece.text = head ++ gap)
    (hpipe : IsFirstPipe 0 none (before.flatMap Piece.isolated) (after.flatMap Piece.isolated)) :
    Cuts ⟨negated, head, gap, '|' :: rest⟩ := by
  have hwhole : ∀ p ∈ before, p.IsWhole := by
    intro p hp
    refine isWhole_of_mem_piecesFrom none (head ++ (gap ++ '|' :: rest)) p ?_
    rw [show piecesFrom none _ = _ from hpieces]
    exact mem_append_left _ hp
  -- the blanks are pieces of their own, and the head is what is cut off before them
  obtain ⟨qs, rfl, hqs⟩ := exists_of_blank_end hwhole hblank hbefore
  rw [append_assoc] at hpieces
  have hhead : pieces head = qs := by
    refine pieces_left hpieces hqs ?_
    rcases gap with _ | ⟨c, gap⟩
    · exact (by decide : some '|' ≠ some '/')
    · rintro ⟨⟩
      exact absurd (hblank _ (.head _)) (by decide)
  obtain ⟨last, rest', hcut, hrest⟩ := cut_of_pieces hpieces
  obtain rfl : rest' = gap ++ '|' :: rest := by
    have htext := hcut.text
    rw [hqs] at htext
    exact (append_cancel_left htext).symm
  have hafter : after = piecesFrom (some '|') rest := by
    obtain ⟨last', hgap⟩ := piecesFrom_plain_append (plain_of_isBlank hblank) last ('|' :: rest)
    rw [hgap, piecesFrom_bar] at hrest
    exact (List.cons.inj (append_cancel_left hrest)).2
  have hisolate : (qs ++ gap.map Piece.char).flatMap Piece.isolated = isolate head ++ gap := by
    rw [flatMap_append, isolate, hhead, flatMap_map]
    exact congrArg (_ ++ ·) (flatMap_singleton' gap)
  refine ⟨hfirst, hlast, hblank, ⟨last, by rw [hhead]; exact hcut⟩, .inr ⟨rest, rfl, ?_⟩⟩
  rwa [← hisolate, ← hafter]

theorem cuts_ofBody (negated : Bool) (hfirst : ∀ c ∈ body.head?, isBlank c = false)
    (hlast : ∀ c ∈ body.getLast?, isBlank c = false) : (ofBody negated body).Cuts := by
  have hwhole := isWhole_of_mem_piecesFrom none body
  unfold ofBody
  rcases hpipe : findPipe body with _ | i
  · refine ⟨hfirst, hlast, nofun, ?_, .inl ⟨rfl, rfl, splitFrom_of_findPipe_none hwhole Iff.rfl hpipe⟩⟩
    obtain ⟨last, rest, hcut, hnil⟩ := cut_of_pieces (append_nil (pieces body)).symm
    have hrest := text_piecesFrom last rest
    rw [← hnil] at hrest
    rw [← show [] = rest from hrest] at hcut
    exact ⟨last, by simpa using hcut⟩
  · obtain ⟨before, after, hpieces, rfl, hfirstPipe⟩ := exists_of_findPipe hwhole Iff.rfl hpipe
    have hbody : body = before.flatMap Piece.text ++ '|' :: after.flatMap Piece.text := by
      rw [← text_piecesFrom none body, hpieces, flatMap_append, flatMap_cons]
      rfl
    have hends := (trimRight_append (before.flatMap Piece.text)).symm
    have htake : body.take (0 + (before.flatMap Piece.text).length) = before.flatMap Piece.text := by
      rw [Nat.zero_add, hbody, take_left]
    have hdrop : body.drop (0 + (before.flatMap Piece.text).length) = '|' :: after.flatMap Piece.text := by
      rw [Nat.zero_add, hbody, drop_left]
    dsimp only
    rw [htake, hdrop]
    refine cuts_of_pipe negated (fun c hc => hfirst c ?_) (getLast?_trimRight _)
      (fun c hc => mem_takeWhile_imp (mem_reverse.1 hc)) ?_ hends hfirstPipe
    · rw [hbody, hends, append_assoc, head?_append, Option.mem_def.1 hc]
      rfl
    · rw [← append_assoc, ← hends, ← hbody]
      exact hpieces

theorem cuts_ofText (cs : List Char) : (ofText cs).Cuts := by
  unfold ofText
  dsimp only
  split
  · refine cuts_ofBody _ head?_trimLeft fun c hc => ?_
    have hsuffix : trimLeft (trim cs).tail <:+ trim cs := (dropWhile_suffix _).trans (tail_suffix _)
    rw [getLast?_of_suffix hsuffix (by rintro hnil; rw [hnil] at hc; cases hc)] at hc
    exact getLast?_trim cs c hc
  · exact cuts_ofBody _ (head?_trim cs) (getLast?_trim cs)

theorem text_ofBody (negated : Bool) (body : List Char) : (ofBody negated body).text =
    match findPipe body with
    | none => body ++ " = ".toList ++ valueText negated
    | some i => trimRight (body.take i) ++ " = ".toList ++ valueText negated ++ [' '] ++ body.drop i := by
  unfold ofBody
  rcases hpipe : findPipe body with _ | i
  · simp [text, sign, signText]
  · have hdrop : (body.drop i).isEmpty = false := by
      obtain ⟨before, after, hpieces, rfl, -⟩ :=
        exists_of_findPipe (isWhole_of_mem_piecesFrom none body) Iff.rfl hpipe
      rw [Nat.zero_add, ← text_piecesFrom none body, hpieces, flatMap_append, drop_left]
      rfl
    rw [text, sign, signText, hdrop]
    simp only [append_assoc]
    rfl

theorem text_ofText (cs : List Char) : (ofText cs).text = setterText cs := text_ofBody _ _

/-- The sign has nothing in it that a literal or a pipe would need. -/
theorem signText_spec : ∀ negated piped, (∀ c ∈ signText negated piped, isPlain c = true) ∧
    Plain (signText negated piped) ∧ '|' ∉ signText negated piped ∧ depthOf (signText negated piped) = 0 ∧
    (piped = true → (signText negated piped).getLast? = some ' ') := by
  decide

/-- Unless a line ends before the pipe, no literal reaches across the sign. -/
theorem Cuts.separate (h : s.Cuts) (hgap : ∀ c ∈ s.gap, c ≠ '\n') : s.Separate := by
  obtain ⟨last, hcut⟩ := h.cut
  have hplain : ∀ c ∈ s.gap, isPlain c = true := fun c hc => isPlain_of_isBlank (h.blank c hc) (hgap c hc)
  have htail : ∀ c ∈ s.tail.head?, isPlain c = true := by
    rcases h.pipe with ⟨-, hnil, -⟩ | ⟨rest, hrest, -⟩
    · rw [hnil]
      nofun
    · rw [hrest]
      rintro c ⟨⟩
      decide
  have hsign : ∀ c ∈ s.sign, isPlain c = true := (signText_spec _ _).1
  have hflag : ∀ c ∈ (s.sign ++ s.tail).head?, c.isAlpha = false := by
    rintro c ⟨⟩
    decide
  have hpieces := (hcut.continue (continues_gap hplain hsign htail hflag)).pieces
  obtain ⟨last', hlast⟩ := piecesFrom_plain_append (signText_spec _ _).2.1 last s.tail
  have htail' : piecesFrom last' s.tail = pieces s.tail := by
    rcases h.pipe with ⟨-, hnil, -⟩ | ⟨rest, hrest, -⟩
    · rw [hnil, pieces, piecesFrom, piecesFrom]
    · rw [hrest, pieces, piecesFrom_bar, piecesFrom_bar]
  rwa [sign, hlast, htail', pieces, text_piecesFrom] at hpieces

theorem Separate.isolate_text (h : s.Separate) : isolate s.text = isolate s.head ++ (s.sign ++ isolate s.tail) := by
  have hsign : (s.sign.map Piece.char).flatMap Piece.isolated = s.sign := by
    rw [flatMap_map]
    exact flatMap_singleton' s.sign
  rw [isolate, h, flatMap_append, flatMap_append, hsign]
  rfl

theorem not_mem_sign (s : Setter) : '|' ∉ s.sign := (signText_spec _ _).2.2.1

theorem Cuts.isFirstPipe (h : s.Cuts) {xs ys : List Char} (htail : s.tail ≠ [])
    (hpipe : IsFirstPipe 0 none (xs ++ s.gap) ys) : IsFirstPipe 0 none (xs ++ s.sign) ys where
  unsplit := by
    have hgap : s.gap.head? ≠ some '|' := fun hhead => absurd (h.blank _ (mem_of_head? hhead)) (by decide)
    refine splitFrom_append_eq_nil (splitFrom_left hpipe.unsplit hgap) ?_
    rw [splitFrom_of_not_mem s.not_mem_sign]
  depth := by
    have hgap : depthOf s.gap = 0 := depthOf_of_isInert fun c hc => isInert_of_isBlank (h.blank c hc)
    have hsign : depthOf s.sign = 0 := (signText_spec _ _).2.2.2.1
    have hdepth := hpipe.depth
    rw [depthOf_append, hgap] at hdepth
    rwa [depthOf_append, hsign]
  last := by
    have hlast : (signText s.negated true).getLast? = some ' ' := (signText_spec s.negated true).2.2.2.2 rfl
    rw [lastOr, getLast?_append, sign, isEmpty_eq_false_iff.2 htail, Bool.not_false, hlast]
    exact (by decide : some ' ' ≠ some '|')
  next := hpipe.next

theorem isolate_tail {rest : List Char} (h : s.tail = '|' :: rest) :
    isolate s.tail = '|' :: (piecesFrom (some '|') rest).flatMap Piece.isolated := by
  rw [h, isolate, pieces, piecesFrom_bar]
  rfl

theorem segments_eq {ys : List Char} (htail : isolate s.tail = '|' :: ys) (hnext : ys.head? ≠ some '|') :
    s.segments = (splitFrom '|' 0 (some '|') ys).1 :: (splitFrom '|' 0 (some '|') ys).2 := by
  have hpipe : IsFirstPipe 0 none [] ys := ⟨rfl, rfl, nofun, hnext⟩
  have hsplit := hpipe.splitFrom
  rw [nil_append] at hsplit
  rw [segments, htail, splitPipes, splitTop, hsplit]
  rfl

theorem isolate_nil : isolate [] = [] := by
  rw [isolate, pieces, piecesFrom]
  rfl

theorem segments_nil (h : s.tail = []) : s.segments = [] := by
  rw [segments, h, isolate_nil]
  rfl

/-- The assignment is split into the head with the sign behind it and the texts between the pipes. -/
theorem Cuts.splitPipes (h : s.Cuts) :
    splitPipes (isolate s.head ++ (s.sign ++ isolate s.tail)) = (isolate s.head ++ s.sign) :: s.segments := by
  unfold Surface.splitPipes splitTop
  rcases h.pipe with ⟨-, hnil, hsplit⟩ | ⟨rest, hrest, hpipe⟩
  · rw [segments_nil hnil, hnil, isolate_nil, append_nil, splitFrom_append hsplit,
      splitFrom_of_not_mem s.not_mem_sign]
    rfl
  · have hfirst := h.isFirstPipe (by rw [hrest]; nofun) hpipe
    have htail := isolate_tail hrest
    rw [segments_eq htail hpipe.next, htail, ← append_assoc, hfirst.splitFrom]

theorem body_ofBody (negated : Bool) (cs : List Char) : (ofBody negated cs).body = cs := by
  unfold ofBody Setter.body
  rcases findPipe cs with _ | i
  · simp
  · dsimp only
    rw [← append_assoc, trimRight_append, take_append_drop]

theorem trim_eq_body_ofText (cs : List Char) : ∃ negation, trim cs = negation ++ (ofText cs).body ∧
    (negation = [] ∨ negation.head? = some '!' ∧ Blank negation.tail) := by
  unfold ofText
  dsimp only
  rw [body_ofBody]
  split
  · rename_i hnegated
    obtain ⟨rest, hrest⟩ : ∃ rest, trim cs = '!' :: rest := by
      rw [Bool.and_eq_true, decide_eq_true_eq] at hnegated
      exact head?_eq_some_iff.1 hnegated.1
    refine ⟨'!' :: rest.takeWhile isBlank, ?_, .inr ⟨rfl, fun c hc => mem_takeWhile_imp hc⟩⟩
    rw [hrest, tail_cons, cons_append, trimLeft, takeWhile_append_dropWhile]
  · exact ⟨[], rfl, .inl rfl⟩

/-- The head, with the blanks behind it, is the first part of the expression. -/
theorem splitPipes_ofBody (negated : Bool) (cs : List Char) :
    (Surface.splitPipes (isolate cs)).head? = some (isolate (ofBody negated cs).head ++ (ofBody negated cs).gap) := by
  unfold ofBody
  rcases hpipe : findPipe cs with _ | i
  · rw [splitPipes_of_findPipe_none hpipe, append_nil]
    rfl
  · obtain ⟨part, parts, hparts⟩ := splitPipes_of_findPipe hpipe
    have hblank : Blank ((cs.take i).reverse.takeWhile isBlank).reverse :=
      fun c hc => mem_takeWhile_imp (mem_reverse.1 hc)
    rw [hparts, head?_cons, ← isolate_append_blank hblank, trimRight_append]

end Setter

/-- A formatter pipe is found in a text exactly if the text is split at pipes once its literals are set aside, and what
stands before it is then the first part. The setter of the text has its assignment sign at the end of that part. -/
theorem findPipe_splits (cs : List Char) :
    (findPipe cs = none ↔ (splitPipes (isolate cs)).length = 1) ∧
      (∀ i, findPipe cs = some i → (splitPipes (isolate cs)).head? = some (isolate (cs.take i))) ∧
      ∃ (s : Setter) (negation : List Char), trim cs = negation ++ (s.head ++ (s.gap ++ s.tail)) ∧
        (negation = [] ∨ negation.head? = some '!' ∧ ∀ c ∈ negation.tail, isBlank c = true) ∧
        (splitPipes (isolate (s.head ++ (s.gap ++ s.tail)))).head? = some (isolate s.head ++ s.gap) ∧
        (∀ c ∈ s.gap, isBlank c = true) ∧ setterText cs = s.head ++ (s.sign ++ s.tail) := by
  refine ⟨?_, fun i hi => ?_, ?_⟩
  · rcases hpipe : findPipe cs with _ | i
    · simp [splitPipes_of_findPipe_none hpipe]
    · obtain ⟨part, parts, hparts⟩ := splitPipes_of_findPipe hpipe
      simp [hparts]
  · obtain ⟨part, parts, hparts⟩ := splitPipes_of_findPipe hi
    rw [hparts, List.head?_cons]
  · obtain ⟨negation, htrim, hnegation⟩ := Setter.trim_eq_body_ofText cs
    refine ⟨.ofText cs, negation, htrim, hnegation, ?_, (Setter.cuts_ofText cs).blank, (Setter.text_ofText cs).symm⟩
    change (splitPipes (isolate (Setter.ofText cs).body)).head? = _
    unfold Setter.ofText
    rw [Setter.body_ofBody]
    exact Setter.splitPipes_ofBody _ _

section Meaning

/-- The tree that is compiled for a text, with its literals set aside. -/
def skeleton (cs : List Char) : Except Failure (Expr Placeholder) :=
  match desugar (isolate cs) with
  | .error f => .error (.fault f)
  | .ok unpiped => parse (replaceWords unpiped)

/-- The formatters of an assignment: the first one is told that its value is assigned. -/
def told : List Formatter → List Formatter
  | [] => []
  | f :: fs => { f with arguments := f.arguments ++ ["true".toList] } :: fs

namespace Setter

def valueTree (negated : Bool) : Expr Placeholder :=
  if negated then .unary .not (.name valueName) else .name valueName

/-- What is assigned to is an expression on its own that can be assigned to. -/
def HasTarget (s : Setter) : Prop := ∃ target, IsSkeleton s.head target ∧ target.isTarget = true

/-- A tree assigns the value, with the formatters applied to it, to the tree of the head. -/
def Assigns (s : Setter) (t : Expr Placeholder) : Prop :=
  ∃ target fs y, IsSkeleton s.head target ∧ target.isTarget = true ∧
    List.Forall₂ (fun f segment => f.IsNamed ∧ f.IsWritten segment) fs s.segments ∧
    Applied (valueTree s.negated) (told (fs.map (Formatter.map replaceWords))) y ∧ t = .assign target y

/-- A part reaches across what it is put between: another sign than the one behind the head is the first one outside
brackets, or the head or an argument of a formatter straddles. -/
def Strays (s : Setter) : Prop :=
  splitAssignment (isolate s.head ++ " = ".toList ++ valueText s.negated) ≠ some (isolate s.head, valueText s.negated) ∨
    straddles Lexeme.inTarget (replaceWords (isolate s.head)) = true ∨
    ∃ fs, s.segments.mapM readFormatter = .ok fs ∧
      ∃ f ∈ fs, ∃ a ∈ f.arguments, straddles Category.assign.outer (replaceWords a) = true

def pipeline (s : Setter) (fs : List Formatter) : Pipeline := ⟨some (isolate s.head), valueText s.negated, fs⟩

variable {s : Setter} {fs : List Formatter} {t : Expr Placeholder}

theorem valueText_spec : ∀ negated, replaceWords (valueText negated) = valueText negated ∧
    trim ([' '] ++ valueText negated) = valueText negated ∧ (valueText negated).getLast? = some '_' ∧
    straddles (· != .symbol .question) (valueText negated) = false := by
  decide +kernel

theorem replaceWords_valueText (negated : Bool) : replaceWords (valueText negated) = valueText negated :=
  (valueText_spec negated).1

theorem parse_valueText (negated : Bool) : parse (valueText negated) = .ok (valueTree negated) := by
  let name : Derivation .unary := .chain (.name valueName.toList (by decide)) .linked
  have hparse := fun (d : Derivation .unary) =>
    @parse_of_derivation (valueText negated) (.alone d.single)
  cases negated
  · exact hparse name (by decide +kernel) (by unfold Fit; decide +kernel) (by repeat' constructor)
  · exact hparse (.unary .not name) (by decide +kernel) (by unfold Fit; decide +kernel) (by repeat' constructor)

theorem means_iff : ((s.pipeline fs).map replaceWords).Means t ↔
    ∃ target y, IsSkeleton s.head target ∧ target.isTarget = true ∧
      Applied (valueTree s.negated) (told (fs.map (Formatter.map replaceWords))) y ∧ t = .assign target y := by
  have hcalls : ((s.pipeline fs).map replaceWords).calls = told (fs.map (Formatter.map replaceWords)) := by
    cases fs <;> rfl
  have hvalue : parse ((s.pipeline fs).map replaceWords).value = .ok (valueTree s.negated) := by
    change parse (replaceWords (valueText s.negated)) = _
    rw [replaceWords_valueText, parse_valueText]
  unfold Pipeline.Means
  rw [hvalue, hcalls]
  constructor
  · rintro ⟨_, y, ⟨⟩, hy, target, htarget, htarget', rfl⟩
    exact ⟨target, y, htarget, htarget', hy, rfl⟩
  · rintro ⟨target, y, htarget, htarget', hy, rfl⟩
    exact ⟨_, y, rfl, hy, target, htarget, htarget', rfl⟩

theorem assigns_iff : s.Assigns t ↔
    ∃ fs, s.segments.mapM readFormatter = .ok fs ∧ ((s.pipeline fs).map replaceWords).Means t := by
  simp only [means_iff]
  constructor
  · rintro ⟨target, fs, y, htarget, htarget', hfs, hy, rfl⟩
    have hmeans : ((s.pipeline fs).map replaceWords).Means (.assign target y) :=
      means_iff.2 ⟨target, y, htarget, htarget', hy, rfl⟩
    have hargs : ∀ f ∈ fs, ∀ a ∈ f.arguments, IsArgument a := by
      intro f hf a ha
      have hparse := hmeans.arguments (f.map replaceWords) (mem_map_of_mem hf) (replaceWords a) (mem_map_of_mem ha)
      exact IsExpression.isArgument hparse
    exact ⟨fs, mapM_readFormatter_of_isWritten hfs hargs, target, y, htarget, htarget', hy, rfl⟩
  · rintro ⟨fs, hfs, target, y, htarget, htarget', hy, rfl⟩
    exact ⟨target, fs, y, htarget, htarget', (mapM_eq_ok_iff.1 hfs).imp fun _ _ => readFormatter_eq_ok, hy, rfl⟩

theorem isExpression_valueText (negated : Bool) : IsExpression (valueText negated) :=
  ⟨_, (replaceWords_valueText negated).symm ▸ parse_valueText negated⟩

variable (h : s.Cuts)

include h

theorem Cuts.head?_isolate : ∀ c ∈ (isolate s.head).head?, isBlank c = false := by
  intro c hc
  rw [isolate, pieces, head?_isolated] at hc
  exact h.first c hc

theorem Cuts.getLast?_isolate : ∀ c ∈ (isolate s.head).getLast?, isBlank c = false := by
  intro c hc
  have hlast := h.last
  rw [← text_piecesFrom none s.head] at hlast
  rw [isolate, pieces] at hc
  have hwhole := isWhole_of_mem_piecesFrom none s.head
  rcases eq_nil_or_concat' (piecesFrom none s.head) with hnil | ⟨ps, p, hps⟩
  · rw [hnil] at hc
    cases hc
  rw [hps] at hc hlast hwhole
  rw [flatMap_append, flatMap_singleton] at hc hlast
  rcases p with d | raw
  · rw [Piece.isolated, getLast?_concat] at hc
    rw [Piece.text, getLast?_concat] at hlast
    exact hlast c hc
  · obtain ⟨⟨d, tail, rfl, hd⟩, -⟩ := hwhole _ (mem_append_right _ (.head _))
    change c ∈ (ps.flatMap Piece.isolated ++ [d, d]).getLast? at hc
    rw [getLast?_append] at hc
    cases hc
    exact isBlank_eq_false_of_ends (.inl hd)

/-- The sign behind a head that can be assigned to is the first one outside brackets. -/
theorem Cuts.splitAssignment {target : Expr Placeholder} (htarget : IsSkeleton s.head target)
    (htarget' : target.isTarget = true) :
    splitAssignment (isolate s.head ++ " = ".toList ++ valueText s.negated) =
      some (isolate s.head, valueText s.negated) := by
  have hblank : Blank [' '] := by decide
  have hne : isolate s.head ≠ [] := IsExpression.ne_nil ⟨target, htarget⟩
  have hsplit := splitAssignFrom_assignment (contained_of_parse htarget) hne (splitAssignFrom_target htarget htarget')
    (isExpression_valueText s.negated).contained.first hblank hblank
  have hleft : trim ([] ++ (isolate s.head ++ [' '])) = isolate s.head :=
    trim_append nofun hblank hne h.head?_isolate h.getLast?_isolate
  rw [nil_append] at hleft
  have hright : trim ([' '] ++ valueText s.negated) = valueText s.negated := (valueText_spec s.negated).2.1
  rw [Surface.splitAssignment, show isolate s.head ++ " = ".toList ++ valueText s.negated =
    isolate s.head ++ ([' '] ++ '=' :: ([' '] ++ valueText s.negated)) from append_assoc .., hsplit, Option.map_some]
  dsimp only
  rw [hleft, hright]

theorem Cuts.not_strays (ht : s.Assigns t) : ¬ s.Strays := by
  obtain ⟨fs, hfs, hmeans⟩ := assigns_iff.1 ht
  obtain ⟨target, _, htarget, htarget', -, -⟩ := means_iff.1 hmeans
  rintro (hsign | hhead | ⟨fs', hfs', f, hf, a, ha, harg⟩)
  · exact hsign (h.splitAssignment htarget htarget')
  · rw [straddles_of_parse_target htarget htarget'] at hhead
    cases hhead
  · rw [hfs] at hfs'
    cases hfs'
    obtain ⟨v, hv⟩ := hmeans.arguments (f.map replaceWords) (mem_map_of_mem hf) (replaceWords a) (mem_map_of_mem ha)
    rw [straddles_of_parse hv] at harg
    cases harg

theorem Cuts.read (htail : s.tail ≠ []) (hstrays : ¬ s.Strays) :
    Pipeline.read (isolate s.head ++ (s.sign ++ isolate s.tail)) = (s.segments.mapM readFormatter).map s.pipeline := by
  unfold Strays at hstrays
  simp only [not_or, not_not] at hstrays
  obtain ⟨hsign, hhead, -⟩ := hstrays
  have hne : isolate s.head ≠ [] := by
    intro hnil
    rw [hnil] at hhead
    exact hhead (by decide +kernel)
  have htrim : trim (isolate s.head ++ s.sign) = isolate s.head ++ " = ".toList ++ valueText s.negated := by
    have happ : isolate s.head ++ s.sign = [] ++ (isolate s.head ++ " = ".toList ++ valueText s.negated ++ [' ']) := by
      rw [sign, isEmpty_eq_false_iff.2 htail]
      simp [signText]
    have hlast : (valueText s.negated).getLast? = some '_' := (valueText_spec s.negated).2.2.1
    have hvalue : valueText s.negated ≠ [] := fun hnil => by
      rw [hnil] at hlast
      cases hlast
    rw [happ]
    refine trim_append nofun (by decide) (by simp [hne]) ?_ ?_
    · rw [append_assoc, head?_append_of_ne_nil _ hne]
      exact h.head?_isolate
    · rw [getLast?_append_of_ne_nil _ hvalue, hlast]
      rintro c ⟨⟩
      decide
  unfold Pipeline.read
  rw [h.splitPipes]
  dsimp only
  rw [htrim, if_neg (by simp [hne]), hsign]
  rcases s.segments.mapM readFormatter with e | fs <;> rfl

theorem Cuts.desugar_text (hseparate : s.Separate) (hstrays : ¬ s.Strays) :
    desugar (isolate s.text) = (s.segments.mapM readFormatter).map fun fs => (s.pipeline fs).text := by
  have hparts := h.splitPipes
  rw [hseparate.isolate_text]
  rcases h.pipe with ⟨-, hnil, -⟩ | ⟨rest, hrest, hpipe⟩
  · have htext : isolate s.head ++ (s.sign ++ isolate s.tail) = (s.pipeline []).text := by
      rw [sign, hnil, isolate_nil]
      simp [signText, pipeline, Pipeline.text, Pipeline.calls, nest]
    rw [segments_nil hnil] at hparts ⊢
    unfold desugar
    rw [hparts]
    exact congrArg Except.ok htext
  · have hlength : 2 ≤ (Surface.splitPipes (isolate s.head ++ (s.sign ++ isolate s.tail))).length := by
      rw [hparts, segments_eq (isolate_tail hrest) hpipe.next]
      simp
    rw [desugar_eq hlength, h.read (by simp [hrest]) hstrays]
    rcases s.segments.mapM readFormatter with e | fs <;> rfl

omit h

theorem straddles_pipeline (hfs : s.segments.mapM readFormatter = .ok fs) (hstrays : ¬ s.Strays) :
    ((s.pipeline fs).map replaceWords).straddles = false := by
  unfold Strays at hstrays
  simp only [not_or, not_exists, not_and, Bool.not_eq_true] at hstrays
  obtain ⟨-, hhead, hargs⟩ := hstrays
  refine Pipeline.straddles_eq_false_iff.2 ⟨?_, ?_, ?_⟩
  · change straddles Category.assign.outer (replaceWords (valueText s.negated)) = false
    rw [replaceWords_valueText]
    exact straddles_of_parse (parse_valueText s.negated)
  · intro f hf a ha
    obtain ⟨g, hg, rfl⟩ := mem_map.1 hf
    obtain ⟨b, hb, rfl⟩ := mem_map.1 ha
    exact hargs fs hfs g hg b hb
  · rintro target ⟨⟩
    exact hhead

/-- The text of nested calls, or of the value alone, parses to what the parts mean. -/
theorem parse_pipeline_iff (hnamed : ∀ f ∈ fs, f.IsNamed) (hp : ((s.pipeline fs).map replaceWords).straddles = false) :
    parse ((s.pipeline fs).map replaceWords).text = .ok t ↔ ((s.pipeline fs).map replaceWords).Means t := by
  rcases fs with _ | ⟨f, fs⟩
  · have hvalue : straddles (· != .symbol .question) (valueText s.negated) = false := (valueText_spec s.negated).2.2.2
    have htext : ((s.pipeline []).map replaceWords).text =
        replaceWords (isolate s.head) ++ " = ".toList ++ valueText s.negated := by
      rw [← replaceWords_valueText s.negated]
      rfl
    rw [htext, parse_assignment_iff ((Pipeline.straddles_eq_false_iff.1 hp).2.2 _ rfl) hvalue, means_iff]
    simp only [parse_valueText]
    constructor
    · rintro ⟨x, y, hx, hx', ⟨⟩, rfl⟩
      exact ⟨x, _, hx, hx', .nil _, rfl⟩
    · rintro ⟨x, y, hx, hx', ⟨⟩, rfl⟩
      exact ⟨x, _, hx, hx', rfl, rfl⟩
  · refine Pipeline.parse_text_iff hp (fun g hg => ?_) nofun
    obtain ⟨g', hg', rfl⟩ := mem_map.1 hg
    exact hnamed g' hg'

/-- Where nothing strays, what is compiled is the assignment. -/
theorem Cuts.skeleton_iff (h : s.Cuts) (hseparate : s.Separate) (hstrays : ¬ s.Strays) :
    skeleton s.text = .ok t ↔ s.Assigns t := by
  rw [assigns_iff, skeleton, h.desugar_text hseparate hstrays]
  rcases hfs : s.segments.mapM readFormatter with e | fs
  · simp [Except.map]
  · have hnamed : ∀ f ∈ fs, f.IsNamed := by
      intro f hf
      obtain ⟨segment, -, hsegment⟩ := exists_of_forall₂ (mapM_eq_ok_iff.1 hfs) f hf
      exact (readFormatter_eq_ok hsegment).1
    have hparse : parse (replaceWords (s.pipeline fs).text) = .ok t ↔ ((s.pipeline fs).map replaceWords).Means t := by
      rw [Pipeline.replaceWords_text hnamed]
      exact parse_pipeline_iff hnamed (straddles_pipeline hfs hstrays)
    simpa [Except.map] using hparse

end Setter

end Meaning

end NullSafe.Surface

namespace NullSafe

open Surface Literal

section Requests

variable {functionName : String} {globals : List String} {r assignment : Request}

theorem Request.eq_of_toSetter (h : r.toSetter = .ok assignment) : assignment = r.setterRequest := by
  have hnames : (Value.str valueName :: r.arguments.map .str).filterMap text? = valueName :: r.arguments :=
    filterMap_text?_map_str (valueName :: r.arguments)
  rw [toSetter, ofValues, hnames] at h
  dsimp only [text?] at h
  split at h
  · rename_i hexpression _
    cases hexpression
    cases h
    rfl
  · cases h
  · cases h

theorem Compile.exists_skeleton {generated : Generated} (h : Compile.run functionName globals r = .ok generated) :
    ∃ t, skeleton r.expression.toList = .ok t := by
  obtain ⟨body, _, hbody, -, -⟩ := Compile.run_eq_ok h
  obtain ⟨unpiped, t, hunpiped, ht, -⟩ := Compile.analyse_eq_ok hbody
  exact ⟨t, by rw [skeleton, hunpiped]; exact ht⟩

theorem Surface.Setter.Assigns.hasTarget {s : Setter} {t : Expr Placeholder} (h : s.Assigns t) : s.HasTarget := by
  obtain ⟨target, _, _, htarget, htarget', -⟩ := h
  exact ⟨target, htarget, htarget'⟩

/-- The parts of the expression that the setter of a request is made of. -/
def Request.parts (r : Request) : Setter := Setter.ofText r.expression.toList

theorem Request.cuts_parts (r : Request) : r.parts.Cuts := Setter.cuts_ofText _

theorem Request.text_of_toSetter (h : r.toSetter = .ok assignment) : assignment.expression.toList = r.parts.text := by
  rw [eq_of_toSetter h, parts, Setter.text_ofText]
  exact String.toList_ofList

/-- What is compiled assigns to a head that does not stray, and all that assigns is compiled. -/
theorem Request.assigns_iff (h : r.toSetter = .ok assignment) (hseparate : r.parts.Separate) (t : Expr Placeholder) :
    r.parts.Assigns t ↔ skeleton assignment.expression.toList = .ok t ∧ ¬ r.parts.Strays := by
  rw [text_of_toSetter h]
  constructor
  · intro ht
    have hstrays := r.cuts_parts.not_strays ht
    exact ⟨(r.cuts_parts.skeleton_iff hseparate hstrays).2 ht, hstrays⟩
  · exact fun ⟨ht, hstrays⟩ => (r.cuts_parts.skeleton_iff hseparate hstrays).1 ht

/-- The setter of a request assigns the value to what stands before the first pipe, or it is refused. -/
structure Request.SetsOnly (r : Request) (functionName : String) (globals : List String)
    (assignment : Request) : Prop where
  assigns : ∀ generated, Compile.run functionName globals assignment = .ok generated →
    ∃ t, skeleton assignment.expression.toList = .ok t ∧ r.parts.Assigns t
  refuses : ¬ r.parts.HasTarget →
    ∃ rejection, Compile.run functionName globals assignment = .error (.rejected rejection)

/-- A setter whose literals stay apart assigns exactly if it has a tree and no part strays. So only assignments are
compiled exactly if nothing that strays is compiled, and nothing but a refusal stops what has no target. Literals stay
apart unless a line ends before the first pipe. -/
theorem setsOnly_iff (hsetter : r.toSetter = .ok assignment) :
    ((∀ c ∈ r.parts.gap, c ≠ '\n') → r.parts.Separate) ∧
    (r.parts.Separate →
      (∀ t, r.parts.Assigns t ↔ skeleton assignment.expression.toList = .ok t ∧ ¬ r.parts.Strays) ∧
      (r.SetsOnly functionName globals assignment ↔
        ¬ (r.parts.Strays ∧ ∃ generated, Compile.run functionName globals assignment = .ok generated) ∧
        ¬ (¬ r.parts.HasTarget ∧ ∃ stop, Compile.run functionName globals assignment = .error stop ∧
          ∀ rejection, stop ≠ .rejected rejection))) := by
  refine ⟨r.cuts_parts.separate, fun hseparate => ?_⟩
  have hassigns := Request.assigns_iff hsetter hseparate
  refine ⟨hassigns, ⟨fun h => ⟨?_, ?_⟩, fun ⟨hstrays, hstop⟩ => ?_⟩⟩
  · rintro ⟨hstrays, generated, hrun⟩
    obtain ⟨t, -, ht⟩ := h.assigns generated hrun
    exact ((hassigns t).1 ht).2 hstrays
  · rintro ⟨htarget, stop, hrun, hstop⟩
    obtain ⟨rejection, hrejected⟩ := h.refuses htarget
    rw [hrun] at hrejected
    exact hstop rejection (Except.error.inj hrejected)
  · have hcompiled : ∀ generated, Compile.run functionName globals assignment = .ok generated →
        ∃ t, skeleton assignment.expression.toList = .ok t ∧ r.parts.Assigns t := by
      intro generated hrun
      obtain ⟨t, ht⟩ := Compile.exists_skeleton hrun
      exact ⟨t, ht, (hassigns t).2 ⟨ht, fun h => hstrays ⟨h, generated, hrun⟩⟩⟩
    refine ⟨hcompiled, fun htarget => ?_⟩
    rcases hrun : Compile.run functionName globals assignment with stop | generated
    · by_contra hrejected
      exact hstop ⟨htarget, stop, hrun, fun rejection he => hrejected ⟨rejection, congrArg _ he⟩⟩
    · obtain ⟨t, -, ht⟩ := hcompiled generated hrun
      exact absurd ht.hasTarget htarget

def negatedRequest : Request := ⟨"!a.b\n| f(c)", [], false⟩

def negatedTree : Expr Placeholder :=
  .assign (.member (.name "a") "b") (Formatter.tree ['f'] (.unary .not (.name valueName)) [.name "c", .constant .yes])

theorem assigns_negated : negatedRequest.parts.Assigns negatedTree := by
  have hparts : negatedRequest.parts = ⟨true, "a.b".toList, ['\n'], "| f(c)".toList⟩ := by decide +kernel
  have hname : ∀ n ∈ ["a", "b", "c", "f"], IsName n.toList := by unfold IsName; decide
  have htarget : parse (pathChars "a" ["b"]) = .ok (pathTree "a" ["b"]) :=
    parse_path (hname "a" (by decide)) (List.forall_mem_singleton.2 (hname "b" (by decide))) (by decide)
  have hargument : parse (pathChars "c" []) = .ok (pathTree "c" []) :=
    parse_path (hname "c" (by decide)) nofun (by decide)
  have hfs : negatedRequest.parts.segments.mapM readFormatter = .ok [⟨['f'], [['c']]⟩] := by
    rw [hparts]
    decide +kernel
  refine Setter.assigns_iff.2 ⟨_, hfs, Setter.means_iff.2 ⟨_, _, ?_, rfl, ?_, rfl⟩⟩
  · rw [hparts, IsSkeleton, show replaceWords (isolate "a.b".toList) = pathChars "a" ["b"] by decide +kernel]
    exact htarget
  · rw [hparts]
    exact .cons (hname "f" (by decide)) (.cons hargument (.cons parse_true .nil)) (.nil _)

theorem setsOnly_negated : ∃ assignment, negatedRequest.toSetter = .ok assignment ∧ negatedRequest.parts.Separate ∧
    skeleton assignment.expression.toList = .ok negatedTree ∧ negatedRequest.SetsOnly "expression" [] assignment := by
  have hseparate : negatedRequest.parts.Separate := by decide +kernel
  obtain ⟨hassigns, hsets⟩ := (@setsOnly_iff "expression" [] negatedRequest _ rfl).2 hseparate
  have hboth := (hassigns negatedTree).1 assigns_negated
  refine ⟨_, rfl, hseparate, hboth.1, hsets.2 ⟨fun h => hboth.2 h.1, fun h => h.1 assigns_negated.hasTarget⟩⟩

def conditionalRequest : Request := ⟨"a ? b : c", [], false⟩

def conditionalTree {ι : Type} : Expr ι := .conditional (.name "a") (.name "b") (.assign (.name "c") (.name valueName))

theorem parse_conditional : parse "a ? b : c = _value_".toList = .ok conditionalTree := by
  let name (n : List Char) (h : n ≠ "typeof".toList) : Derivation (.operation 6) :=
    Derivation.single (.chain (.name n h) .linked)
  let d : Derivation .assign := .unassigned (.conditional (name ['a'] (by decide)) (.alone (name ['b'] (by decide)))
    (.assign (.unconditional (name ['c'] (by decide))) (.alone (name valueName.toList (by decide)))))
  exact parse_of_derivation d (by decide +kernel) (by unfold Fit; decide +kernel) (by repeat' constructor)

theorem not_setsOnly_conditional : ∃ assignment, conditionalRequest.toSetter = .ok assignment ∧
    (∃ generated, Compile.run "expression" [] assignment = .ok generated) ∧
    (∀ t, skeleton assignment.expression.toList = .ok t → t = conditionalTree) ∧
    ¬ conditionalRequest.parts.HasTarget ∧ ¬ conditionalRequest.SetsOnly "expression" [] assignment := by
  refine ⟨conditionalRequest.setterRequest, rfl, ?_⟩
  have hdesugar : desugar (isolate conditionalRequest.setterRequest.expression.toList) =
      .ok "a ? b : c = _value_".toList := by decide +kernel
  have hwords : replaceWords "a ? b : c = _value_".toList = "a ? b : c = _value_".toList := by decide +kernel
  have htree : conditionalRequest.setterRequest.IsTree conditionalTree :=
    ⟨_, _, hdesugar, hwords.symm ▸ parse_conditional, by
      rw [show literals conditionalRequest.setterRequest.expression.toList = [] by decide +kernel]
      rfl⟩
  obtain ⟨generated, hrun⟩ : ∃ generated, Compile.run "expression" [] conditionalRequest.setterRequest =
    .ok generated := (Compile.exists_run_iff htree).2 (by decide +kernel)
  have hskeleton : ∀ t, skeleton conditionalRequest.setterRequest.expression.toList = .ok t → t = conditionalTree := by
    intro t ht
    rw [skeleton, hdesugar] at ht
    dsimp only at ht
    rw [hwords, parse_conditional] at ht
    exact (Except.ok.inj ht).symm
  have htarget : ¬ conditionalRequest.parts.HasTarget := by
    rintro ⟨target, htarget, htarget'⟩
    have hstraddles := straddles_of_parse_target htarget htarget'
    exact absurd hstraddles (by decide +kernel)
  refine ⟨⟨generated, hrun⟩, hskeleton, htarget, fun h => ?_⟩
  obtain ⟨t, -, ht⟩ := h.assigns generated hrun
  exact htarget ht.hasTarget

end Requests

end NullSafe
