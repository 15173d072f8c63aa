import Mathlib.Data.List.Chain
import NullSafe.Proofs.Brackets
import NullSafe.Proofs.Words

/-! # Texts that are not split

A text is split at commas, bars and equals signs outside brackets. The text of an expression is split at none of them:
its brackets are closed, it has no comma outside of them, its bars are pairs, and its equals signs are those of
comparisons, unless it is an assignment. Word operators make no difference.
-/

namespace NullSafe.Surface

open Text List

section Scanning

variable {sep c : Char} {d : Int} {before : Option Char} {xs ys : List Char}

def depthOf : List Char → Int
  | [] => 0
  | c :: cs => depthStep c + depthOf cs

@[simp] theorem depthOf_nil : depthOf [] = 0 := rfl

@[simp] theorem depthOf_cons (c : Char) (cs : List Char) : depthOf (c :: cs) = depthStep c + depthOf cs := rfl

@[simp] theorem depthOf_append (xs ys : List Char) : depthOf (xs ++ ys) = depthOf xs + depthOf ys := by
  induction xs with
  | nil => simp
  | cons c xs ih => simp [ih, Int.add_assoc]

/-- The character before what follows a text. -/
def lastOr (before : Option Char) (cs : List Char) : Option Char := cs.getLast?.or before

@[simp] theorem lastOr_nil (before : Option Char) : lastOr before [] = before := rfl

@[simp] theorem lastOr_cons (before : Option Char) (c : Char) (cs : List Char) :
    lastOr before (c :: cs) = lastOr (some c) cs := by
  cases cs <;> rfl

def prepend (cs : List Char) (parts : List Char × List (List Char)) : List Char × List (List Char) :=
  (cs ++ parts.1, parts.2)

theorem prepend_append (xs ys : List Char) (parts : List Char × List (List Char)) :
    prepend (xs ++ ys) parts = prepend xs (prepend ys parts) := by
  simp only [prepend, append_assoc]

theorem separates_append (h : separates sep before xs = false) : separates sep before (xs ++ ys) = false := by
  rw [separates, Bool.or_eq_false_iff] at h ⊢
  refine ⟨h.1, ?_⟩
  rcases xs with _ | ⟨x, xs⟩
  · have hbefore := h.2
    simp only [isLoneBar, head?_nil] at hbefore
    simp_all [isLoneBar]
  · exact h.2

theorem splitFrom_cons (h : (c = sep && d = 0 && separates sep before xs) = false) :
    splitFrom sep d before (c :: xs) = prepend [c] (splitFrom sep (d + depthStep c) (some c) xs) := by
  rw [splitFrom, h]
  rfl

theorem stops_eq_false (h : (splitFrom sep d before (c :: xs)).2 = []) :
    (c = sep && d = 0 && separates sep before xs) = false := by
  rw [splitFrom] at h
  dsimp only at h
  split at h
  · cases h
  · rwa [Bool.not_eq_true] at *

theorem splitFrom_append (h : (splitFrom sep d before xs).2 = []) (ys : List Char) :
    splitFrom sep d before (xs ++ ys) = prepend xs (splitFrom sep (d + depthOf xs) (lastOr before xs) ys) := by
  induction xs generalizing d before with
  | nil => simp [prepend]
  | cons c xs ih =>
    have hstop := stops_eq_false h
    have hstop' : (c = sep && d = 0 && separates sep before (xs ++ ys)) = false := by
      rw [Bool.and_eq_false_iff] at hstop ⊢
      exact hstop.imp_right separates_append
    rw [splitFrom_cons hstop] at h
    rw [cons_append, splitFrom_cons hstop', ih h, ← prepend_append, lastOr_cons, depthOf_cons, Int.add_assoc]
    rfl

theorem splitFrom_append_eq_nil (hx : (splitFrom sep d before xs).2 = [])
    (hy : (splitFrom sep (d + depthOf xs) (lastOr before xs) ys).2 = []) :
    (splitFrom sep d before (xs ++ ys)).2 = [] := by
  rw [splitFrom_append hx]
  exact hy

theorem splitFrom_of_not_mem (h : sep ∉ xs) (d : Int) (before : Option Char) :
    splitFrom sep d before xs = (xs, []) := by
  induction xs generalizing d before with
  | nil => rfl
  | cons c xs ih =>
    obtain ⟨hc, hxs⟩ := not_or.1 (mem_cons.not.1 h)
    rw [splitFrom, ih hxs]
    simp [Ne.symm hc]

theorem splitFrom_pass (h : sep ∉ xs) (hdepth : depthOf xs = 0) :
    (splitFrom sep d before (xs ++ ys)).2 = (splitFrom sep d (lastOr before xs) ys).2 := by
  rw [splitFrom_append (by rw [splitFrom_of_not_mem h]), hdepth, Int.add_zero]
  rfl

theorem isComparison_append (h : isComparison before xs = true) : isComparison before (xs ++ ys) = true := by
  rw [isComparison, Bool.or_eq_true] at h ⊢
  refine h.imp_right fun h => ?_
  rcases xs with _ | ⟨x, xs⟩
  · cases of_decide_eq_true h
  · exact h

theorem splitAssignFrom_cons (h : (c = '=' && d = 0 && !isComparison before xs) = false) :
    splitAssignFrom d before (c :: xs) =
      (splitAssignFrom (d + depthStep c) (some c) xs).map fun (t, v) => (c :: t, v) := by
  rw [splitAssignFrom, h]
  rfl

theorem assigns_eq_false (h : splitAssignFrom d before (c :: xs) = none) :
    (c = '=' && d = 0 && !isComparison before xs) = false := by
  rw [splitAssignFrom] at h
  split at h
  · cases h
  · rwa [Bool.not_eq_true] at *

theorem splitAssignFrom_append (h : splitAssignFrom d before xs = none) (ys : List Char) :
    splitAssignFrom d before (xs ++ ys) =
      (splitAssignFrom (d + depthOf xs) (lastOr before xs) ys).map fun (t, v) => (xs ++ t, v) := by
  induction xs generalizing d before with
  | nil => simp
  | cons c xs ih =>
    have hstop := assigns_eq_false h
    have hstop' : (c = '=' && d = 0 && !isComparison before (xs ++ ys)) = false := by
      rw [Bool.and_eq_false_iff, Bool.not_eq_false'] at hstop ⊢
      exact hstop.imp_right isComparison_append
    rw [splitAssignFrom_cons hstop, Option.map_eq_none_iff] at h
    rw [cons_append, splitAssignFrom_cons hstop', ih h, lastOr_cons, depthOf_cons, Int.add_assoc, Option.map_map]
    rfl

theorem splitAssignFrom_of_not_mem (h : '=' ∉ xs) (d : Int) (before : Option Char) :
    splitAssignFrom d before xs = none := by
  induction xs generalizing d before with
  | nil => rfl
  | cons c xs ih =>
    obtain ⟨hc, hxs⟩ := not_or.1 (mem_cons.not.1 h)
    rw [splitAssignFrom_cons (by simp [Ne.symm hc]), ih hxs]
    rfl

theorem splitAssignFrom_pass (h : '=' ∉ xs) (hdepth : depthOf xs = 0) :
    splitAssignFrom d before (xs ++ ys) = none ↔ splitAssignFrom d (lastOr before xs) ys = none := by
  rw [splitAssignFrom_append (splitAssignFrom_of_not_mem h d before), hdepth, Int.add_zero, Option.map_eq_none_iff]

end Scanning

section Tokens

variable {cs r : List Char} {c : Char}

/-- The characters on which it depends where a text is split. -/
def signs : List Char := [',', '|', '=', '!', '<', '>', '(', ')', '[', ']', '\x7b', '\x7d']

def isInert (c : Char) : Bool := !signs.contains c

theorem isInert_of_kind {k : Char → Bool} (h : ∀ x ∈ signs, k x = false) (hc : k c = true) : isInert c = true := by
  rw [isInert, Bool.not_eq_true', contains_eq_mem, decide_eq_false_iff_not]
  intro hmem
  rw [h c hmem] at hc
  cases hc

theorem isInert_of_isBlank (h : isBlank c = true) : isInert c = true := isInert_of_kind (by decide) h

theorem isInert_of_mem_takeWhile {k : Char → Bool} (h : ∀ x ∈ signs, k x = false)
    (hc : c ∈ cs.takeWhile k) : isInert c = true :=
  isInert_of_kind h (mem_takeWhile_imp hc)

theorem isInert_readNumber {n : List Char} (h : readNumber? cs = some (n, r)) (hc : c ∈ n) : isInert c = true :=
  isInert_of_kind (k := fun c => !endsNumeral c) (by decide) (Bool.not_eq_true' _ ▸ endsNumeral_of_mem h hc)

theorem isInert_readLexeme {l : Lexeme} (h : readLexeme? cs = some (l, r)) :
    (∃ s, l = .symbol s) ∨ (∀ c ∈ l.chars, isInert c = true) ∧ l.opens = false ∧ l.closes = false := by
  rcases Literal.readLexeme_cases h with ⟨n, rfl, hn⟩ | hp | ⟨n, rfl, hn⟩ | ⟨s, rfl, -, -⟩
  · exact .inr ⟨fun c hc => isInert_readNumber hn hc, rfl, rfl⟩
  · obtain ⟨hmem, -⟩ := readPlaceholder?_eq_some_iff.1 hp
    simp only [mem_cons, not_mem_nil, or_false] at hmem
    rcases hmem with rfl | rfl | rfl <;> exact .inr ⟨by decide, rfl, rfl⟩
  · unfold readName? at hn
    split at hn
    · cases hn
      exact .inr ⟨fun c hc => isInert_of_mem_takeWhile (by decide) hc, rfl, rfl⟩
    · cases hn
  · exact .inl ⟨s, rfl⟩

theorem depthStep_of_isInert (h : isInert c = true) : depthStep c = 0 := by
  simp only [isInert, signs, Bool.not_eq_true', contains_eq_mem, decide_eq_false_iff_not, mem_cons,
    not_mem_nil, or_false, not_or] at h
  simp [depthStep, h]

theorem depthOf_of_isInert (h : ∀ c ∈ cs, isInert c = true) : depthOf cs = 0 := by
  induction cs with
  | nil => rfl
  | cons c cs ih =>
    obtain ⟨hc, hcs⟩ := forall_mem_cons.1 h
    rw [depthOf_cons, depthStep_of_isInert hc, ih hcs]
    rfl

theorem depthOf_symbol (s : Symbol) : depthOf s.chars =
    if (Lexeme.symbol s).opens then 1 else if (Lexeme.symbol s).closes then -1 else 0 := by
  cases s <;> decide

/-- What holds of inert characters and of symbols where they may stand holds of texts. -/
theorem Lexes.induct {p : Lexeme → Bool} {Q : Int → Option Char → List Char → Prop} (hnil : ∀ d b, Q d b [])
    (happend : ∀ d b xs ys, Q d b xs → Q (d + depthOf xs) (lastOr b xs) ys → Q d b (xs ++ ys))
    (hinert : ∀ d b cs, (∀ c ∈ cs, isInert c = true) → Q d b cs)
    (hsymbol : ∀ (d : Nat) b s, 0 < d ∨ p (.symbol s) = true ∨ (Lexeme.symbol s).opens = true ∨
      (Lexeme.symbol s).closes = true → Q d b s.chars) {ls : List Lexeme} (h : Lexes cs ls) {d e : Nat}
    (hscan : scan p d ls = some e) (b : Option Char) : d + depthOf cs = e ∧ Q d b cs := by
  have hsplit : ∀ {d : Int} {b : Option Char} {xs ys : List Char} {e : Nat}, Q d b xs →
      (d + depthOf xs) + depthOf ys = e ∧ Q (d + depthOf xs) (lastOr b xs) ys →
        d + depthOf (xs ++ ys) = e ∧ Q d b (xs ++ ys) := by
    intro d b xs ys e hx hy
    rw [depthOf_append, ← Int.add_assoc]
    exact ⟨hy.1, happend d b xs ys hx hy.2⟩
  induction h generalizing d b with
  | nil =>
    cases hscan
    exact ⟨Int.add_zero _, hnil _ b⟩
  | @blank c cs ls hc _ ih =>
    have hin : ∀ x ∈ [c], isInert x = true := forall_mem_singleton.2 (isInert_of_isBlank hc)
    rw [← singleton_append]
    refine hsplit (hinert d b [c] hin) ?_
    rw [depthOf_of_isInert hin, Int.add_zero]
    exact ih hscan _
  | @read c cs after l ls _ hl _ ih =>
    obtain ⟨happ, -⟩ := readLexeme?_eq_some hl
    rw [← happ]
    obtain ⟨s, rfl⟩ | ⟨hin, hopens, hcloses⟩ := isInert_readLexeme hl
    · have hdepth := depthOf_symbol s
      obtain ⟨hopens, h'⟩ | ⟨hcloses, d, rfl, h'⟩ | ⟨hopens, hcloses, hd, h'⟩ := scan_cons_cases hscan
      · refine hsplit (hsymbol d b s (.inr (.inr (.inl hopens)))) ?_
        rw [if_pos hopens] at hdepth
        rw [Lexeme.chars, hdepth]
        exact ih h' _
      · refine hsplit (hsymbol (d + 1) b s (.inr (.inr (.inr hcloses)))) ?_
        have hopens : ¬ (Lexeme.symbol s).opens = true := by
          cases s <;> first | decide | exact absurd hcloses (by decide)
        have hlevel : ((d + 1 : Nat) : Int) + -1 = d := by omega
        rw [if_neg hopens, if_pos hcloses] at hdepth
        rw [Lexeme.chars, hdepth, hlevel]
        exact ih h' _
      · refine hsplit (hsymbol d b s (hd.imp_right .inl)) ?_
        rw [hopens, hcloses] at hdepth
        rw [Lexeme.chars, hdepth]
        exact ih h' _
    · obtain ⟨hopens', -⟩ | ⟨hcloses', -⟩ | ⟨-, -, -, h'⟩ := scan_cons_cases hscan
      · rw [hopens] at hopens'
        cases hopens'
      · rw [hcloses] at hcloses'
        cases hcloses'
      · refine hsplit (hinert d b _ hin) ?_
        rw [depthOf_of_isInert hin, Int.add_zero]
        exact ih h' _

theorem not_mem_of_isInert (h : ∀ c ∈ cs, isInert c = true) {x : Char} (hx : x ∈ signs) : x ∉ cs := by
  intro hmem
  have hinert := h x hmem
  simp [isInert, hx] at hinert

variable {ls : List Lexeme} {d e : Nat}

/-- Where no comma may stand outside brackets, a text is not split at commas. -/
theorem Lexes.splitFrom_comma (h : Lexes cs ls) (hscan : scan Category.assign.outer d ls = some e) (b : Option Char) :
    d + depthOf cs = e ∧ (splitFrom ',' d b cs).2 = [] := by
  refine h.induct (Q := fun d b cs => (splitFrom ',' d b cs).2 = []) (fun _ _ => rfl)
    (fun _ _ _ _ => splitFrom_append_eq_nil)
      (fun d b cs h => by rw [splitFrom_of_not_mem (not_mem_of_isInert h (by decide))]) ?_ hscan b
  intro d b s hs
  by_cases hcomma : s = .comma
  · subst hcomma
    have hd : d ≠ 0 := by
      rcases hs with hd | hs
      · omega
      · exact absurd hs (by decide)
    simp [Symbol.chars, splitFrom, hd]
  · cases s <;> first | exact absurd rfl hcomma | rfl

/-- Where no assignment may stand outside brackets, every equals sign outside of them is that of a comparison. -/
theorem Lexes.splitAssignFrom_eq_none {p : Lexeme → Bool} (hp : p (.symbol .assign) = false) (h : Lexes cs ls)
    (hscan : scan p d ls = some e) (b : Option Char) : splitAssignFrom d b cs = none := by
  refine (h.induct (Q := fun d b cs => splitAssignFrom d b cs = none) (fun _ _ => rfl) ?_
    (fun d b _ h => splitAssignFrom_of_not_mem (not_mem_of_isInert h (by decide)) d b) ?_ hscan b).2
  · intro d b xs ys hx hy
    rw [splitAssignFrom_append hx, hy]
    rfl
  · intro d b s hs
    by_cases hassign : s = .assign
    · subst hassign
      have hd : d ≠ 0 := by
        rcases hs with hd | hs | hs
        · omega
        · rw [hp] at hs
          cases hs
        · exact absurd hs (by decide)
      simp [Symbol.chars, splitAssignFrom, hd]
    · cases s <;> first | exact absurd rfl hassign | simp [Symbol.chars, splitAssignFrom, isComparison]

end Tokens

section Ends

variable {c : Category}

def Lexeme.endsOperand : Lexeme → Bool
  | .number _ | .string _ | .pattern | .name _ => true
  | .symbol .closeParen | .symbol .closeBracket | .symbol .closeBrace => true
  | .symbol _ => false

def Lexeme.isLogical : Lexeme → Bool
  | .symbol .both | .symbol .either => true
  | _ => false

theorem isLogical_of_endsOperand {l : Lexeme} (h : l.endsOperand = true) : l.isLogical = false := by
  cases l with
  | symbol s => cases s <;> first | rfl | exact absurd h (by decide)
  | _ => rfl

/-- How the text of a derivation ends: with an operand, or at least not with a logical operator. -/
def Category.Ends : Category → Option Lexeme → Prop
  | assign, last | conditional, last | operation _, last | unary, last | primary, last =>
    ∃ l, last = some l ∧ l.endsOperand = true
  | joins _, last | links, last => ∀ l ∈ last, l.endsOperand = true
  | items, last | properties, last | property, last => ∀ l ∈ last, l.isLogical = false

variable {P : Lexeme → Prop} {xs ys : List Lexeme}

theorem ends_append (xs : List Lexeme) (h : ∃ l, ys.getLast? = some l ∧ P l) :
    ∃ l, (xs ++ ys).getLast? = some l ∧ P l := by
  obtain ⟨l, hl, hP⟩ := h
  exact ⟨l, by rw [getLast?_append, hl]; rfl, hP⟩

theorem ends_or (hx : ∃ l, xs.getLast? = some l ∧ P l) (hy : ∀ l ∈ ys.getLast?, P l) :
    ∃ l, (xs ++ ys).getLast? = some l ∧ P l := by
  rcases hlast : ys.getLast? with _ | l
  · obtain ⟨l, hl, hP⟩ := hx
    exact ⟨l, by rw [getLast?_append, hlast, hl]; rfl, hP⟩
  · exact ends_append xs ⟨l, hlast, hy l hlast⟩

theorem forall_of_ends (h : ∃ l, xs.getLast? = some l ∧ P l) : ∀ l ∈ xs.getLast?, P l := by
  obtain ⟨l, hl, hP⟩ := h
  rw [hl]
  rintro _ ⟨⟩
  exact hP

theorem Derivation.ends (d : Derivation c) : c.Ends d.yield.getLast? := by
  have hcons : ∀ {l : Lexeme} {ys : List Lexeme}, (∃ l', ys.getLast? = some l' ∧ l'.endsOperand = true) →
      ∃ l', (l :: ys).getLast? = some l' ∧ l'.endsOperand = true := fun h => ends_append [_] h
  have hlinks : ∀ {l : Lexeme} {ys : List Lexeme}, l.endsOperand = true → (∀ l' ∈ ys.getLast?, l'.endsOperand = true) →
      ∃ l', (l :: ys).getLast? = some l' ∧ l'.endsOperand = true := fun {l _} hl h => ends_or (show
        ∃ l', [l].getLast? = some l' ∧ l'.endsOperand = true from ⟨l, rfl, hl⟩) h
  have hoperand : ∀ {ys : List Lexeme}, (∃ l, ys.getLast? = some l ∧ l.endsOperand = true) →
      ∀ l ∈ ys.getLast?, l.isLogical = false := fun h l hl => isLogical_of_endsOperand (forall_of_ends h l hl)
  induction d with
  | unassigned _ ih | unconditional _ ih | operand _ ih => exact ih
  | assign _ _ _ ih => exact ends_append _ (hcons ih)
  | conditional _ _ _ _ _ ih => exact ends_append _ (hcons (ends_append _ (hcons ih)))
  | operation _ _ ih₁ ih₂ | chain _ _ ih₁ ih₂ => exact ends_or ih₁ ih₂
  | joined | linked => exact nofun
  | join _ _ _ _ ih₁ ih₂ => exact forall_of_ends (hcons (ends_or ih₁ ih₂))
  | unary _ _ ih => exact hcons ih
  | member _ _ ih => exact forall_of_ends (hcons (hlinks rfl ih))
  | index _ _ _ ih | call _ _ _ ih => exact forall_of_ends (hcons (ends_append _ (hlinks rfl ih)))
  | number | name => exact ⟨_, rfl, rfl⟩
  | literal p => exact ⟨_, rfl, by cases p <;> rfl⟩
  | group | array | object => exact hcons (ends_append _ ⟨_, rfl, rfl⟩)
  | noItem | noProperty => exact nofun
  | lastItem _ ih => exact hoperand ih
  | lastProperty _ ih => exact ih
  | item _ _ _ ih | property _ _ _ ih =>
    have hcomma : ∃ l, [Lexeme.symbol .comma].getLast? = some l ∧ l.isLogical = false := ⟨_, rfl, rfl⟩
    exact forall_of_ends (ends_append _ (ends_or hcomma ih))
  | shorthand => rintro _ ⟨⟩; rfl
  | named _ _ ih | quoted _ _ ih | numbered _ _ ih => exact hoperand (hcons (hcons ih))

/-- An operand starts behind each logical operator that is not the last token. -/
def Joined (ls : List Lexeme) : Prop := ls.IsChain fun l l' => l.isLogical = true → l'.startsOperand = true

theorem joined_append (hx : Joined xs) (hy : Joined ys)
    (h : (∀ l ∈ xs.getLast?, l.isLogical = false) ∨ ∀ l ∈ ys.head?, l.startsOperand = true) : Joined (xs ++ ys) := by
  refine isChain_append.2 ⟨hx, hy, fun l hl l' hl' hlogical => ?_⟩
  rcases h with h | h
  · rw [h l hl] at hlogical
    cases hlogical
  · exact h l' hl'

theorem joined_cons {l : Lexeme} (hy : Joined ys)
    (h : l.isLogical = false ∨ ∀ l' ∈ ys.head?, l'.startsOperand = true) : Joined (l :: ys) := by
  have hsingle : Joined [l] := isChain_singleton l
  exact joined_append hsingle hy (h.imp_left fun h => by rintro _ ⟨⟩; exact h)

/-- No derivation ends with a logical operator. -/
theorem Derivation.getLast?_yield (d : Derivation c) : ∀ l ∈ d.yield.getLast?, l.isLogical = false := by
  have hends := d.ends
  cases c with
  | assign | conditional | operation | unary | primary =>
    exact fun l hl => isLogical_of_endsOperand (forall_of_ends hends l hl)
  | joins | links => exact fun l hl => isLogical_of_endsOperand (hends l hl)
  | items | properties | property => exact hends

theorem Derivation.joined_yield (d : Derivation c) : Joined d.yield := by
  have hnext : ∀ {c : Category} (d : Derivation c) {ys : List Lexeme} {l : Lexeme}, Joined d.yield → Joined ys →
      l.isLogical = false → Joined (d.yield ++ l :: ys) := fun d _ _ hx hy hl =>
    joined_append hx (joined_cons hy (.inl hl)) (.inl d.getLast?_yield)
  have hfirst : ∀ {l : Lexeme} {ys : List Lexeme}, l.isLogical = false → Joined ys → Joined (l :: ys) :=
    fun hl hy => joined_cons hy (.inl hl)
  have hnil : Joined [] := isChain_nil
  induction d with
  | unassigned _ ih | unconditional _ ih | operand _ ih | lastItem _ ih | lastProperty _ ih => exact ih
  | assign d _ ih₁ ih₂ | item d _ ih₁ ih₂ | property d _ ih₁ ih₂ => exact hnext d ih₁ ih₂ rfl
  | conditional d₁ d₂ _ ih₁ ih₂ ih₃ => exact hnext d₁ ih₁ (hnext d₂ ih₂ ih₃ rfl) rfl
  | operation first _ ih₁ ih₂ | chain first _ ih₁ ih₂ => exact joined_append ih₁ ih₂ (.inl first.getLast?_yield)
  | join op _ right rest ih₁ ih₂ =>
    refine joined_cons (joined_append ih₁ ih₂ (.inl right.getLast?_yield)) (.inr ?_)
    obtain ⟨l, hl, hstarts⟩ := starts_append rest.yield right.starts
    rw [hl]
    rintro _ ⟨⟩
    exact hstarts
  | joined | linked | noItem | noProperty => exact hnil
  | unary op _ ih => exact hfirst (by cases op <;> rfl) ih
  | member _ _ ih => exact hfirst rfl (hfirst rfl ih)
  | index d _ ih₁ ih₂ | call d _ ih₁ ih₂ => exact hfirst rfl (hnext d ih₁ ih₂ rfl)
  | number | name | shorthand => exact isChain_singleton _
  | literal p => exact isChain_singleton _
  | group d ih | array d ih | object d ih => exact hfirst rfl (hnext d ih hnil rfl)
  | named _ _ ih | quoted _ _ ih | numbered _ _ ih => exact hfirst rfl (hfirst rfl ih)

end Ends

section Bars

variable {cs : List Char} {c : Char}

/-- Whether all bars of a text are in pairs that do not touch. -/
def paired : List Char → Bool
  | '|' :: '|' :: rest => rest.head? != some '|' && paired rest
  | '|' :: _ => false
  | _ :: rest => paired rest
  | [] => true

theorem paired_cons (h : c ≠ '|') : paired (c :: cs) = paired cs := by
  rw [paired]
  · rintro rest rfl
    exact absurd rfl h
  · exact h

theorem paired_append {xs : List Char} (h : '|' ∉ xs) : paired (xs ++ cs) = paired cs := by
  induction xs with
  | nil => rfl
  | cons x xs ih =>
    rw [mem_cons, not_or] at h
    rw [cons_append, paired_cons (Ne.symm h.1), ih h.2]

theorem Lexes.paired {ls : List Lexeme} (h : Lexes cs ls) (hls : Joined ls) : paired cs = true := by
  induction h with
  | nil => rfl
  | blank hc _ ih =>
    rw [paired_cons (by rintro rfl; exact absurd hc (by decide)), ih hls]
  | @read c rest after l ls _ hl h ih =>
    obtain ⟨happ, -⟩ := readLexeme?_eq_some hl
    rw [← happ]
    have hafter := ih (List.IsChain.tail hls)
    by_cases heither : l = .symbol .either
    · subst heither
      -- a third bar would start another disjunction
      have hhead : after.head? ≠ some '|' := by
        intro hhead
        obtain ⟨r, rfl⟩ := head?_eq_some_iff.1 hhead
        cases h with
        | blank hc => exact absurd hc (by decide)
        | @read _ _ after' l' ls' _ hl' _ =>
          obtain ⟨happ', -⟩ := readLexeme?_eq_some hl'
          obtain ⟨s, rfl⟩ | ⟨hin, -, -⟩ := isInert_readLexeme hl'
          · cases s <;> first | exact absurd ((isChain_cons_cons.1 hls).1 rfl) (by decide) | cases happ'
          · obtain ⟨x, xs, hx⟩ := exists_cons_of_ne_nil (readLexeme?_eq_some hl').2
            rw [hx] at happ' hin
            cases (List.cons.inj happ').1
            cases hin '|' (.head _)
      have hpair : Surface.paired (Symbol.either.chars ++ after) =
        (after.head? != some '|' && Surface.paired after) := by
        rw [Symbol.chars]
        rfl
      rw [Lexeme.chars, hpair, hafter, Bool.and_true, bne_iff_ne]
      exact hhead
    · rw [paired_append, hafter]
      obtain ⟨s, rfl⟩ | ⟨hin, -, -⟩ := isInert_readLexeme hl
      · cases s <;> first | decide | exact absurd rfl heither
      · exact not_mem_of_isInert hin (by decide)

/-- A text whose bars are in pairs is not split at them. -/
theorem splitFrom_of_paired (h : paired cs = true) (d : Int) (b : Option Char) : (splitFrom '|' d b cs).2 = [] := by
  fun_induction paired cs generalizing d b with
  | case1 rest ih =>
    rw [Bool.and_eq_true] at h
    rw [splitFrom_cons (by simp [separates, isLoneBar]), splitFrom_cons (by simp [separates, isLoneBar])]
    exact ih h.2 _ _
  | case2 => cases h
  | case3 c rest hne _ ih =>
    rw [splitFrom_cons (by simp_all)]
    exact ih h _ _
  | case4 => rfl

end Bars

section Words

variable {xs ys : List Char} {b b' : Option Char} {d : Int} (h : Replaced xs ys)

include h

theorem Replaced.depthOf_eq : depthOf ys = depthOf xs := by
  induction h with
  | nil => rfl
  | both _ ih | either _ ih => simp [depthStep, ih]
  | cons c _ ih => rw [depthOf_cons, depthOf_cons, ih]

theorem Replaced.splitFrom_comma (hy : (splitFrom ',' d b ys).2 = []) : (splitFrom ',' d b' xs).2 = [] := by
  have hpass : ∀ (pre : List Char) {zs : List Char} {d : Int} {b : Option Char}, ',' ∉ pre → depthOf pre = 0 →
      (splitFrom ',' d b (pre ++ zs)).2 = (splitFrom ',' d (lastOr b pre) zs).2 := fun _ => splitFrom_pass
  induction h generalizing d b b' with
  | nil => rfl
  | both _ ih =>
    refine (hpass ['a', 'n', 'd'] (by decide) (by decide)).trans (ih (b := some '&') ?_)
    exact (hpass ['&', '&'] (by decide) (by decide)).symm.trans hy
  | either _ ih =>
    refine (hpass ['o', 'r'] (by decide) (by decide)).trans (ih (b := some '|') ?_)
    exact (hpass ['|', '|'] (by decide) (by decide)).symm.trans hy
  | @cons c xs ys _ ih =>
    have hstop := stops_eq_false hy
    have hstop' : (c = ',' && d = 0 && separates ',' b' xs) = false := hstop
    rw [splitFrom_cons hstop] at hy
    rw [splitFrom_cons hstop']
    exact ih hy

/-- Whether an equals sign behind a character is that of a comparison. -/
def comparesAfter (b : Option Char) : Bool := b.elim true fun c => c = '=' || c = '!' || c = '<' || c = '>'

theorem Replaced.splitAssignFrom_eq_none (hb : comparesAfter b = comparesAfter b')
    (hy : splitAssignFrom d b ys = none) : splitAssignFrom d b' xs = none := by
  have hpass : ∀ (pre : List Char) {zs : List Char} {d : Int} {b : Option Char}, '=' ∉ pre → depthOf pre = 0 →
      (splitAssignFrom d b (pre ++ zs) = none ↔ splitAssignFrom d (lastOr b pre) zs = none) :=
    fun _ => splitAssignFrom_pass
  induction h generalizing d b b' with
  | nil => rfl
  | both _ ih =>
    refine (hpass ['a', 'n', 'd'] (by decide) (by decide)).2 (ih (b := some '&') rfl ?_)
    exact (hpass ['&', '&'] (by decide) (by decide)).1 hy
  | either _ ih =>
    refine (hpass ['o', 'r'] (by decide) (by decide)).2 (ih (b := some '|') rfl ?_)
    exact (hpass ['|', '|'] (by decide) (by decide)).1 hy
  | @cons c xs ys h ih =>
    have hstop := assigns_eq_false hy
    have hhead : xs.head? = some '=' ↔ ys.head? = some '=' := by
      cases h <;> simp
    have hcompare : isComparison b' xs = isComparison b ys := by
      change (comparesAfter b' || _) = (comparesAfter b || _)
      rw [hb, decide_eq_decide.2 hhead]
    rw [splitAssignFrom_cons hstop, Option.map_eq_none_iff] at hy
    rw [splitAssignFrom_cons (by rw [hcompare]; exact hstop), ih rfl hy]
    rfl

theorem Replaced.paired (hy : paired ys = true) : paired xs = true := by
  fun_induction Surface.paired ys generalizing xs with
  | case1 rest ih =>
    rw [Bool.and_eq_true, bne_iff_ne] at hy
    cases h with
    | either h =>
      rw [paired_cons (by decide), paired_cons (by decide)]
      exact ih h hy.2
    | cons _ h =>
      cases h with
      | either h => exact absurd rfl hy.1
      | @cons _ xs _ h =>
        have hhead : xs.head? ≠ some '|' := by
          intro hhead
          obtain ⟨xs', rfl⟩ := head?_eq_some_iff.1 hhead
          obtain ⟨ys', rfl, -⟩ := h.cons_of_ends (by decide)
          exact hy.1 rfl
        rw [Surface.paired, Bool.and_eq_true, bne_iff_ne]
        exact ⟨hhead, ih h hy.2⟩
  | case2 => cases hy
  | case3 c rest _ hne ih =>
    cases h with
    | @both xs ys h =>
      rw [paired_cons (by decide), paired_cons (by decide), paired_cons (by decide)]
      have hrest := ih (.cons '&' h) hy
      rwa [paired_cons (by decide)] at hrest
    | either h => exact absurd rfl hne
    | cons _ h =>
      rw [paired_cons hne]
      exact ih h hy
  | case4 =>
    cases h
    rfl

end Words

section Expressions

variable {cs : List Char} {c : Char} {ls : List Lexeme}

/-- A text that is one part wherever it stands: it is not split at commas and bars, its brackets are closed, and it
does not start or end within an operator that has a bar or an equals sign. -/
structure Contained (cs : List Char) : Prop where
  level : depthOf cs = 0
  commas : ∀ b, (splitFrom ',' 0 b cs).2 = []
  bars : paired cs = true
  first : cs.head? ≠ some '='
  last : ∀ c ∈ cs.getLast?, c ∉ ['|', '=', '!', '<', '>']

theorem Lexes.getLast? (h : Lexes cs ls) (hc : cs.getLast? = some c) :
    isInert c = true ∨ ∃ s, ls.getLast? = some (.symbol s) ∧ s.chars.getLast? = some c := by
  induction h with
  | nil => cases hc
  | @blank x rest ls hx h ih =>
    cases rest with
    | nil =>
      cases hc
      exact .inl (isInert_of_isBlank hx)
    | cons y rest => exact ih hc
  | @read x rest after l ls _ hl h ih =>
    rw [← (readLexeme?_eq_some hl).1] at hc
    rcases hafter : after.getLast? with _ | y
    · obtain rfl := getLast?_eq_none_iff.1 hafter
      obtain rfl := lexes_nil_iff.1 h
      rw [append_nil] at hc
      obtain ⟨s, rfl⟩ | ⟨hin, -, -⟩ := isInert_readLexeme hl
      · exact .inr ⟨s, rfl, hc⟩
      · exact .inl (hin c (mem_of_getLast? hc))
    · rw [getLast?_append, hafter] at hc
      cases hc
      refine (ih hafter).imp_right fun ⟨s, hs, hlast⟩ => ⟨s, ?_, hlast⟩
      rw [getLast?_cons, hs]
      rfl

theorem Lexes.head? (h : Lexes ('=' :: cs) ls) :
    ∃ s, ls.head? = some (.symbol s) ∧ (Lexeme.symbol s).startsOperand = false := by
  cases h with
  | blank hc => exact absurd hc (by decide)
  | @read _ _ after l ls _ hl h =>
    obtain ⟨happ, hne⟩ := readLexeme?_eq_some hl
    obtain ⟨s, rfl⟩ | ⟨hin, -, -⟩ := isInert_readLexeme hl
    · refine ⟨s, rfl, ?_⟩
      cases s <;> first | rfl | cases happ
    · obtain ⟨x, xs, hx⟩ := exists_cons_of_ne_nil hne
      rw [hx] at happ hin
      cases (List.cons.inj happ).1
      cases hin '=' (.head _)

/-- A text is one part if it is an expression with its word operators replaced. -/
theorem Replaced.contained {ds : List Char} {v : Expr Placeholder} (hreplaced : Replaced cs ds) (h : parse ds = .ok v) :
    Contained cs := by
  obtain ⟨ls, hls, -, d, -, rfl, -⟩ := parse_eq_ok_iff.1 h
  refine ⟨?_, fun b => ?_, ?_, ?_, ?_⟩
  · have hlevel := (hls.splitFrom_comma d.closed_yield none).1
    rw [hreplaced.depthOf_eq] at hlevel
    simpa using hlevel
  · exact hreplaced.splitFrom_comma (hls.splitFrom_comma d.closed_yield none).2
  · exact hreplaced.paired (hls.paired d.joined_yield)
  · intro hfirst
    obtain ⟨rest, rfl⟩ := head?_eq_some_iff.1 hfirst
    obtain ⟨ys, rfl, -⟩ := hreplaced.cons_of_ends (by decide)
    obtain ⟨s, hs, hstart⟩ := hls.head?
    obtain ⟨l, hl, hstart'⟩ := d.starts
    rw [hs] at hl
    cases hl
    rw [hstart] at hstart'
    cases hstart'
  · intro c hc hmem
    have hword : continuesWord c = false :=
      (by decide : ∀ x ∈ ['|', '=', '!', '<', '>'], continuesWord x = false) c hmem
    obtain hin | ⟨s, hs, hlast⟩ := hls.getLast? (hreplaced.getLast? hword hc)
    · exact absurd hin ((by decide : ∀ x ∈ ['|', '=', '!', '<', '>'], ¬ isInert x = true) c hmem)
    · obtain ⟨l, hl, hend⟩ := d.ends
      rw [hs] at hl
      cases hl
      cases s <;> first | exact absurd hend (by decide) | (cases hlast; exact absurd hmem (by decide))

/-- The text of an expression is one part. -/
theorem contained_of_parse {v : Expr Placeholder} (h : parse (replaceWords cs) = .ok v) : Contained cs :=
  (replaced_replaceWordsFrom none cs).contained h

/-- A text whose assignments are all within brackets has no assignment sign to be split at. -/
theorem splitAssignFrom_of_lexes {p : Lexeme → Bool} (hp : p (.symbol .assign) = false)
    (h : Lexes (replaceWords cs) ls) {e : Nat} (hscan : scan p 0 ls = some e) : splitAssignFrom 0 none cs = none :=
  (replaced_replaceWordsFrom none cs).splitAssignFrom_eq_none rfl (h.splitAssignFrom_eq_none hp hscan none)

end Expressions

end NullSafe.Surface
