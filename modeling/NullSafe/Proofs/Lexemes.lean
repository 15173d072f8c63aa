import Mathlib.Data.List.TakeWhile
import NullSafe.Proofs.Language

/-! # The tokens of a text, wherever it stands

Blanks, commas and parentheses end every token. A text that is followed by one of them has the tokens that it
has on its own.
-/

namespace NullSafe.Surface

open Text List

variable {cs : List Char} {ls : List Lexeme}

/-- The tokens of a text, without their positions. -/
inductive Lexes : List Char → List Lexeme → Prop where
  | nil : Lexes [] []
  | blank {c rest ls} (hc : isBlank c = true) (h : Lexes rest ls) : Lexes (c :: rest) ls
  | read {c rest after l ls} (hc : isBlank c = false) (hl : readLexeme? (c :: rest) = some (l, after))
      (h : Lexes after ls) : Lexes (c :: rest) (l :: ls)

theorem lexes_of_tokensFrom {pos : Nat} {ts : List Token} (h : tokensFrom pos cs = .ok ts) : Lexes cs (lexemes ts) := by
  fun_induction tokensFrom pos cs generalizing ts with
  | case1 => cases h; exact .nil
  | case2 pos c rest hc ih => exact .blank hc (ih h)
  | case3 => cases h
  | case4 pos c rest hc l after hl ih =>
    rcases hts : tokensFrom (pos + l.chars.length) after with f | ts' <;> rw [hts] at h
    · cases h
    · cases h
      exact .read (by simpa using hc) hl (ih hts)

theorem Lexes.tokensFrom (h : Lexes cs ls) (pos : Nat) : ∃ ts, tokensFrom pos cs = .ok ts ∧ lexemes ts = ls := by
  induction h generalizing pos with
  | nil => exact ⟨[], by rw [Surface.tokensFrom], rfl⟩
  | blank hc _ ih =>
    obtain ⟨ts, hts, rfl⟩ := ih (pos + 1)
    exact ⟨ts, by rw [Surface.tokensFrom, if_pos hc, hts], rfl⟩
  | @read c rest after l ls hc hl _ ih =>
    obtain ⟨ts, hts, rfl⟩ := ih (pos + l.chars.length)
    exact ⟨⟨l, pos⟩ :: ts, by rw [tokensFrom_of_read hc hl, hts]; rfl, rfl⟩

theorem Lexes.unique {xs ys : List Lexeme} (hx : Lexes cs xs) (hy : Lexes cs ys) : xs = ys := by
  obtain ⟨ts, hts, rfl⟩ := hx.tokensFrom 0
  obtain ⟨ts', hts', rfl⟩ := hy.tokensFrom 0
  rw [hts] at hts'
  cases hts'
  rfl

theorem lexes_nil_iff : Lexes [] ls ↔ ls = [] := by
  constructor
  · intro h
    cases h
    rfl
  · rintro rfl
    exact .nil

theorem lexes_blank_iff {c : Char} {rest : List Char} (hc : isBlank c = true) :
    Lexes (c :: rest) ls ↔ Lexes rest ls := by
  refine ⟨fun h => ?_, .blank hc⟩
  cases h with
  | blank _ h => exact h
  | read hc' => rw [hc] at hc'; cases hc'

theorem lexes_read_iff {c : Char} {rest after : List Char} {l : Lexeme}
    (hc : isBlank c = false) (hl : readLexeme? (c :: rest) = some (l, after)) :
    Lexes (c :: rest) ls ↔ ∃ ls', Lexes after ls' ∧ ls = l :: ls' := by
  constructor
  · intro h
    cases h with
    | blank hc' => rw [hc] at hc'; cases hc'
    | read _ hl' h =>
      rw [hl] at hl'
      cases hl'
      exact ⟨_, h, rfl⟩
  · rintro ⟨ls', h, rfl⟩
    exact .read hc hl h

/-- A text parses if its tokens are those of a sentence whose numerals can be converted. -/
theorem parse_eq_ok_iff {v : Expr Placeholder} :
    parse cs = .ok v ↔ ∃ ls, Lexes cs ls ∧ Fit ls ∧ Derives .assign ls v := by
  constructor
  · intro h
    unfold parse at h
    split at h
    · cases h
    · rename_i ts hts
      have hv : Derives .assign (lexemes ts) v := derives_of_ofTokens_eq_ok h
      refine ⟨lexemes ts, lexes_of_tokensFrom hts, Classical.byContradiction fun hfit => ?_, hv⟩
      obtain ⟨d, hd, hy, -⟩ := hv
      have hov : Overflows (lexemes ts) := ⟨d, hd, hy ▸ hfit, hy ▸ upToMisfit_prefix d.yield⟩
      rw [ofTokens_eq_error_of_overflows hov] at h
      cases h
  · rintro ⟨ls, hls, hfit, hv⟩
    obtain ⟨ts, hts, rfl⟩ := hls.tokensFrom 0
    rw [parse, tokenize, hts]
    exact ofTokens_eq_ok_of_derives hv (not_overflows_of_fit hfit)

/-- A text parses to what a derivation of its tokens means. -/
theorem parse_of_derivation (d : Derivation .assign) (htokens : (tokenize cs).map lexemes = .ok d.yield)
    (hfit : Fit d.yield) (hvalid : d.Valid) : parse cs = .ok d.meaning := by
  rcases hts : tokenize cs with f | ts <;> rw [hts] at htokens
  · cases htokens
  · exact parse_eq_ok_iff.2 ⟨lexemes ts, lexes_of_tokensFrom hts, Except.ok.inj htokens ▸ hfit, d, hvalid,
      (Except.ok.inj htokens).symm, rfl⟩

theorem parse_of_placeholder {p : Placeholder} (htokens : (tokenize cs).map lexemes = .ok [.ofPlaceholder p]) :
    parse cs = .ok (.literal p) := by
  exact parse_of_derivation (.alone (.single (.chain (.literal p) .linked))) htokens
    (List.forall_mem_singleton.2 (by cases p <;> rfl)) (by repeat' constructor)

theorem parse_placeholder (p : Placeholder) : parse p.chars = .ok (.literal p) :=
  parse_of_placeholder (by rcases p with (_ | _) | _ <;> decide +kernel)

theorem level_add : (Operator.binary .add).level = 1 + 1 := rfl

def Derivation.sum (p q : Placeholder) : Derivation .assign :=
  let operand (p : Placeholder) : Derivation (.operation 1) :=
    .operation (.operand (.chain (.literal p) .linked)) .joined
  .alone (.raised (.operation (operand p) (.join (.binary .add) level_add (operand q) .joined)) 4)

section Cuts

variable {cs r : List Char}

/-- Whether a character ends every token before it. -/
def isCut (c : Char) : Bool := isBlank c || [',', '(', ')'].contains c

variable {a b : List Char} {c : Char}

theorem isBlank_eq_false_of_toNat (hlow : 0x24 ≤ c.toNat) (hhigh : c.toNat < 0x80) : isBlank c = false := by
  have hranges : ∀ r ∈ blankRanges, r.2 < 0x24 ∨ 0x80 ≤ r.1 := by decide
  rw [isBlank, Ranges.mem, any_eq_false]
  intro r hr
  have := hranges r hr
  simp only [Bool.and_eq_true, decide_eq_true_eq]
  omega

theorem isBlank_eq_false_of_isDecimal (h : isDecimal c = true) : isBlank c = false := by
  have hranges : ∀ r ∈ blankRanges, ∀ z ∈ decimalZeros, r.2 < z ∨ z + 10 ≤ r.1 := by decide
  rw [isDecimal, decimalValue?, Option.isSome_map, find?_isSome] at h
  obtain ⟨z, hz, hc⟩ := h
  rw [isBlank, Ranges.mem, any_eq_false]
  intro r hr
  have := hranges r hr z hz
  simp only [Bool.and_eq_true, decide_eq_true_eq] at hc ⊢
  omega

theorem toNat_of_isAlpha (h : c.isAlpha = true) : 0x41 ≤ c.toNat ∧ c.toNat < 0x80 := by
  rcases Bool.or_eq_true_iff.1 h with h | h
  · obtain ⟨hlow, hhigh⟩ : 0x41 ≤ c.toNat ∧ c.toNat ≤ 0x5A := of_decide_eq_true h
    omega
  · obtain ⟨hlow, hhigh⟩ := Bool.and_eq_true_iff.1 h
    exact ⟨Nat.le_trans (by decide) (of_decide_eq_true hlow), Nat.lt_of_le_of_lt (of_decide_eq_true hhigh) (by decide)⟩

theorem toNat_of_isAlphanum (h : c.isAlphanum = true) : 0x30 ≤ c.toNat ∧ c.toNat < 0x80 := by
  rcases Bool.or_eq_true_iff.1 h with h | h
  · have := toNat_of_isAlpha h
    omega
  · obtain ⟨hlow, hhigh⟩ := Bool.and_eq_true_iff.1 h
    exact ⟨of_decide_eq_true hlow, Nat.lt_of_le_of_lt (of_decide_eq_true hhigh) (by decide)⟩

theorem isBlank_eq_false_of_isNameRest (h : isNameRest c = true) : isBlank c = false := by
  simp only [isNameRest, Bool.or_eq_true, decide_eq_true_eq] at h
  rcases h with (h | rfl) | rfl
  · have := toNat_of_isAlphanum h
    exact isBlank_eq_false_of_toNat (by omega) this.2
  · decide
  · decide

theorem isBlank_eq_false_of_isHexDigit (h : isHexDigit c = true) : isBlank c = false := by
  have hrange : ∀ x y : Char, 0x24 ≤ x.toNat → y.toNat < 0x80 → (decide (x ≤ c) && decide (c ≤ y)) = true →
      isBlank c = false := by
    intro x y hx hy hc
    rw [Bool.and_eq_true, decide_eq_true_eq, decide_eq_true_eq] at hc
    exact isBlank_eq_false_of_toNat (Nat.le_trans hx hc.1) (Nat.lt_of_le_of_lt hc.2 hy)
  unfold isHexDigit alphaDigitValue? at h
  split at h
  · exact hrange '0' '9' (by decide) (by decide) ‹_›
  split at h
  · exact hrange 'a' 'z' (by decide) (by decide) ‹_›
  split at h
  · exact hrange 'A' 'Z' (by decide) (by decide) ‹_›
  · cases h

theorem kind_of_isCut {k : Char → Bool} (hc : isCut c = true) (hblank : ∀ x, k x = true → isBlank x = false)
    (h : ∀ x ∈ [',', '(', ')'], k x = false) : k c = false := by
  rw [isCut, Bool.or_eq_true, contains_iff_mem] at hc
  rcases hc with hc | hc
  · by_contra hk
    rw [hblank c (Bool.not_eq_false _ ▸ hk)] at hc
    cases hc
  · exact h c hc

theorem ne_of_isCut {x : Char} (hc : isCut c = true) (hx : isCut x = false) : c ≠ x := by
  rintro rfl
  rw [hx] at hc
  cases hc

theorem isDecimal_of_isCut (hc : isCut c = true) : isDecimal c = false :=
  kind_of_isCut hc (fun _ => isBlank_eq_false_of_isDecimal) (by decide)

theorem isNameRest_of_isCut (hc : isCut c = true) : isNameRest c = false :=
  kind_of_isCut hc (fun _ => isBlank_eq_false_of_isNameRest) (by decide)

theorem takeWhile_append_cons {p : Char → Bool} (h : p c = false) : (a ++ c :: b).takeWhile p = a.takeWhile p := by
  induction a with
  | nil => simp [h]
  | cons x a ih => by_cases hx : p x = true <;> simp [hx, ih]

theorem dropWhile_append_cons {p : Char → Bool} (h : p c = false) :
    (a ++ c :: b).dropWhile p = a.dropWhile p ++ c :: b := by
  induction a with
  | nil => simp [h]
  | cons x a ih => by_cases hx : p x = true <;> simp [hx, ih]

def endsNumeral (c : Char) : Bool := !isDecimal c && !isHexDigit c && !(['.', 'x', 'X', '+', '-'].contains c)

theorem endsNumeral_of_isCut (hc : isCut c = true) : endsNumeral c = true := by
  have hhex : isHexDigit c = false := kind_of_isCut hc (fun _ => isBlank_eq_false_of_isHexDigit) (by decide)
  have hother : ['.', 'x', 'X', '+', '-'].contains c = false := by
    have hcut : ∀ x ∈ ['.', 'x', 'X', '+', '-'], isCut x = false := by decide
    rw [contains_eq_mem, decide_eq_false_iff_not]
    exact fun hmem => ne_of_isCut hc (hcut c hmem) rfl
  rw [endsNumeral, isDecimal_of_isCut hc, hhex, hother]
  rfl

variable (hc : endsNumeral c = true)

include hc

theorem ne_of_endsNumeral {x : Char} (hx : endsNumeral x = false) : c ≠ x := by
  rintro rfl
  rw [hx] at hc
  cases hc

theorem isDecimal_of_endsNumeral : isDecimal c = false := by
  simp only [endsNumeral, Bool.and_eq_true, Bool.not_eq_true'] at hc
  exact hc.1.1

theorem isHexDigit_of_endsNumeral : isHexDigit c = false := by
  simp only [endsNumeral, Bool.and_eq_true, Bool.not_eq_true'] at hc
  exact hc.1.2

theorem readExponent_append_cons : readExponent (a ++ c :: b) = ((readExponent a).1, (readExponent a).2 ++ c :: b) := by
  have hdecimal : isDecimal c = false := isDecimal_of_endsNumeral hc
  have hne : ∀ x, endsNumeral x = false → c ≠ x := fun _ => ne_of_endsNumeral hc
  have hsign : (decide (c = '+') || decide (c = '-')) = false := by
    simp [hne '+' (by decide), hne '-' (by decide)]
  have hletter : (decide (c = 'e') || decide (c = 'E')) = false := by
    simp [hne 'e' (by decide), hne 'E' (by decide)]
  rcases a with _ | ⟨e, rest⟩
  · simp only [nil_append, readExponent, hletter, Bool.false_eq_true, if_false]
  · have htake : ((rest ++ c :: b).take 1).filter (fun c => c = '+' || c = '-') =
        (rest.take 1).filter fun c => c = '+' || c = '-' := by
      cases rest with
      | nil => simp only [nil_append, take_succ_cons, take_zero, filter_cons, hsign]; rfl
      | cons x rest => rfl
    have hdrop : (rest ++ c :: b).drop ((rest.take 1).filter fun c => c = '+' || c = '-').length =
        rest.drop ((rest.take 1).filter fun c => c = '+' || c = '-').length ++ c :: b := by
      refine drop_append_of_le_length ?_
      exact Nat.le_trans (length_filter_le _ _) (length_take_le' _ _)
    by_cases he : (decide (e = 'e') || decide (e = 'E')) = true
    · simp only [cons_append, readExponent, he, if_true, htake, hdrop, takeWhile_append_cons hdecimal,
        dropWhile_append_cons hdecimal]
      split <;> rfl
    · simp only [cons_append, readExponent, he, Bool.false_eq_true, if_false]

omit hc

theorem readMantissa?_of_point {rest : List Char} (h : cs.dropWhile isDecimal = '.' :: rest) :
    readMantissa? cs =
      if (cs.takeWhile isDecimal).isEmpty && (rest.takeWhile isDecimal).isEmpty then none
      else some (cs.takeWhile isDecimal ++ '.' :: rest.takeWhile isDecimal, rest.dropWhile isDecimal) := by
  rw [readMantissa?, h]
  rfl

theorem readMantissa?_of_no_point (h : (cs.dropWhile isDecimal).head? ≠ some '.') :
    readMantissa? cs =
      if (cs.takeWhile isDecimal).isEmpty then none
      else some (cs.takeWhile isDecimal, cs.dropWhile isDecimal) := by
  unfold readMantissa?
  dsimp only
  split
  · rename_i hrest
    rw [hrest] at h
    exact absurd rfl h
  · rfl

theorem readMantissa?_append_cons (hc : endsNumeral c = true) :
    readMantissa? (a ++ c :: b) = (readMantissa? a).map fun (m, r) => (m, r ++ c :: b) := by
  have hdecimal : isDecimal c = false := isDecimal_of_endsNumeral hc
  have hpoint : c ≠ '.' := ne_of_endsNumeral hc (by decide)
  have hdrop : (a ++ c :: b).dropWhile isDecimal = a.dropWhile isDecimal ++ c :: b := dropWhile_append_cons hdecimal
  by_cases h : (a.dropWhile isDecimal).head? = some '.'
  · obtain ⟨rest, hrest⟩ := head?_eq_some_iff.1 h
    have happ : (a ++ c :: b).dropWhile isDecimal = '.' :: (rest ++ c :: b) := by rw [hdrop, hrest]; rfl
    rw [readMantissa?_of_point hrest, readMantissa?_of_point happ, takeWhile_append_cons hdecimal,
      takeWhile_append_cons hdecimal, dropWhile_append_cons hdecimal]
    split <;> rfl
  · have happ : ((a ++ c :: b).dropWhile isDecimal).head? ≠ some '.' := by
      rw [hdrop, head?_append]
      rcases hx : (a.dropWhile isDecimal).head? with _ | x
      · simpa using hpoint
      · rw [hx] at h
        exact h
    rw [readMantissa?_of_no_point h, readMantissa?_of_no_point happ, takeWhile_append_cons hdecimal, hdrop]
    split <;> rfl

theorem readDecimal?_append_cons (hc : endsNumeral c = true) :
    readDecimal? (a ++ c :: b) = (readDecimal? a).map fun (n, r) => (n, r ++ c :: b) := by
  rw [readDecimal?, readDecimal?, readMantissa?_append_cons hc]
  rcases readMantissa? a with _ | ⟨m, r⟩
  · rfl
  · simp only [Option.map_some, readExponent_append_cons hc]

theorem readNumber?_of_ne (h : ∀ x r, cs ≠ '0' :: x :: r) : readNumber? cs = readDecimal? cs := by
  unfold readNumber?
  split
  · exact absurd rfl (h _ _)
  · rfl

theorem readNumber?_append_cons (hc : endsNumeral c = true) :
    readNumber? (a ++ c :: b) = (readNumber? a).map fun (n, r) => (n, r ++ c :: b) := by
  have hhex : isHexDigit c = false := isHexDigit_of_endsNumeral hc
  have hne : ∀ x, endsNumeral x = false → c ≠ x := fun _ => ne_of_endsNumeral hc
  have hletter : (decide (c = 'x') || decide (c = 'X')) = false := by
    simp [hne 'x' (by decide), hne 'X' (by decide)]
  have hzero : c ≠ '0' := hne '0' (by decide)
  have hdecimal := readDecimal?_append_cons (a := a) (b := b) hc
  by_cases ha : a.head? = some '0'
  · obtain ⟨rest, rfl⟩ := head?_eq_some_iff.1 ha
    rcases rest with _ | ⟨x, rest⟩
    · have hshort : readNumber? ('0' :: c :: b) = readDecimal? ('0' :: c :: b) := by
        simp only [readNumber?, hletter, Bool.false_and, Bool.false_eq_true, if_false]
      rw [@readNumber?_of_ne ['0'] (by simp), ← hdecimal]
      exact hshort
    · simp only [cons_append] at hdecimal
      simp only [cons_append, readNumber?, takeWhile_append_cons hhex, dropWhile_append_cons hhex, hdecimal]
      split <;> rfl
  · have hne : ∀ x r, a ≠ '0' :: x :: r := fun x r h => ha (by rw [h]; rfl)
    have happ : ∀ x r, a ++ c :: b ≠ '0' :: x :: r := by
      intro x r h
      have hhead := congrArg List.head? h
      rw [head?_append] at hhead
      rcases hx : a.head? with _ | x <;> rw [hx] at hhead
      · exact hzero (Option.some.inj hhead)
      · exact ha (hx.trans hhead)
    rw [readNumber?_of_ne hne, readNumber?_of_ne happ, hdecimal]

theorem endsNumeral_of_mem {n : List Char} (h : readNumber? cs = some (n, r)) (hmem : c ∈ n) :
    endsNumeral c = false := by
  by_contra hc
  obtain ⟨a, b, rfl⟩ := append_of_mem hmem
  rw [← (readNumber?_eq_some h).1, append_assoc, cons_append, readNumber?_append_cons (Bool.not_eq_false _ ▸ hc)] at h
  obtain ⟨⟨n, r'⟩, hn, heq⟩ := Option.map_eq_some_iff.1 h
  -- the character cannot belong to a numeral that ends before it
  have hlength := congrArg List.length (readNumber?_eq_some hn).1
  rw [(Prod.mk.inj heq).1] at hlength
  simp at hlength

/-- The symbols that an equals sign makes longer. -/
def Symbol.isExtensible : Symbol → Bool
  | assign | bang | below | above | equal | differ => true
  | _ => false

theorem Symbol.read?_chars_append {s : Symbol}
    (h : s.isExtensible = true → r.head? ≠ some '=') : read? (s.chars ++ r) = some (s, r) := by
  rcases r with _ | ⟨x, r⟩
  · cases s <;> rfl
  · by_cases hx : x = '='
    · subst hx
      cases s <;> first | rfl | exact absurd rfl (h rfl)
    · cases s <;> first | rfl | simp [chars, read?, hx]

theorem Symbol.head?_of_read? {s : Symbol} (h : read? cs = some (s, r))
    (hs : s.isExtensible = true) : r.head? ≠ some '=' := by
  intro hr
  obtain ⟨r', rfl⟩ := head?_eq_some_iff.1 hr
  obtain ⟨rfl, -⟩ := read?_eq_some h
  rcases r' with _ | ⟨x, r'⟩
  · cases s <;> first | exact absurd hs (by decide) | cases h
  · by_cases hx : x = '='
    · subst hx
      cases s <;> first | exact absurd hs (by decide) | cases h
    · cases s <;> first | exact absurd hs (by decide) | simp [chars, read?, hx] at h

/-- The tokens of a text end before a character: it ends every token, or it starts a logical operator and the text does
not end with it. -/
def EndsBefore (a : List Char) (c : Char) : Prop := isCut c = true ∨ c ∈ ['&', '|'] ∧ a.getLast? ≠ some c

namespace EndsBefore

theorem ne {x : Char} (h : EndsBefore a c) (hx : isCut x = false) (hx' : x ∉ ['&', '|']) : c ≠ x := by
  rcases h with h | ⟨h, -⟩
  · exact ne_of_isCut h hx
  · rintro rfl
    exact hx' h

theorem endsNumeral (h : EndsBefore a c) : endsNumeral c = true := by
  rcases h with h | ⟨h, -⟩
  · exact endsNumeral_of_isCut h
  · exact (by decide : ∀ x ∈ ['&', '|'], Surface.endsNumeral x = true) c h

theorem isNameRest (h : EndsBefore a c) : isNameRest c = false := by
  rcases h with h | ⟨h, -⟩
  · exact isNameRest_of_isCut h
  · exact (by decide : ∀ x ∈ ['&', '|'], Surface.isNameRest x = false) c h

theorem of_append {x : List Char} (h : EndsBefore (x ++ a) c) : EndsBefore a c := by
  refine h.imp_right fun ⟨hc, hlast⟩ => ⟨hc, fun ha => hlast ?_⟩
  rw [getLast?_append, ha]
  rfl

theorem chars_ne (h : EndsBefore a c) (ha : a ≠ []) (s : Symbol) (b : List Char) : s.chars ≠ a ++ c :: b := by
  intro hs
  obtain ⟨x, a, rfl⟩ := exists_cons_of_ne_nil ha
  have hmem : c ∈ s.chars.tail := by
    rw [hs]
    exact mem_append_right _ (.head _)
  rcases h with h | ⟨h, hlast⟩
  · have hcut : ∀ y ∈ s.chars.tail, isCut y = false := by cases s <;> decide
    exact ne_of_isCut h (hcut c hmem) rfl
  · -- only the operators themselves have such a character, and then the text is its first one
    simp only [mem_cons, not_mem_nil, or_false] at h
    rcases h with rfl | rfl <;> cases s <;> first
      | exact absurd hmem (by decide)
      | (rcases a with _ | ⟨y, a⟩
         · cases hs
           exact hlast rfl
         · have hlength := congrArg List.length hs
           simp [Symbol.chars] at hlength)

end EndsBefore

theorem Symbol.read?_append (hc : EndsBefore a c) (ha : a ≠ []) :
    Symbol.read? (a ++ c :: b) = (Symbol.read? a).map fun (s, r) => (s, r ++ c :: b) := by
  have hne : c ≠ '=' := hc.ne (by decide) (by decide)
  have hhead : ∀ r : List Char, (r ++ c :: b).head? ≠ some '=' ↔ r.head? ≠ some '=' := by
    rintro (_ | ⟨x, r⟩)
    · simpa using hne
    · rfl
  rcases h : read? a with _ | ⟨s, r⟩
  · rcases happ : read? (a ++ c :: b) with _ | ⟨s, r'⟩
    · rfl
    · exfalso
      obtain ⟨hs, -⟩ := read?_eq_some happ
      obtain ⟨m, rfl, rfl⟩ : ∃ m, a = s.chars ++ m ∧ r' = m ++ c :: b := by
        rcases append_eq_append_iff.1 hs with ⟨m, hm, hr⟩ | ⟨_ | ⟨x, m⟩, hm, hr⟩
        · exact ⟨m, hm, hr⟩
        · exact ⟨[], by simp [hm], hr.symm⟩
        · obtain ⟨rfl, -⟩ := List.cons.inj hr
          exact absurd hm (hc.chars_ne ha s m)
      rw [read?_chars_append fun he => (hhead m).1 (head?_of_read? happ he)] at h
      cases h
  · obtain ⟨rfl, -⟩ := read?_eq_some h
    rw [append_assoc, read?_chars_append fun he => (hhead r).2 (head?_of_read? h he)]
    rfl

theorem readPlaceholder?_eq_some_iff {l : Lexeme} :
    readPlaceholder? cs = some (l, r) ↔ l ∈ [.string .single, .string .double, .pattern] ∧ cs = l.chars ++ r := by
  constructor
  · intro h
    refine ⟨?_, (readPlaceholder?_eq_some h).1.symm⟩
    unfold readPlaceholder? at h
    split at h <;> cases h <;> simp
  · rintro ⟨hl, rfl⟩
    simp only [mem_cons, not_mem_nil, or_false] at hl
    rcases hl with rfl | rfl | rfl <;> rfl

theorem readPlaceholder?_append (hc : c ∉ ['\x27', '"', '/']) :
    readPlaceholder? (a ++ c :: b) = (readPlaceholder? a).map fun (l, r) => (l, r ++ c :: b) := by
  rcases h : readPlaceholder? a with _ | ⟨l, r⟩
  · rcases happ : readPlaceholder? (a ++ c :: b) with _ | ⟨l, r⟩
    · rfl
    · exfalso
      obtain ⟨hl, heq⟩ := readPlaceholder?_eq_some_iff.1 happ
      obtain ⟨q, hq, hchars⟩ : ∃ q, c ≠ q ∧ l.chars = [q, q] := by
        simp only [mem_cons, not_mem_nil, or_false] at hl
        rcases hl with rfl | rfl | rfl <;> exact ⟨_, by rintro rfl; exact hc (by decide), rfl⟩
      rw [hchars] at heq
      rcases a with _ | ⟨x, _ | ⟨y, a⟩⟩
      · exact hq (List.cons.inj heq).1
      · exact hq (List.cons.inj (List.cons.inj heq).2).1
      · cases heq
        rw [readPlaceholder?_eq_some_iff.2 ⟨hl, by rw [hchars]; rfl⟩] at h
        cases h
  · obtain ⟨hl, rfl⟩ := readPlaceholder?_eq_some_iff.1 h
    exact readPlaceholder?_eq_some_iff.2 ⟨hl, append_assoc ..⟩

theorem readName?_append (hc : isNameRest c = false) (ha : a ≠ []) :
    readName? (a ++ c :: b) = (readName? a).map fun (n, r) => (n, r ++ c :: b) := by
  obtain ⟨x, a, rfl⟩ := exists_cons_of_ne_nil ha
  rw [readName?, readName?, takeWhile_append_cons hc, dropWhile_append_cons hc]
  by_cases hx : isNameStart x = true <;> simp [hx]

/-- A character that ends numerals and names and is no delimiter can change what is read before it only if that is a
symbol. -/
theorem readLexeme?_append_cases (hnumeral : endsNumeral c = true) (hname : isNameRest c = false)
    (hquote : c ∉ ['\x27', '"', '/']) (ha : a ≠ []) :
    (∃ l r, readLexeme? a = some (l, r) ∧ readLexeme? (a ++ c :: b) = some (l, r ++ c :: b)) ∨
      readLexeme? a = (Symbol.read? a).map (fun (s, r) => (.symbol s, r)) ∧
        readLexeme? (a ++ c :: b) = (Symbol.read? (a ++ c :: b)).map fun (s, r) => (.symbol s, r) := by
  rw [readLexeme?, readLexeme?, readNumber?_append_cons hnumeral, readPlaceholder?_append hquote,
    readName?_append hname ha]
  rcases readNumber? a with _ | ⟨n, r⟩
  · rcases readPlaceholder? a with _ | ⟨l, r⟩
    · rcases readName? a with _ | ⟨n, r⟩
      · exact .inr ⟨rfl, rfl⟩
      · exact .inl ⟨_, _, rfl, rfl⟩
    · exact .inl ⟨_, _, rfl, rfl⟩
  · exact .inl ⟨_, _, rfl, rfl⟩

theorem readLexeme?_append (hc : EndsBefore a c) (ha : a ≠ []) :
    readLexeme? (a ++ c :: b) = (readLexeme? a).map fun (l, r) => (l, r ++ c :: b) := by
  have hquote : c ∉ ['\x27', '"', '/'] := by
    have hne : ∀ x ∈ ['\x27', '"', '/'], isCut x = false ∧ x ∉ ['&', '|'] := by decide
    exact fun hmem => hc.ne (hne c hmem).1 (hne c hmem).2 rfl
  rcases readLexeme?_append_cases (b := b) hc.endsNumeral hc.isNameRest hquote ha with
    ⟨l, r, hread, happ⟩ | ⟨hread, happ⟩ <;> rw [hread, happ]
  · rfl
  · rw [Symbol.read?_append hc ha]
    rcases Symbol.read? a with _ | ⟨s, r⟩ <;> rfl

/-- A text has its own tokens in front of a character that they end before. -/
theorem EndsBefore.lexes_iff (hc : EndsBefore a c) {ls : List Lexeme} :
    Lexes (a ++ c :: b) ls ↔ ∃ xs ys, Lexes a xs ∧ Lexes (c :: b) ys ∧ ls = xs ++ ys := by
  constructor
  · intro h
    generalize hcs : a ++ c :: b = cs at h
    induction h generalizing a with
    | nil => cases a <;> cases hcs
    | @blank x rest ls hx h ih =>
      rcases a with _ | ⟨y, a⟩
      · cases hcs
        exact ⟨[], ls, .nil, .blank hx h, rfl⟩
      · obtain ⟨rfl, hrest⟩ := List.cons.inj hcs
        obtain ⟨xs, ys, hxs, hys, rfl⟩ := ih (@of_append a c [y] hc) hrest
        exact ⟨xs, ys, .blank hx hxs, hys, rfl⟩
    | @read x rest after l ls hx hl h ih =>
      rcases a with _ | ⟨y, a⟩
      · cases hcs
        exact ⟨[], l :: ls, .nil, .read hx hl h, rfl⟩
      · rw [← hcs, readLexeme?_append hc (by simp)] at hl
        obtain ⟨⟨l', r⟩, hr, heq⟩ := Option.map_eq_some_iff.1 hl
        cases heq
        have hc' : EndsBefore r c := by
          rw [← (readLexeme?_eq_some hr).1] at hc
          exact hc.of_append
        obtain ⟨xs, ys, hxs, hys, rfl⟩ := ih hc' rfl
        obtain ⟨rfl, -⟩ := List.cons.inj hcs
        exact ⟨l :: xs, ys, .read hx hr hxs, hys, rfl⟩
  · rintro ⟨xs, ys, hxs, hys, rfl⟩
    induction hxs with
    | nil => exact hys
    | @blank x rest _ hx _ ih => exact .blank hx (ih (@of_append rest c [x] hc))
    | @read x rest after l ls hx hl _ ih =>
      refine .read hx ?_ (ih ?_)
      · have happ := @readLexeme?_append (x :: rest) b c hc (by simp)
        rw [hl] at happ
        exact happ
      · rw [← (readLexeme?_eq_some hl).1] at hc
        exact hc.of_append

theorem lexes_append_cons_iff (hc : isCut c = true) {ls : List Lexeme} :
    Lexes (a ++ c :: b) ls ↔ ∃ xs ys, Lexes a xs ∧ Lexes (c :: b) ys ∧ ls = xs ++ ys :=
  EndsBefore.lexes_iff (.inl hc)

end Cuts

section Names

/-- A text that is one name. -/
def IsName (n : List Char) : Prop := n.head?.any isNameStart = true ∧ n.all isNameRest = true

variable {c x : Char} {rest n : List Char} (h : isNameStart x = true)

include h

theorem toNat_of_isNameStart : x.toNat = 0x24 ∨ 0x41 ≤ x.toNat ∧ x.toNat < 0x80 := by
  simp only [isNameStart, Bool.or_eq_true, decide_eq_true_eq] at h
  rcases h with (h | rfl) | rfl
  · exact .inr (toNat_of_isAlpha h)
  · decide
  · decide

theorem ne_of_isNameStart (hc : isNameStart c = false) : x ≠ c := by
  rintro rfl
  rw [h] at hc
  cases hc

theorem isNameRest_of_isNameStart : isNameRest x = true := by
  simp only [isNameStart, isNameRest, Char.isAlphanum, Bool.or_eq_true, decide_eq_true_eq] at h ⊢
  exact h.imp_left fun h => h.imp_left .inl

theorem isDecimal_eq_false_of_isNameStart : isDecimal x = false := by
  have hzeros : ∀ z ∈ decimalZeros, z = 0x30 ∨ 0x660 ≤ z := by decide
  have hx := toNat_of_isNameStart h
  rw [isDecimal, decimalValue?, Option.isSome_map, Option.isSome_eq_false_iff, Option.isNone_iff_eq_none, find?_eq_none]
  intro z hz
  have := hzeros z hz
  simp only [Bool.and_eq_true, decide_eq_true_eq]
  omega

theorem isBlank_eq_false_of_isNameStart : isBlank x = false :=
  isBlank_eq_false_of_isNameRest (isNameRest_of_isNameStart h)

omit h

theorem readNumber?_eq_none (hx : isDecimal x = false) (hpoint : x ≠ '.') : readNumber? (x :: rest) = none := by
  have hmantissa : readMantissa? (x :: rest) = none := by
    rw [readMantissa?_of_no_point] <;> simp [hx, hpoint]
  have hzero : x ≠ '0' := by rintro rfl; exact absurd hx (by decide)
  rw [readNumber?_of_ne fun y r h => hzero (List.cons.inj h).1, readDecimal?, hmantissa]
  rfl

theorem readPlaceholder?_eq_none (hx : x ∉ ['\x27', '"', '/']) : readPlaceholder? (x :: rest) = none := by
  rcases h : readPlaceholder? (x :: rest) with _ | ⟨l, r⟩
  · rfl
  · obtain ⟨hl, heq⟩ := readPlaceholder?_eq_some_iff.1 h
    simp only [mem_cons, not_mem_nil, or_false] at hl
    rcases hl with rfl | rfl | rfl <;> cases heq <;> exact absurd (by decide) hx

theorem span_append {k : Char → Bool} (hall : ∀ y ∈ n, k y = true) (hrest : ∀ c ∈ rest.head?, k c = false) :
    (n ++ rest).takeWhile k = n ∧ (n ++ rest).dropWhile k = rest := by
  rcases rest with _ | ⟨c, rest⟩
  · rw [append_nil]
    exact ⟨takeWhile_eq_self_iff.2 hall, dropWhile_eq_nil_iff.2 hall⟩
  · have hc : k c = false := hrest c rfl
    rw [takeWhile_append_cons hc, dropWhile_append_cons hc, takeWhile_eq_self_iff.2 hall, dropWhile_eq_nil_iff.2 hall]
    exact ⟨rfl, rfl⟩

theorem readName?_name (hn : IsName n) (hrest : ∀ c ∈ rest.head?, isNameRest c = false) :
    readName? (n ++ rest) = some (n, rest) := by
  rcases n with _ | ⟨x, n⟩
  · exact absurd hn.1 (by decide)
  have hspan := span_append (all_eq_true.1 hn.2) hrest
  rw [readName?, hspan.1, hspan.2]
  exact if_pos hn.1

theorem isName_of_readName {cs : List Char} (h : readName? cs = some (n, rest)) : IsName n := by
  unfold readName? at h
  split at h
  · rename_i hstart
    cases h
    rcases cs with _ | ⟨x, cs⟩
    · cases hstart
    · refine ⟨?_, all_takeWhile⟩
      rw [takeWhile_cons_of_pos (isNameRest_of_isNameStart hstart)]
      exact hstart
  · cases h

theorem readLexeme?_name (hn : IsName n) (hrest : ∀ c ∈ rest.head?, isNameRest c = false) :
    readLexeme? (n ++ rest) = some (.name n, rest) := by
  have hname := readName?_name hn hrest
  rcases n with _ | ⟨x, n⟩
  · exact absurd hn.1 (by decide)
  have hx : isNameStart x = true := hn.1
  have hne := fun y => @ne_of_isNameStart y x hx
  rw [cons_append] at hname ⊢
  rw [readLexeme?, hname, readNumber?_eq_none (isDecimal_eq_false_of_isNameStart hx) (hne _ (by decide)),
    readPlaceholder?_eq_none]
  · rfl
  · simp only [mem_cons, not_mem_nil, or_false, not_or]
    exact ⟨hne _ (by decide), hne _ (by decide), hne _ (by decide)⟩

theorem lexes_name_iff {ls : List Lexeme} (hn : IsName n) (hrest : ∀ c ∈ rest.head?, isNameRest c = false) :
    Lexes (n ++ rest) ls ↔ ∃ ls', Lexes rest ls' ∧ ls = .name n :: ls' := by
  have hread := readLexeme?_name hn hrest
  rcases n with _ | ⟨x, n⟩
  · exact absurd hn.1 (by decide)
  · exact lexes_read_iff (isBlank_eq_false_of_isNameStart hn.1) hread

theorem lexes_member_iff {ls : List Lexeme} (hn : n.head?.any isNameStart = true) :
    Lexes ('.' :: (n ++ rest)) ls ↔ ∃ ls', Lexes (n ++ rest) ls' ∧ ls = .symbol .dot :: ls' := by
  rcases n with _ | ⟨x, n⟩
  · exact absurd hn (by decide)
  have hx : isDecimal x = false := isDecimal_eq_false_of_isNameStart hn
  refine lexes_read_iff (by decide) ?_
  have hpoint : isDecimal '.' = false := by decide
  have hnumber : readNumber? ('.' :: (x :: n ++ rest)) = none := by
    rw [readNumber?_of_ne (by simp), readDecimal?, readMantissa?_of_point rfl]
    simp [hpoint, hx]
  rw [readLexeme?, hnumber]
  rfl

end Names

end NullSafe.Surface
