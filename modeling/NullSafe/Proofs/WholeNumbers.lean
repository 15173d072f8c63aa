import Mathlib.Data.Nat.Digits.Lemmas
import NullSafe.Proofs.Quoting
import NullSafe.Proofs.Reading

/-! # Reading whole numbers

A text is read as a whole number from the longest run of digits behind its blanks and its sign, in a base that a
hexadecimal mark may choose. The number read is the one that these digits denote, so reading undoes writing, with two
exceptions. From base thirty-four on the letter of a mark is a digit, and reading stops in front of it all the same.
In a base that is no power of two, a long run of digits is refused.
-/

namespace NullSafe

open List Number

namespace Text

theorem ofDigits_eq (base : Nat) (ds : List Nat) : ofDigits base ds = Nat.ofDigits base ds.reverse := by
  induction ds using List.reverseRecOn with
  | nil => rfl
  | append_singleton ds d ih =>
    rw [ofDigits_concat, ih, reverse_append, reverse_singleton, singleton_append, Nat.ofDigits_cons,
      Nat.mul_comm, Nat.add_comm]

theorem isAlphanum_of_alphaDigitValue? {c : Char} {d : Nat} (h : alphaDigitValue? c = some d) :
    c.isAlphanum = true := by
  unfold alphaDigitValue? at h
  split at h
  · rename_i hdigit
    exact Bool.or_eq_true_iff.2 (.inr hdigit)
  · refine Bool.or_eq_true_iff.2 (.inl (Bool.or_eq_true_iff.2 ?_))
    split at h
    · rename_i hlower
      exact .inr hlower
    · split at h
      · rename_i hupper
        exact .inl (decide_eq_true ((Bool.and_eq_true_iff.1 hupper).imp of_decide_eq_true of_decide_eq_true))
      · cases h

/-- The digits below a base that a text starts with, as many as there are. -/
def LeadingDigits (base : Nat) (cs : List Char) (ds : List Nat) : Prop :=
  ∃ front back, cs = front ++ back ∧ front.map alphaDigitValue? = ds.map some ∧ (∀ d ∈ ds, d < base) ∧
    ∀ c ∈ back.head?, ∀ d ∈ alphaDigitValue? c, base ≤ d

end Text

namespace Native

open Text

section Digits

variable {base d : Nat} {c : Char} {cs : List Char} {ds : List Nat}

theorem digitsBelow_cons (hc : alphaDigitValue? c = some d) (hd : d < base) (cs : List Char) :
    digitsBelow base (c :: cs) = d :: digitsBelow base cs := by
  simp [digitsBelow, hc, hd]

theorem digitsBelow_cons_of_le (h : ∀ d ∈ alphaDigitValue? c, base ≤ d) (cs : List Char) :
    digitsBelow base (c :: cs) = [] := by
  cases hc : alphaDigitValue? c with
  | none => simp [digitsBelow, hc]
  | some d => simp [digitsBelow, hc, h d hc]

theorem leadingDigits_digitsBelow (base : Nat) (cs : List Char) : LeadingDigits base cs (digitsBelow base cs) := by
  induction cs with
  | nil => exact ⟨[], [], rfl, rfl, by simp [digitsBelow], by simp⟩
  | cons c cs ih =>
    by_cases hc : ∀ d ∈ alphaDigitValue? c, base ≤ d
    · rw [digitsBelow_cons_of_le hc]
      exact ⟨[], c :: cs, rfl, rfl, by simp, by simpa using hc⟩
    · obtain ⟨d, hd, hlt⟩ : ∃ d, alphaDigitValue? c = some d ∧ d < base := by simpa using hc
      obtain ⟨front, back, rfl, hfront, hbelow, hback⟩ := ih
      rw [digitsBelow_cons hd hlt]
      exact ⟨c :: front, back, rfl, by simp [hd, hfront], by simpa using ⟨hlt, hbelow⟩, hback⟩

theorem digitsBelow_of_leadingDigits (h : LeadingDigits base cs ds) : digitsBelow base cs = ds := by
  obtain ⟨front, back, rfl, hfront, hbelow, hback⟩ := h
  induction front generalizing ds with
  | nil =>
    obtain rfl : ds = [] := by simpa using hfront
    cases back with
    | nil => rfl
    | cons c back => exact digitsBelow_cons_of_le (hback c rfl) back
  | cons c front ih =>
    cases ds with
    | nil => simp at hfront
    | cons d ds =>
      obtain ⟨hc, hfront⟩ : alphaDigitValue? c = some d ∧ front.map alphaDigitValue? = ds.map some := by
        simpa using hfront
      rw [cons_append, digitsBelow_cons hc (hbelow d (by simp)), ih hfront fun d hd => hbelow d (by simp [hd])]

/-- A digit is a letter or one of the ten decimal digits, so nothing is lost with what comes behind those. -/
theorem digitsBelow_takeWhile (base : Nat) (cs : List Char) :
    digitsBelow base (cs.takeWhile Char.isAlphanum) = digitsBelow base cs := by
  induction cs with
  | nil => rfl
  | cons c cs ih =>
    by_cases hc : ∀ d ∈ alphaDigitValue? c, base ≤ d
    · rw [digitsBelow_cons_of_le hc, takeWhile_cons]
      split
      · exact digitsBelow_cons_of_le hc _
      · rfl
    · obtain ⟨d, hd, hlt⟩ : ∃ d, alphaDigitValue? c = some d ∧ d < base := by simpa using hc
      rw [takeWhile_cons_of_pos (isAlphanum_of_alphaDigitValue? hd), digitsBelow_cons hd hlt, digitsBelow_cons hd hlt,
        ih]

end Digits

section Starts

variable {radix : Option Nat} {negative : Bool} {text cs rest digits : List Char} {base : Nat} {ds : List Nat}

/-- The base of an unsigned text and its digits with what follows them, given the base that was asked for. -/
def basedDigits (radix : Option Nat) (cs : List Char) : Nat × List Char :=
  match Surface.hexDigits? cs with
  | some digits => if radix.getD 16 = 16 then (16, digits) else (radix.getD 10, cs)
  | none => (radix.getD 10, cs)

/-- Whether an unsigned text starts with a hexadecimal mark whose letter is a digit of the base. -/
def marksDigit (radix : Option Nat) (cs : List Char) : Bool := (Surface.hexDigits? cs).isSome && 34 ≤ radix.getD 10

/-- The number that digits behind a sign denote; nothing when there are none. -/
def denoted? (negative : Bool) (base : Nat) (ds : List Nat) : Option Int :=
  if ds = [] then none
  else
    let n : Nat := Nat.ofDigits base ds.reverse
    some (if negative then -n else n)

theorem hexDigits?_eq_some (h : Surface.hexDigits? cs = some digits) :
    ∃ x, cs = '0' :: x :: digits ∧ alphaDigitValue? x = some 33 := by
  unfold Surface.hexDigits? at h
  split at h
  · split at h
    next x _ hx =>
      cases h
      obtain rfl | rfl : x = 'x' ∨ x = 'X' := by simpa using hx
      · exact ⟨'x', rfl, rfl⟩
      · exact ⟨'X', rfl, rfl⟩
    · cases h
  · cases h

variable (hsign : readSign (trimLeft text) = (negative, rest))

include hsign

theorem intStart_of_mark (h : Surface.hexDigits? rest = some digits) :
    intStart text = ⟨negative, true, digits.takeWhile Char.isAlphanum⟩ := by
  unfold Surface.hexDigits? at h
  unfold intStart
  rw [hsign]
  split at h
  · split at h
    next hx =>
      cases h
      exact if_pos hx
    · cases h
  · cases h

theorem intStart_of_no_mark
    (h : Surface.hexDigits? rest = none) : intStart text = ⟨negative, false, rest.takeWhile Char.isAlphanum⟩ := by
  unfold Surface.hexDigits? at h
  unfold intStart
  rw [hsign]
  split at h
  · split at h
    · cases h
    next hx => exact if_neg hx
  next hmark =>
    dsimp only
    split
    next x after => exact absurd rfl (hmark x after)
    · rfl

/-- What a text is converted from are its digits in the base that it has to be read in, but a mark is not read past in
another base. -/
theorem baseAndDigits_intStart (hradix : ∀ b ∈ radix, 2 ≤ b) :
    (baseAndDigits (intStart text) (radix.map Int.ofNat)).1 = (basedDigits radix rest).1 ∧
      digitsBelow (basedDigits radix rest).1 (baseAndDigits (intStart text) (radix.map Int.ofNat)).2 =
        if marksDigit radix rest then [0]
        else digitsBelow (basedDigits radix rest).1 (basedDigits radix rest).2 := by
  cases hmark : Surface.hexDigits? rest with
  | none =>
    rw [intStart_of_no_mark hsign hmark]
    cases radix <;> simp [baseAndDigits, basedDigits, marksDigit, hmark, digitsBelow_takeWhile]
  | some digits =>
    rw [intStart_of_mark hsign hmark]
    cases radix with
    | none => simp [baseAndDigits, basedDigits, marksDigit, hmark, digitsBelow_takeWhile]
    | some b =>
      by_cases hb : b = 16
      · simp [baseAndDigits, basedDigits, marksDigit, hmark, digitsBelow_takeWhile, hb]
      · obtain ⟨x, rfl, hx⟩ := hexDigits?_eq_some hmark
        have hzero : ∀ cs, digitsBelow b ('0' :: cs) = 0 :: digitsBelow b cs :=
          digitsBelow_cons rfl (Nat.lt_of_lt_of_le Nat.two_pos (hradix b rfl))
        have hstop : b < 34 → digitsBelow b (x :: digits) = [] := fun hlt =>
          digitsBelow_cons_of_le (by simp [hx]; omega) digits
        have hnil : digitsBelow b [] = [] := rfl
        have hb' : (b : Int) ≠ 16 := by omega
        by_cases hlt : b < 34
        · simp [baseAndDigits, basedDigits, marksDigit, hmark, hb, hb', hzero, hstop hlt, hnil, Nat.not_le.2 hlt]
        · simp [baseAndDigits, basedDigits, marksDigit, hmark, hb, hb', hzero, hnil, Nat.not_lt.1 hlt]

theorem negative_intStart : (intStart text).negative = negative := by
  cases hmark : Surface.hexDigits? rest with
  | none => rw [intStart_of_no_mark hsign hmark]
  | some digits => rw [intStart_of_mark hsign hmark]

omit hsign

theorem basedDigits_bounds (hradix : ∀ b ∈ radix, 2 ≤ b ∧ b ≤ 36) (cs : List Char) :
    2 ≤ (basedDigits radix cs).1 ∧ (basedDigits radix cs).1 ≤ 36 := by
  have hasked : 2 ≤ radix.getD 10 ∧ radix.getD 10 ≤ 36 := by
    cases radix with
    | none => decide
    | some b => exact hradix b rfl
  unfold basedDigits
  split
  · split
    · exact ⟨by omega, by omega⟩
    · exact hasked
  · exact hasked

theorem readInt_eq (hradix : ∀ b ∈ radix, 2 ≤ b ∧ b ≤ 36)
    (hsign : readSign (trimLeft text) = (negative, rest)) (hbase : basedDigits radix rest = (base, cs))
    (hds : (if marksDigit radix rest then [0] else digitsBelow base cs) = ds) :
    readInt text (radix.map Int.ofNat) =
      if unlimitedBase base = false ∧ maxDigits < ds.length then .error .invalidValue
      else .ok (denoted? negative base ds) := by
  obtain ⟨h₁, h₂⟩ := baseAndDigits_intStart hsign fun b hb => (hradix b hb).1
  have hbounds := basedDigits_bounds hradix rest
  rw [hbase] at h₁ h₂ hbounds
  rw [hds] at h₂
  have hrange : ((base : Int) < 2 || (base : Int) > 36) = false := by simp; omega
  unfold readInt
  simp only [h₁, hrange, Int.toNat_natCast, h₂, negative_intStart hsign, ofDigits_eq]
  cases ds with
  | nil => simp [denoted?]
  | cons d ds => simp [denoted?]

theorem denoted?_zero (negative : Bool) (base : Nat) : denoted? negative base [0] = some 0 := by
  cases negative <;> simp [denoted?]

theorem denoted?_ne_zero (h : 0 < Nat.ofDigits base ds.reverse) (negative : Bool) :
    denoted? negative base ds ≠ some 0 := by
  unfold denoted?
  split
  · exact nofun
  · cases negative <;> simp <;> omega

/-- Where the letter of a mark is a digit, more is denoted than the zero in front of it. -/
theorem ofDigits_pos_of_marksDigit (hmark : marksDigit radix rest = true)
    (hbase : basedDigits radix rest = (base, cs)) (hds : LeadingDigits base cs ds) :
    0 < Nat.ofDigits base ds.reverse := by
  obtain ⟨hsome, hle⟩ : (Surface.hexDigits? rest).isSome = true ∧ 34 ≤ radix.getD 10 := by
    simpa [marksDigit] using hmark
  obtain ⟨digits, hdigits⟩ := Option.isSome_iff_exists.1 hsome
  obtain ⟨x, rfl, hx⟩ := hexDigits?_eq_some hdigits
  obtain ⟨b, rfl⟩ : ∃ b, radix = some b := by
    cases radix with
    | none => exact absurd hle (by decide)
    | some b => exact ⟨b, rfl⟩
  have hb : b ≠ 16 := by rintro rfl; exact absurd hle (by decide)
  simp only [basedDigits, hdigits, Option.getD_some, if_neg hb, Prod.mk.injEq] at hbase hle
  obtain ⟨rfl, rfl⟩ := hbase
  obtain rfl : 0 :: 33 :: digitsBelow b digits = ds := by
    have hzero : alphaDigitValue? '0' = some 0 := rfl
    rw [← digitsBelow_of_leadingDigits hds, digitsBelow_cons hzero (by omega), digitsBelow_cons hx (by omega)]
  have hpow : 0 < b ^ (digitsBelow b digits).reverse.length := Nat.pow_pos (by omega)
  simp only [reverse_cons, Nat.ofDigits_append, Nat.ofDigits_singleton]
  omega

theorem readInt_eq_denoted_iff (hradix : ∀ b ∈ radix, 2 ≤ b ∧ b ≤ 36)
    (hsign : readSign (trimLeft text) = (negative, rest)) (hbase : basedDigits radix rest = (base, cs))
    (hds : LeadingDigits base cs ds) :
    readInt text (radix.map Int.ofNat) = .ok (denoted? negative base ds) ↔
      marksDigit radix rest = false ∧ (unlimitedBase base = true ∨ ds.length ≤ maxDigits) := by
  rw [readInt_eq hradix hsign hbase rfl, digitsBelow_of_leadingDigits hds]
  cases hmark : marksDigit radix rest with
  | true =>
    have hne := denoted?_ne_zero (ofDigits_pos_of_marksDigit hmark hbase hds) negative
    simp [maxDigits, denoted?_zero, hne.symm]
  | false =>
    cases unlimitedBase base <;> simp

end Starts

section Numerals

variable {b : Nat} {n : Int} {cs digits : List Char}

/-- The digits of a number, most significant first. -/
def digitsOf (b n : Nat) : List Nat := if n = 0 then [0] else (Nat.digits b n).reverse

/-- A text that is a whole number's numeral in a base, its letters in either case. -/
def IsNumeral (b : Nat) (n : Int) (cs : List Char) : Prop :=
  ∃ digits, cs = (if n < 0 then ['-'] else []) ++ digits ∧ digits.map alphaDigitValue? = (digitsOf b n.natAbs).map some

theorem ofDigits_digitsOf (b n : Nat) : Nat.ofDigits b (digitsOf b n).reverse = n := by
  unfold digitsOf
  split
  next h => simp [h]
  · rw [reverse_reverse, Nat.ofDigits_digits]

theorem lt_of_mem_digitsOf (hb : 2 ≤ b) {n d : Nat} (hd : d ∈ digitsOf b n) : d < b := by
  unfold digitsOf at hd
  split at hd
  · rw [mem_singleton.1 hd]
    omega
  · exact Nat.digits_lt_base hb (mem_reverse.1 hd)

theorem digitsOf_ne_zero_cons (b n d : Nat) (ds : List Nat) : digitsOf b n ≠ 0 :: d :: ds := by
  unfold digitsOf
  split
  · simp
  next hn =>
    intro h
    apply Nat.getLast_digit_ne_zero b hn
    rw [← head_reverse (h ▸ cons_ne_nil 0 _)]
    simp only [h, head_cons]

theorem digitsOf_ne_nil (b n : Nat) : digitsOf b n ≠ [] := by
  unfold digitsOf
  split
  · exact cons_ne_nil 0 []
  next hn => simpa using Nat.digits_ne_nil_iff_ne_zero.2 hn

theorem readSign_of_isNumeral (h : digits.map alphaDigitValue? = (digitsOf b n.natAbs).map some) :
    readSign (trimLeft ((if n < 0 then ['-'] else []) ++ digits)) = (decide (n < 0), digits) := by
  obtain ⟨c, rest, rfl⟩ : ∃ c rest, digits = c :: rest := by
    refine exists_cons_of_ne_nil ?_
    rintro rfl
    exact digitsOf_ne_nil b n.natAbs (map_eq_nil_iff.1 h.symm)
  obtain ⟨d, ds, hds⟩ := exists_cons_of_ne_nil (digitsOf_ne_nil b n.natAbs)
  rw [hds, map_cons, map_cons, List.cons.injEq] at h
  have hword := isAlphanum_of_alphaDigitValue? h.1
  have hblank : isBlank c = false := Surface.isBlank_eq_false_of_isNameRest (by simp [Surface.isNameRest, hword])
  have hminus : c ≠ '-' := by rintro rfl; cases hword
  have hplus : c ≠ '+' := by rintro rfl; cases hword
  by_cases hn : n < 0
  · simp [hn, trimLeft, show isBlank '-' = false by decide, readSign]
  · simp [hn, trimLeft, hblank, readSign, hminus, hplus]

theorem hexDigits?_of_isNumeral (h : digits.map alphaDigitValue? = (digitsOf b n.natAbs).map some) :
    Surface.hexDigits? digits = none := by
  by_contra hmark
  obtain ⟨after, hafter⟩ := Option.ne_none_iff_exists'.1 hmark
  obtain ⟨x, rfl, hx⟩ := hexDigits?_eq_some hafter
  have hzero : alphaDigitValue? '0' = some 0 := rfl
  rw [map_cons, map_cons, hzero, hx, eq_comm, map_eq_cons_iff] at h
  obtain ⟨_, _, hds, hd, h⟩ := h
  obtain ⟨_, _, rfl, -, -⟩ := map_eq_cons_iff.1 h
  cases hd
  exact digitsOf_ne_zero_cons b n.natAbs _ _ hds

theorem denoted?_digitsOf (b : Nat) (n : Int) : denoted? (n < 0) b (digitsOf b n.natAbs) = some n := by
  rw [denoted?, if_neg (digitsOf_ne_nil b n.natAbs), ofDigits_digitsOf]
  dsimp only
  split <;> simp only [decide_eq_true_eq, Option.some.injEq] at * <;> omega

theorem readInt_of_isNumeral_iff {radix : Option Nat} (hradix : ∀ b ∈ radix, 2 ≤ b ∧ b ≤ 36)
    (h : IsNumeral (radix.getD 10) n cs) :
    readInt cs (radix.map Int.ofNat) = .ok (some n) ↔
      unlimitedBase (radix.getD 10) = true ∨ (digitsOf (radix.getD 10) n.natAbs).length ≤ maxDigits := by
  obtain ⟨digits, rfl, hdigits⟩ := h
  have hmark := hexDigits?_of_isNumeral hdigits
  have hbase : basedDigits radix digits = (radix.getD 10, digits) := by simp [basedDigits, hmark]
  have hds : LeadingDigits (radix.getD 10) digits (digitsOf (radix.getD 10) n.natAbs) := by
    have hbounds := (basedDigits_bounds hradix digits).1
    rw [hbase] at hbounds
    exact ⟨digits, [], by simp, hdigits, fun d => lt_of_mem_digitsOf hbounds, by simp⟩
  have hread := readInt_eq_denoted_iff hradix (readSign_of_isNumeral hdigits) hbase hds
  rw [denoted?_digitsOf] at hread
  simpa [marksDigit, hmark] using hread

end Numerals

theorem numberValue_inj {m n : Option Int} : numberValue m = numberValue n ↔ m = n := by
  cases m <;> cases n <;> simp [numberValue, Value.missingNumber]

theorem outcome_parseInt {radix : Option Nat} (hradix : ∀ b ∈ radix, 2 ≤ b ∧ b ≤ 36) (s : String) (w : World) :
    (call .parseInt (.str s :: radix.toList.map fun b => .int b)).outcome w =
      ((readInt s.toList (radix.map Int.ofNat)).map numberValue, w) := by
  have hnumber : ∀ o : Except Raised (Option Int),
      (Run.ofExcept (fun _ => o) >>= fun n => pure (numberValue n)).outcome w = (o.map numberValue, w) := by
    intro o
    rw [Run.outcome_bind, Run.outcome_ofExcept]
    cases o <;> rfl
  cases radix with
  | none => exact hnumber (readInt s.toList none)
  | some b =>
    have htrue : w.isTrue (.int b) = true := by
      have := (hradix b rfl).1
      simp only [World.isTrue, bne_iff_ne]
      omega
    change (parseIntValue (.str s) (.int b)).outcome w = _
    unfold parseIntValue
    rw [Run.outcome_bind, Run.outcome_ofExcept]
    dsimp only [World.text]
    rw [Run.outcome_bind, Run.outcome_get]
    dsimp only
    rw [if_pos htrue]
    exact hnumber (readInt s.toList (some b))

theorem outcome_parseInt_eq_iff {radix : Option Nat} (hradix : ∀ b ∈ radix, 2 ≤ b ∧ b ≤ 36) (s : String) (w : World)
    (n : Option Int) :
    (call .parseInt (.str s :: radix.toList.map fun b => .int b)).outcome w = (.ok (numberValue n), w) ↔
      readInt s.toList (radix.map Int.ofNat) = .ok n := by
  rw [outcome_parseInt hradix, Prod.mk.injEq, and_iff_left rfl]
  cases readInt s.toList (radix.map Int.ofNat) with
  | error r => simp [Except.map]
  | ok m => simp [Except.map, numberValue_inj]

/-- A text is read as the number that its longest run of digits denotes, and a numeral as the number that it was
written for, unless the letter of a mark is a digit or the digits are too many for their base. -/
theorem parseInt_eq_denoted_iff (radix : Option Nat) (hradix : ∀ b ∈ radix, 2 ≤ b ∧ b ≤ 36) {s : String}
    {negative : Bool} {rest cs : List Char} {base : Nat}
    (hsign : Number.readSign (trimLeft s.toList) = (negative, rest)) (hbase : basedDigits radix rest = (base, cs))
    (w : World) :
    (∃ ds, LeadingDigits base cs ds) ∧
      (∀ ds, LeadingDigits base cs ds →
        ((call .parseInt (.str s :: radix.toList.map fun b => .int b)).outcome w =
            (.ok (numberValue (denoted? negative base ds)), w) ↔
          marksDigit radix rest = false ∧ (unlimitedBase base = true ∨ ds.length ≤ Number.maxDigits))) ∧
      ∀ n, IsNumeral (radix.getD 10) n s.toList →
        ((call .parseInt (.str s :: radix.toList.map fun b => .int b)).outcome w = (.ok (.int n), w) ↔
          unlimitedBase (radix.getD 10) = true ∨ (digitsOf (radix.getD 10) n.natAbs).length ≤ Number.maxDigits) := by
  refine ⟨⟨_, leadingDigits_digitsBelow base cs⟩, ?_, ?_⟩
  · intro ds hds
    rw [outcome_parseInt_eq_iff hradix]
    exact readInt_eq_denoted_iff hradix hsign hbase hds
  · intro n hn
    rw [← readInt_of_isNumeral_iff hradix hn]
    exact outcome_parseInt_eq_iff hradix s w (some n)

/-- A negative numeral behind a blank, with a letter in either case; a mark that chooses the base; and no digits. -/
theorem parseInt_numerals :
    (call .parseInt [.str " -zZ!1", .int 36]).outcome {} = (.ok (.int (-1295)), {}) ∧
      (call .parseInt [.str "-zZ", .int 36]).outcome {} = (.ok (.int (-1295)), {}) ∧
      (call .parseInt [.str "0xfg"]).outcome {} = (.ok (.int 15), {}) ∧
      (call .parseInt [.str "+z", .int 35]).outcome {} = (.ok .missingNumber, {}) := by
  refine ⟨?_, ?_, ?_, ?_⟩
  · refine ((parseInt_eq_denoted_iff (some 36) (by simp) rfl rfl {}).2.1 [35, 35] ?_).2 (by decide)
    exact leadingDigits_digitsBelow 36 "zZ!1".toList
  · refine ((parseInt_eq_denoted_iff (some 36) (by simp) rfl rfl {}).2.2 (-1295) ?_).2 (by decide)
    exact ⟨"zZ".toList, by decide, by decide⟩
  · refine ((parseInt_eq_denoted_iff none (by simp) rfl rfl {}).2.1 [15] ?_).2 (by decide)
    exact leadingDigits_digitsBelow 16 "fg".toList
  · refine ((parseInt_eq_denoted_iff (some 35) (by simp) rfl rfl {}).2.1 [] ?_).2 (by decide)
    exact leadingDigits_digitsBelow 35 "z".toList

/-- In base thirty-six a mark is made of digits, but only the first of them is read. -/
theorem parseInt_mark_of_digits :
    LeadingDigits 36 "0x1".toList [0, 33, 1] ∧ denoted? false 36 [0, 33, 1] = some 1189 ∧
      (call .parseInt [.str "0x1", .int 36]).outcome {} = (.ok (.int 0), {}) :=
  ⟨leadingDigits_digitsBelow 36 "0x1".toList, by decide, by rfl⟩

end Native

end NullSafe
