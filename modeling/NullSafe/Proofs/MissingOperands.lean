import NullSafe.Proofs.Reading

/-! # Operands that are no numbers

Arithmetic takes its operands as numbers. One that is missing, or a text that is no number, is the number that is none,
and so is the result, unless the other operand is too large for floating point or is a divisor that is zero. What is
neither a number nor a text keeps the meaning that it has by itself, and then the result is never the number that is
none.
-/

namespace NullSafe

open Run

section Zeros

open Float.Model Float.Model.UnpackedFloat

/-- The bits of a floating-point number are those of zero, its sign aside. -/
def IsZeroBits (b : BitVec Format.binary64.numBits) : Prop := unpackExponent b = 0#11 ∧ unpackMantissa b = 0#52

theorem toNat_mod_of_isZeroBits {b : BitVec 64} (h : IsZeroBits b) : b.toNat % Number.signBit = 0 := by
  have hexponent : b.toNat >>> 52 % 2 ^ 11 = 0 := by
    have := congrArg BitVec.toNat h.1
    simpa [unpackExponent, BitVec.extractLsb_toNat] using this
  have hmantissa : b.toNat % 2 ^ 52 = 0 := by
    have := congrArg BitVec.toNat h.2
    simpa [unpackMantissa, BitVec.extractLsb_toNat] using this
  rw [Nat.shiftRight_eq_div_pow] at hexponent
  unfold Number.signBit
  omega

theorem isZeroBits_of_unpack {b : BitVec Format.binary64.numBits} {s : Sign}
    (h : unpack Format.binary64 b = .zero s) : IsZeroBits b := by
  unfold UnpackedFloat.unpack at h
  dsimp only at h
  by_cases hones : unpackExponent b = -1#11
  · rw [if_pos hones] at h
    split at h <;> cases h
  · rw [if_neg hones] at h
    by_cases hexponent : unpackExponent b = 0#11
    · rw [if_pos hexponent] at h
      by_cases hmantissa : unpackMantissa b = 0#52
      · exact ⟨hexponent, hmantissa⟩
      · rw [dif_neg hmantissa] at h
        cases h
    · rw [if_neg hexponent] at h
      cases h

theorem log2_normal (m : BitVec 52) : (1#1 ++ m).toNat.log2 = 52 := by
  have hm : (1#1 ++ m).toNat = 2 ^ 52 + m.toNat := by
    rw [BitVec.toNat_append, ← Nat.shiftLeft_add_eq_or_of_lt m.isLt]
    rfl
  have hlt := m.isLt
  rw [Nat.log2_eq_iff (by omega)]
  omega

theorem exponentBias_eq : Format.binary64.exponentBias = 1023 := by decide

theorem unpackExponent_pack_normal (s : Sign) {e : BitVec 11} (he : e ≠ -1#11) (m : BitVec 52)
    (hpos : 0 < (1#1 ++ m).toNat) : unpackExponent (pack Format.binary64 (.finite s (1#1 ++ m).toNat ((e.toNat : Int) -
      (Format.binary64.exponentBias + Format.binary64.mantissaBitsWithoutImplicit)) hpos)) = e := by
  have hsmall : e.toNat + 1 < 2 ^ 11 := by
    have hlt := e.isLt
    have hne : e.toNat ≠ 2047 := fun h => he (BitVec.eq_of_toNat_eq h)
    omega
  have hbiased : ((e.toNat : Int) - (Format.binary64.exponentBias + Format.binary64.mantissaBitsWithoutImplicit) +
      Format.binary64.exponentBias + Format.binary64.mantissaBitsWithoutImplicit).toNat = e.toNat := by omega
  have hlog : (1#1 ++ m).toNat.log2 + 1 = Format.binary64.mantissaBits := congrArg (· + 1) (log2_normal m)
  delta UnpackedFloat.pack
  dsimp only
  rw [hbiased, if_neg (Nat.not_le.2 hsmall), if_pos hlog, unpackExponent_packComponents, BitVec.ofNat_toNat,
    BitVec.setWidth_eq]

theorem unpackMantissa_pack_subnormal (s : Sign) (m : BitVec 52) (hpos : 0 < m.toNat) {e : Int} (he : e = -1074) :
    unpackMantissa (pack Format.binary64 (.finite s m.toNat e hpos)) = m := by
  have hlog : m.toNat.log2 + 1 ≠ Format.binary64.mantissaBits := by
    have hlt : m.toNat.log2 < 52 := (Nat.log2_lt (by omega)).2 m.isLt
    change m.toNat.log2 + 1 ≠ 53
    omega
  have hbiased : (e + Format.binary64.exponentBias + Format.binary64.mantissaBitsWithoutImplicit).toNat = 1 := by
    rw [he, exponentBias_eq]
    rfl
  delta UnpackedFloat.pack
  dsimp only
  rw [hbiased, if_neg (by decide), if_neg hlog, unpackMantissa_packComponents, BitVec.ofNat_toNat, BitVec.setWidth_eq]

/-- Bits that are not those of zero are not packed into those of zero. -/
theorem not_isZeroBits_pack {b : BitVec Format.binary64.numBits} (h : ¬ IsZeroBits b) :
    ¬ IsZeroBits (pack Format.binary64 (unpack Format.binary64 b)) := by
  rintro ⟨hexponent, hmantissa⟩
  unfold UnpackedFloat.unpack at hexponent hmantissa
  dsimp only at hexponent hmantissa
  by_cases hones : unpackExponent b = -1#11
  · -- infinity, or no number
    rw [if_pos hones] at hexponent
    split at hexponent
    · delta UnpackedFloat.pack packedInfinity at hexponent
      simp at hexponent
    · delta UnpackedFloat.pack packedNaN at hexponent
      simp at hexponent
  · rw [if_neg hones] at hexponent hmantissa
    by_cases hzero : unpackExponent b = 0#11
    · rw [if_pos hzero] at hmantissa
      have hsome : unpackMantissa b ≠ 0#52 := fun hnone => h ⟨hzero, hnone⟩
      rw [dif_neg hsome, unpackMantissa_pack_subnormal _ _ _ (by rw [hzero, exponentBias_eq]; rfl)] at hmantissa
      exact hsome hmantissa
    · rw [if_neg hzero, unpackExponent_pack_normal _ hones] at hexponent
      exact hzero hexponent

theorem beq_zero_eq_false {f : UnpackedFloat} (h : ∀ s, f ≠ .zero s) (s : Sign) : f.beq (.zero s) = false := by
  cases f with
  | infinity s' => cases s' <;> rfl
  | notANumber => rfl
  | zero s' => exact absurd rfl (h s')
  | finite s' => cases s' <;> rfl

theorem ofBits_beq_zero {b : UInt64} (h : ¬ IsZeroBits b.toBitVec) : (Float.ofBits b == 0) = false :=
  beq_zero_eq_false (fun _ hs => not_isZeroBits_pack h (isZeroBits_of_unpack hs)) .positive

end Zeros

namespace Number

theorem div_le_roundDiv (n d : Nat) : n / d ≤ roundDiv n d := by
  unfold roundDiv
  dsimp only
  split <;> omega

/-- A number that is not zero has a mantissa at every exponent up to that of its first bit. -/
theorem roundDiv_pos {n : Nat} (hn : n ≠ 0) {e : Int} (he : e ≤ n.log2) :
    0 < roundDiv (if 0 ≤ e then (n, 1 <<< e.toNat) else (n <<< (-e).toNat, 1)).1
      (if 0 ≤ e then (n, 1 <<< e.toNat) else (n <<< (-e).toNat, 1)).2 := by
  refine Nat.lt_of_lt_of_le ?_ (div_le_roundDiv _ _)
  split
  · have hle : 2 ^ e.toNat ≤ n := (Nat.le_log2 hn).1 (by omega)
    rw [Nat.one_shiftLeft]
    exact Nat.div_pos hle (Nat.two_pow_pos _)
  · rw [Nat.div_one, Nat.shiftLeft_eq]
    exact Nat.mul_pos (Nat.pos_of_ne_zero hn) (Nat.two_pow_pos _)

theorem quotientBits_pos {n : Nat} (hn : n ≠ 0) : 0 < quotientBits n 1 := by
  unfold quotientBits
  rw [if_neg (by simpa using hn)]
  extract_lets start at_ exponent mantissa
  have hstart : start = n.log2 - 53 := by
    change max ((n.log2 : Int) - 0 - 53) (-1074) = _
    omega
  clear_value start
  have hexponent : exponent = start ∨ exponent = start + 1 := ite_eq_or_eq ..
  clear_value exponent
  split
  · exact roundDiv_pos hn (by omega)
  · refine Nat.lt_min.2 ⟨?_, by decide⟩
    have hfield : 0 < (exponent + 1075).toNat := by omega
    exact Nat.add_pos_left (Nat.mul_pos hfield (by decide)) _

theorem quotientBits_le (n d : Nat) : quotientBits n d ≤ infinityBits := by
  unfold quotientBits
  split
  · exact Nat.zero_le _
  · extract_lets start at_ exponent mantissa
    split
    · unfold infinityBits
      omega
    · exact Nat.min_le_right _ _

theorem signed_beq_zero {bits : Nat} (hpos : 0 < bits) (hle : bits ≤ infinityBits) (negative : Bool) :
    (signed negative bits == 0) = false := by
  refine ofBits_beq_zero fun hzero => ?_
  have hmod := toNat_mod_of_isZeroBits hzero
  change (if negative then signBit + bits else bits) % 2 ^ 64 % signBit = 0 at hmod
  unfold infinityBits exponentBit at hle
  unfold signBit at hmod
  split at hmod <;> omega

theorem ofInt?_beq_zero {i : Int} {x : Float} (h : ofInt? i = some x) : (x == 0) = decide (i = 0) := by
  by_cases hi : i = 0
  · subst hi
    cases h
    decide
  · have hbits : 0 < quotientBits i.natAbs 1 := quotientBits_pos (Int.natAbs_ne_zero.2 hi)
    unfold ofInt? at h
    dsimp only at h
    split at h <;> cases h
    rw [signed_beq_zero hbits (quotientBits_le _ _), decide_eq_false hi]

/-- Whether a number is small enough for floating point. -/
def fits : Number → Bool
  | int i => (ofInt? i).isSome
  | _ => true

variable {m n : Number}

theorem toFloat_of_fits (h : n.fits = true) : ∃ x, n.toFloat = .ok x ∧ (x == 0) = !n.isTrue := by
  cases n with
  | int i =>
    obtain ⟨x, hx⟩ := Option.isSome_iff_exists.1 h
    refine ⟨x, by rw [toFloat, hx], ?_⟩
    rw [ofInt?_beq_zero hx]
    by_cases hi : i = 0 <;> simp [isTrue, hi]
  | float x => exact ⟨x, rfl, by simp [isTrue]⟩
  | nan => exact ⟨notANumber, rfl, by decide⟩

theorem toFloat_of_not_fits (h : n.fits = false) : n.toFloat = .error .overflow := by
  cases n with
  | int i =>
    rw [toFloat, Option.isSome_eq_false_iff.1 h |> Option.isNone_iff_eq_none.1]
  | float x => cases h
  | nan => cases h

/-- An operation in floating point gives the number that is none for it, if both operands are small enough. -/
theorem floating_eq_nan_iff (f : Float → Float → Float) (h : m = nan ∨ n = nan) :
    floating f m n = .ok nan ↔ m.fits = true ∧ n.fits = true := by
  unfold floating
  cases hm : m.fits with
  | false => simp [toFloat_of_not_fits hm, bind, Except.bind]
  | true =>
    cases hn : n.fits with
    | false =>
      obtain ⟨x, hx, -⟩ := toFloat_of_fits hm
      simp [hx, toFloat_of_not_fits hn, bind, Except.bind]
    | true =>
      obtain ⟨x, hx, -⟩ := toFloat_of_fits hm
      obtain ⟨y, hy, -⟩ := toFloat_of_fits hn
      have hnan : (m.isNan || n.isNan) = true := by
        rcases h with rfl | rfl
        · rfl
        · exact Bool.or_true _
      simp [hx, hy, hnan, bind, Except.bind, pure, Except.pure]

/-- An operation in floating point that is refused for a divisor that is zero. -/
def dividing (f : Float → Float → Float) (a b : Number) : Except Fault Number := do
  let _ ← a.toFloat
  let y ← b.toFloat
  if y == 0 then throw .divisionByZero
  floating f a b

theorem dividing_eq_nan_iff (f : Float → Float → Float) (h : m = nan ∨ n = nan) :
    dividing f m n = .ok nan ↔ m.fits = true ∧ n.fits = true ∧ n.isTrue = true := by
  have hfloating := floating_eq_nan_iff f h
  unfold dividing
  cases hm : m.fits with
  | false => simp [toFloat_of_not_fits hm, bind, Except.bind]
  | true =>
    obtain ⟨x, hx, -⟩ := toFloat_of_fits hm
    cases hn : n.fits with
    | false => simp [hx, toFloat_of_not_fits hn, bind, Except.bind]
    | true =>
      obtain ⟨y, hy, hzero⟩ := toFloat_of_fits hn
      rw [hm, hn] at hfloating
      rw [hx, hy]
      change (if (y == 0) = true then throw Fault.divisionByZero else floating f m n) = .ok nan ↔ _
      rw [hzero]
      cases hn' : n.isTrue
      · exact iff_of_false nofun nofun
      · rw [if_neg (by decide), hfloating]
        simp

end Number

/-- The operations of arithmetic, and what each of them is for numbers. -/
def Operation.onNumbers? : Operation → Option (Number → Number → Except Number.Fault Number)
  | .subtract => some Number.sub
  | .multiply => some Number.mul
  | .divide => some Number.div
  | .remainder => some Number.mod
  | _ => none

def Operation.divides (op : Operation) : Bool := op = .divide || op = .remainder

/-- The number that is none stays, unless the other number is too large or is a divisor that is zero. -/
theorem Operation.onNumbers_eq_nan_iff {op : Operation} {f : Number → Number → Except Number.Fault Number}
    (hop : op.onNumbers? = some f) {m n : Number} (h : m = .nan ∨ n = .nan) : f m n = .ok .nan ↔
      m.fits = true ∧ n.fits = true ∧ (op.divides = true → n.isTrue = true) := by
  have hmixed : ∀ {g k : Number → Number → Except Number.Fault Number},
      (∀ a, g .nan a = k .nan a) → (∀ a, g a .nan = k a .nan) → g m n = k m n := by
    intro g k hleft hright
    rcases h with rfl | rfl
    · exact hleft n
    · exact hright m
  cases op with
  | subtract =>
    cases hop
    have hfloat : m.sub n = Number.floating (· - ·) m n := hmixed (fun _ => rfl) fun a => by cases a <;> rfl
    rw [hfloat, Number.floating_eq_nan_iff _ h]
    simp [divides]
  | multiply =>
    cases hop
    have hfloat : m.mul n = Number.floating (· * ·) m n := hmixed (fun _ => rfl) fun a => by cases a <;> rfl
    rw [hfloat, Number.floating_eq_nan_iff _ h]
    simp [divides]
  | divide =>
    cases hop
    have hfloat : m.div n = Number.dividing (· / ·) m n := hmixed (fun _ => rfl) fun a => by cases a <;> rfl
    rw [hfloat, Number.dividing_eq_nan_iff _ h]
    simp [divides]
  | remainder =>
    cases hop
    have hfloat : m.mod n = Number.dividing Number.floatRemainder m n := hmixed (fun _ => rfl)
      fun a => by cases a <;> rfl
    rw [hfloat, Number.dividing_eq_nan_iff _ h]
    simp [divides]
  | _ => cases hop

section Operands

/-- The number that a text is taken for. -/
def textNumber (s : String) : Number :=
  if (Text.trim s.toList).isEmpty then .int 0
  else ((Number.readFloat? (Text.trim s.toList)).map Number.ofFloat).getD .nan

/-- The number that an operand is taken for, if it is missing, a truth value, a number or a text. -/
def Value.operand? : Value → Option Number
  | .null => some .nan
  | .str s => some (textNumber s)
  | v => v.number?

/-- Whether a value is a number, a truth value, or a text that is blank or can be read as a number. -/
def Value.isNumeric : Value → Bool
  | .bool _ | .int _ | .float _ | .nan _ => true
  | .str s => (Text.trim s.toList).isEmpty || (Number.readFloat? (Text.trim s.toList)).isSome
  | _ => false

theorem Value.operand?_of_not_numeric {v : Value} {n : Number} (h : v.isNumeric = false) (hn : v.operand? = some n) :
    n = .nan := by
  cases v with
  | null => exact (Option.some.inj hn).symm
  | str s =>
    rw [isNumeric, Bool.or_eq_false_iff, Option.isSome_eq_false_iff, Option.isNone_iff_eq_none] at h
    rw [← Option.some.inj hn, textNumber, h.1, if_neg Bool.false_ne_true, h.2]
    rfl
  | bool | int | float | nan => cases h
  | _ => cases hn

variable {w : World} {l r v : Value}

theorem Run.outcome_ofFloat (x : Float) (w : World) : ∃ v k,
    (Run.ofFloat x).outcome w = (.ok v, { w with marks := k }) ∧ v.number? = some (Number.ofFloat x) := by
  unfold Run.ofFloat Number.ofFloat
  split
  · exact ⟨_, _, rfl, rfl⟩
  · exact ⟨_, _, rfl, rfl⟩

/-- An operand is taken for its number, and stays if it has none. -/
theorem Run.outcome_toNumber (v : Value) (w : World) : ∃ v' k, (toNumber v).outcome w =
    (.ok v', { w with marks := k }) ∧ v'.number? = v.operand? ∧ (v.operand? = none → v' = v) := by
  cases v with
  | str s =>
    unfold toNumber Value.operand? textNumber
    dsimp only
    split
    · exact ⟨_, _, rfl, rfl, nofun⟩
    · rcases Number.readFloat? (Text.trim s.toList) with _ | x
      · exact ⟨_, _, rfl, rfl, nofun⟩
      · obtain ⟨v', k, hv', hnumber⟩ := outcome_ofFloat x w
        exact ⟨v', k, hv', hnumber, nofun⟩
  | null | bool | int | float | nan => exact ⟨_, _, rfl, rfl, nofun⟩
  | _ => exact ⟨_, _, rfl, rfl, fun _ => rfl⟩

theorem Run.outcome_operands (l r : Value) (w : World) : ∃ l' r' k, (operands l r).outcome w =
    (.ok (l', r'), { w with marks := k }) ∧ (l'.number? = l.operand? ∧ (l.operand? = none → l' = l)) ∧
      r'.number? = r.operand? ∧ (r.operand? = none → r' = r) := by
  obtain ⟨l', k, hl, hl'⟩ := outcome_toNumber l w
  obtain ⟨r', k', hr, hr'⟩ := outcome_toNumber r { w with marks := k }
  refine ⟨l', r', k', ?_, hl', hr'⟩
  unfold operands
  rw [outcome_bind, hl]
  dsimp only
  rw [outcome_bind, hr]
  rfl

/-- A run ends with the number that is none. -/
def Run.GivesNaN (x : Run Value) (w : World) : Prop := ∃ mark w', x.outcome w = (.ok (.nan mark), w')

theorem Run.givesNaN_ofArithmetic_iff {e : Except Number.Fault Number} :
    (ofArithmetic e).GivesNaN w ↔ e = .ok .nan := by
  constructor
  · rintro ⟨mark, w', h⟩
    rcases e with (_ | _) | (i | x | _)
    · cases h
    · cases h
    · cases h
    · cases h
    · rfl
  · rintro rfl
    have hnan : Number.notANumber.isNaN = true := by decide
    refine ⟨w.marks, { w with marks := w.marks + 1 }, ?_⟩
    unfold ofArithmetic ofNumber Run.ofFloat
    dsimp only
    rw [hnan]
    rfl

theorem Run.givesNaN_numeric_iff {f : Number → Number → Except Number.Fault Number} :
    (numeric f l r).GivesNaN w ↔ ∃ m n, l.number? = some m ∧ r.number? = some n ∧ f m n = .ok .nan := by
  unfold numeric
  rcases l.number? with _ | m
  · exact iff_of_false (by rintro ⟨_, _, ⟨⟩⟩) (by rintro ⟨_, _, ⟨⟩, _⟩)
  · rcases r.number? with _ | n
    · exact iff_of_false (by rintro ⟨_, _, ⟨⟩⟩) (by rintro ⟨_, _, _, ⟨⟩, _⟩)
    · rw [givesNaN_ofArithmetic_iff]
      constructor
      · exact fun h => ⟨m, n, rfl, rfl, h⟩
      · rintro ⟨_, _, ⟨⟩, ⟨⟩, h⟩
        exact h

theorem Run.not_givesNaN_repeatValue (v : Value) (times : Int) (w : World) : ¬ (repeatValue v times).GivesNaN w := by
  rintro ⟨mark, w', h⟩
  cases v with
  | list | tuple | bytes =>
    unfold repeatValue at h
    dsimp only at h
    rw [outcome_bind, outcome_ofExcept] at h
    split at h <;> cases h
  | _ => cases h

theorem Run.not_givesNaN_fillBytes (bs : List UInt8) (v : Value) (w : World) : ¬ (fillBytes bs v).GivesNaN w := by
  rintro ⟨mark, w', h⟩
  unfold fillBytes at h
  rw [outcome_bind, outcome_ofExcept] at h
  split at h <;> cases h

theorem Run.givesNaN_bind {α : Type} {x : Run α} {a : α} {w₁ : World} (h : x.outcome w = (.ok a, w₁))
    (k : α → Run Value) : (x >>= k).GivesNaN w ↔ (k a).GivesNaN w₁ := by
  unfold GivesNaN
  rw [outcome_bind, h]

/-- Arithmetic gives the number that is none exactly if both operands are taken for numbers for which it does. -/
theorem Operation.givesNaN_run_iff {op : Operation} {f : Number → Number → Except Number.Fault Number}
    (hop : op.onNumbers? = some f) : (op.run [l, r]).GivesNaN w ↔
      ∃ m n, l.operand? = some m ∧ r.operand? = some n ∧ f m n = .ok .nan := by
  obtain ⟨l', r', k, hoperands, ⟨hl, hl'⟩, hr, -⟩ := outcome_operands l r w
  rw [← hl, ← hr]
  cases op with
  | subtract | divide =>
    cases hop
    exact (givesNaN_bind hoperands _).trans givesNaN_numeric_iff
  | multiply =>
    cases hop
    refine (givesNaN_bind hoperands _).trans ?_
    dsimp only
    rcases l'.number? with _ | m <;> rcases r'.number? with _ | n
    · exact iff_of_false (by rintro ⟨_, _, ⟨⟩⟩) (by rintro ⟨_, _, ⟨⟩, _⟩)
    · refine iff_of_false ?_ (by rintro ⟨_, _, ⟨⟩, _⟩)
      cases n with
      | int i => exact not_givesNaN_repeatValue l' i _
      | _ => rintro ⟨_, _, ⟨⟩⟩
    · refine iff_of_false ?_ (by rintro ⟨_, _, _, ⟨⟩, _⟩)
      cases m with
      | int i => exact not_givesNaN_repeatValue r' i _
      | _ => rintro ⟨_, _, ⟨⟩⟩
    · dsimp only
      rw [givesNaN_ofArithmetic_iff]
      simp
  | remainder =>
    cases hop
    refine (givesNaN_bind hoperands _).trans ?_
    dsimp only
    split
    · exact iff_of_false (not_givesNaN_fillBytes _ _ _) (by rintro ⟨_, _, ⟨⟩, _⟩)
    · exact givesNaN_numeric_iff
  | _ => cases hop

/-- If an operand is no number, nor a text that can be read as one, arithmetic gives the number that is none exactly if
both operands are missing, truth values, numbers or texts, both are small enough for floating point, and no divisor is
zero. -/
theorem Operation.givesNaN_iff_of_not_numeric {op : Operation}
    (hop : op ∈ [Operation.subtract, .multiply, .divide, .remainder])
    (h : l.isNumeric = false ∨ r.isNumeric = false) (w : World) : (op.run [l, r]).GivesNaN w ↔
      ∃ m n, l.operand? = some m ∧ r.operand? = some n ∧ m.fits = true ∧ n.fits = true ∧
        (op.divides = true → n.isTrue = true) := by
  obtain ⟨f, hf⟩ : ∃ f, op.onNumbers? = some f := by
    simp only [List.mem_cons, List.not_mem_nil, or_false] at hop
    rcases hop with rfl | rfl | rfl | rfl <;> exact ⟨_, rfl⟩
  rw [Operation.givesNaN_run_iff hf]
  have hnan : ∀ {m n}, l.operand? = some m → r.operand? = some n → m = .nan ∨ n = .nan := fun hm hn =>
    h.imp (Value.operand?_of_not_numeric · hm) (Value.operand?_of_not_numeric · hn)
  constructor
  · rintro ⟨m, n, hm, hn, hresult⟩
    exact ⟨m, n, hm, hn, (Operation.onNumbers_eq_nan_iff hf (hnan hm hn)).1 hresult⟩
  · rintro ⟨m, n, hm, hn, hcondition⟩
    exact ⟨m, n, hm, hn, (Operation.onNumbers_eq_nan_iff hf (hnan hm hn)).2 hcondition⟩

/-- A missing value divided by a text that is no number. -/
theorem Operation.givesNaN_missing : (Operation.divide.run [.null, .str "x"]).GivesNaN {} :=
  (Operation.givesNaN_iff_of_not_numeric (by decide) (.inl rfl) {}).2
    ⟨.nan, .nan, rfl, by decide +kernel, rfl, rfl, fun _ => rfl⟩

/-- A missing value divided by zero is refused. -/
theorem Operation.not_givesNaN_zero : (Operation.divide.run [.null, .int 0]).outcome {} = (.error .divisionByZero, {}) ∧
    ¬ (Operation.divide.run [.null, .int 0]).GivesNaN {} := by
  have hraises : (Operation.divide.run [.null, .int 0]).outcome {} = (.error .divisionByZero, {}) := by rfl
  refine ⟨hraises, ?_⟩
  rintro ⟨mark, w', h⟩
  rw [hraises] at h
  cases h

end Operands

end NullSafe
