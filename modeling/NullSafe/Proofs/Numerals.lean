import NullSafe.Proofs.Parameters
import NullSafe.Proofs.Placeholders

/-! # Numerals of the generated code

Whatever form a numeral of an expression has, the code spells it as a decimal numeral. The numbers of a tree are the
numerals of the text it was read from.
-/

namespace NullSafe

open Surface Text List

section Decimal

inductive IsMantissa : List Char → Prop where
  | whole {w} (hne : w ≠ []) (hw : ∀ c ∈ w, isDecimal c = true) : IsMantissa w
  | point {w f} (hw : ∀ c ∈ w, isDecimal c = true) (hf : ∀ c ∈ f, isDecimal c = true) (hne : ¬ (w = [] ∧ f = [])) :
      IsMantissa (w ++ '.' :: f)

inductive IsExponent : List Char → Prop where
  | nil : IsExponent []
  | digits {letter sign ds} (hletter : letter = 'e' ∨ letter = 'E') (hsign : sign = [] ∨ sign = ['+'] ∨ sign = ['-'])
      (hne : ds ≠ []) (hds : ∀ c ∈ ds, isDecimal c = true) : IsExponent (letter :: (sign ++ ds))

def IsNumeral (cs : List Char) : Prop := ∃ m e, cs = m ++ e ∧ IsMantissa m ∧ IsExponent e

variable {cs m e r : List Char}

theorem isMantissa_of_readMantissa (h : readMantissa? cs = some (m, r)) : IsMantissa m := by
  have hdigits : ∀ cs : List Char, ∀ c ∈ cs.takeWhile isDecimal, isDecimal c = true := fun cs c hc =>
    mem_takeWhile_imp hc
  unfold readMantissa? at h
  dsimp only at h
  split at h
  · split at h
    · cases h
    · rename_i hne
      cases h
      refine .point (hdigits _) (hdigits _) fun hnil => hne ?_
      simp [hnil.1, hnil.2]
  · split at h
    · cases h
    · rename_i hne
      cases h
      exact .whole (by simpa using hne) (hdigits _)

theorem IsMantissa.read (h : IsMantissa m) (he : ∀ c ∈ e.head?, isDecimal c = false ∧ c ≠ '.') :
    readMantissa? (m ++ e) = some (m, e) := by
  have hend : ∀ c ∈ e.head?, isDecimal c = false := fun c hc => (he c hc).1
  cases h with
  | whole hne hw =>
    obtain ⟨htake, hdrop⟩ := span_append hw hend
    rw [readMantissa?_of_no_point, htake, hdrop, if_neg (by simpa using hne)]
    rw [hdrop]
    exact fun hpoint => (he '.' hpoint).2 rfl
  | @point w f hw hf hne =>
    have hpoint : ∀ c ∈ ('.' :: (f ++ e)).head?, isDecimal c = false := by
      rintro c ⟨⟩
      decide
    obtain ⟨htake, hdrop⟩ := span_append hw hpoint
    obtain ⟨htake', hdrop'⟩ := span_append hf hend
    rw [append_assoc, cons_append, readMantissa?_of_point hdrop, htake, htake', hdrop', if_neg]
    simpa using hne

theorem isExponent_readExponent (cs : List Char) : IsExponent (readExponent cs).1 := by
  unfold readExponent
  split
  · rename_i letter rest
    split
    · rename_i hletter
      dsimp only
      split
      · exact .nil
      · rename_i hne
        refine .digits (by simpa using hletter) ?_ (by simpa using hne) fun c hc => mem_takeWhile_imp hc
        rcases rest with _ | ⟨c, rest⟩
        · exact .inl rfl
        · by_cases hc : c = '+' ∨ c = '-'
          · rcases hc with rfl | rfl <;> simp
          · simp only [not_or] at hc
            simp [hc.1, hc.2]
    · exact .nil
  · exact .nil

theorem IsExponent.read (h : IsExponent e) : readExponent e = (e, []) := by
  cases h with
  | nil => rfl
  | @digits letter sign ds hletter hsign hne hds =>
    have hspan : ds.takeWhile isDecimal = ds ∧ ds.dropWhile isDecimal = [] :=
      ⟨takeWhile_eq_self_iff.2 hds, dropWhile_eq_nil_iff.2 hds⟩
    have hfirst : (ds.take 1).filter (fun c => decide (c = '+') || decide (c = '-')) = [] := by
      rcases ds with _ | ⟨d, ds⟩
      · rfl
      · have hd := hds d (.head _)
        have hplus : d ≠ '+' := by rintro rfl; exact absurd hd (by decide)
        have hminus : d ≠ '-' := by rintro rfl; exact absurd hd (by decide)
        simp [hplus, hminus]
    have hempty : ds.isEmpty = false := by simpa using hne
    have hletter' : (decide (letter = 'e') || decide (letter = 'E')) = true := by simpa using hletter
    rcases hsign with rfl | rfl | rfl
    · simp [readExponent, hletter', hfirst, hspan, hempty]
    · simp [readExponent, hletter', hspan, hempty]
    · simp [readExponent, hletter', hspan, hempty]

theorem IsExponent.head (h : IsExponent e) : ∀ c ∈ e.head?, isDecimal c = false ∧ c ≠ '.' := by
  cases h with
  | nil => nofun
  | digits hletter =>
    rintro c ⟨⟩
    rcases hletter with rfl | rfl <;> decide

theorem isNumeral_of_readDecimal (h : readDecimal? cs = some (m, r)) : IsNumeral m := by
  obtain ⟨⟨m', rest⟩, hm, he⟩ := Option.map_eq_some_iff.1 h
  cases he
  exact ⟨m', _, rfl, isMantissa_of_readMantissa hm, isExponent_readExponent rest⟩

theorem IsNumeral.chars (h : IsNumeral cs) : ∀ c ∈ cs, isDecimal c = true ∨ c ∈ ['.', 'e', 'E', '+', '-'] := by
  obtain ⟨m, e, rfl, hm, he⟩ := h
  refine forall_mem_append.2 ⟨?_, ?_⟩
  · cases hm with
    | whole _ hw => exact fun c hc => .inl (hw c hc)
    | point hw hf =>
      refine forall_mem_append.2 ⟨fun c hc => .inl (hw c hc), forall_mem_cons.2 ⟨.inr (by simp), ?_⟩⟩
      exact fun c hc => .inl (hf c hc)
  · cases he with
    | nil => nofun
    | digits hletter hsign _ hds =>
      refine forall_mem_cons.2 ⟨.inr ?_, forall_mem_append.2 ⟨fun c hc => .inr ?_, fun c hc => .inl (hds c hc)⟩⟩
      · rcases hletter with rfl | rfl <;> simp
      · rcases hsign with rfl | rfl | rfl <;> simp_all

theorem IsNumeral.read (h : IsNumeral cs) : readNumber? cs = some (cs, []) := by
  have hdecimal : readDecimal? cs = some (cs, []) := by
    obtain ⟨m, e, rfl, hm, he⟩ := h
    simp only [readDecimal?, hm.read he.head, Option.map_some, he.read]
  unfold readNumber?
  split
  · rename_i x rest
    have hx : (decide (x = 'x') || decide (x = 'X')) = false := by
      have hletters : ∀ y ∈ ['x', 'X'], ¬ (isDecimal y = true ∨ y ∈ ['.', 'e', 'E', '+', '-']) := by decide
      have hne : ∀ y ∈ ['x', 'X'], x ≠ y := by
        rintro y hy rfl
        exact hletters _ hy (h.chars _ (.tail _ (.head _)))
      simp [hne 'x' (by simp), hne 'X' (by simp)]
    simp only [hx, Bool.false_and, Bool.false_eq_true, if_false, hdecimal]
  · exact hdecimal

theorem isNumeral_of_decimal (hne : cs ≠ []) (h : ∀ c ∈ cs, isDecimal c = true) : IsNumeral cs :=
  ⟨cs, [], (append_nil cs).symm, .whole hne h, .nil⟩

theorem isNumeral_toString (n : Nat) : IsNumeral (toString n).toList := by
  rw [Name.toList_toString]
  refine isNumeral_of_decimal Nat.toDigits_ne_nil fun c hc => ?_
  exact Name.isDecimal_of_isDigit (Nat.isDigit_of_mem_toDigits (by decide) (by decide) hc)

theorem IsNumeral.concat_zero (h : IsNumeral cs) (hlast : cs.getLast? = some '.') : IsNumeral (cs ++ ['0']) := by
  have hend : ∀ {ds : List Char}, (∀ c ∈ ds, isDecimal c = true) → ds.getLast? ≠ some '.' := by
    intro ds hds hpoint
    exact absurd (hds _ (mem_of_getLast? hpoint)) (by decide)
  obtain ⟨m, e, rfl, hm, he⟩ := h
  cases he with
  | digits _ _ hne hds =>
    obtain ⟨d, hd⟩ := Option.ne_none_iff_exists'.1 (mt getLast?_eq_none_iff.1 hne)
    rw [getLast?_append, getLast?_cons, getLast?_append, hd] at hlast
    exact absurd (hd.trans hlast) (hend hds)
  | nil =>
    rw [append_nil] at hlast ⊢
    cases hm with
    | whole _ hw => exact absurd hlast (hend hw)
    | @point w f hw hf hne =>
      rcases hf' : f.getLast? with _ | d
      · rw [getLast?_eq_none_iff.1 hf', append_assoc]
        refine ⟨_, [], (append_nil _).symm, .point hw ?_ nofun, .nil⟩
        exact forall_mem_singleton.2 (by decide)
      · rw [getLast?_append, getLast?_cons, hf'] at hlast
        exact absurd (hf'.trans hlast) (hend hf)

theorem isNumeral_numeralText {text : List Char} (h : readNumber? text = some (cs, r)) :
    IsNumeral (numeralText cs).toList := by
  have hdecimal : hexDigits? cs = none → IsNumeral cs := by
    intro hhex
    unfold readNumber? at h
    split at h
    · dsimp only at h
      split at h
      · rename_i hx
        cases h
        simp only [Bool.and_eq_true] at hx
        rw [hexDigits?, if_pos hx.1] at hhex
        cases hhex
      · exact isNumeral_of_readDecimal h
    · exact isNumeral_of_readDecimal h
  unfold numeralText
  split
  · exact isNumeral_toString _
  · rename_i hhex
    split
    · exact isNumeral_toString _
    · split <;> rw [String.toList_ofList]
      · exact (hdecimal hhex).concat_zero ‹_›
      · exact hdecimal hhex

end Decimal

namespace Surface.Expr

mutual

def numbers {ι : Type} : Expr ι → List String
  | .number s => [s]
  | .literal _ | .constant _ | .this | .name _ => []
  | .array items => numbersAll items
  | .object entries => numbersEntries entries
  | .member target _ => numbers target
  | .index target key => numbers target ++ numbers key
  | .call callee arguments => numbers callee ++ numbersAll arguments
  | .unary _ operand => numbers operand
  | .binary _ left right | .logical _ left right => numbers left ++ numbers right
  | .conditional test yes no => numbers test ++ (numbers yes ++ numbers no)
  | .assign target value => numbers target ++ numbers value

def numbersAll {ι : Type} : List (Expr ι) → List String
  | [] => []
  | t :: rest => numbers t ++ numbersAll rest

def numbersEntries {ι : Type} : List (Key ι × Expr ι) → List String
  | [] => []
  | (_, t) :: rest => numbers t ++ numbersEntries rest

end

end Surface.Expr

section Parsing

variable {p : String → Prop}

/-- The spelling of a token that is a numeral has a property. -/
def Surface.Lexeme.Counts (p : String → Prop) (l : Lexeme) : Prop := ∀ cs, l = .number cs → p (numeralText cs)

/-- The numbers of what a derivation means have a property. -/
def Surface.Category.Counts (p : String → Prop) : (c : Category) → c.Meaning → Prop
  | assign, t | conditional, t | operation _, t | unary, t | primary, t => ∀ s ∈ Expr.numbers t, p s
  | joins _, f | links, f => ∀ t : Expr Placeholder, (∀ s ∈ t.numbers, p s) → ∀ s ∈ (f t).numbers, p s
  | items, ts => ∀ s ∈ Expr.numbersAll ts, p s
  | properties, es => ∀ s ∈ Expr.numbersEntries es, p s
  | property, e => ∀ s ∈ e.2.numbers, p s

theorem Surface.Parser.numbers_nameTree (cs : List Char) : (Parser.nameTree cs).numbers = [] := by
  unfold Parser.nameTree
  dsimp only
  repeat' split
  all_goals rfl

/-- The numbers of a tree are spelled as the numerals that it was read from. -/
theorem Surface.Derivation.counts {c : Category} (d : Derivation c) (h : ∀ l ∈ d.yield, l.Counts p) :
    c.Counts p d.meaning := by
  induction d <;> simp only [yield, forall_mem_append, forall_mem_cons] at h
  case unassigned ih | unconditional ih | operand ih => exact ih h
  case assign iht ihv => exact forall_mem_append.2 ⟨iht h.1, ihv h.2.2⟩
  case conditional iht ihy ihn =>
    exact forall_mem_append.2 ⟨iht h.1, forall_mem_append.2 ⟨ihy h.2.2.1, ihn h.2.2.2.2⟩⟩
  case operation ihf ihr => exact ihr h.2 _ (ihf h.1)
  case joined | linked => exact fun _ ht => ht
  case join op _ right _ ihr ihj =>
    intro t ht
    refine ihj h.2.2 _ ?_
    cases op <;> exact forall_mem_append.2 ⟨ht, ihr h.2.1⟩
  case unary ih => exact ih h.2
  case chain ihr ihl => exact ihl h.2 _ (ihr h.1)
  case member ih => exact fun t ht => ih h.2.2 _ ht
  case index ihk ihl => exact fun t ht => ihl h.2.2.2 _ (forall_mem_append.2 ⟨ht, ihk h.2.1⟩)
  case call iha ihl => exact fun t ht => ihl h.2.2.2 _ (forall_mem_append.2 ⟨ht, iha h.2.1⟩)
  case number digits => exact forall_mem_singleton.2 (h.1 digits rfl)
  case literal | noItem | noProperty | shorthand => nofun
  case name cs _ =>
    change ∀ s ∈ (Parser.nameTree cs).numbers, p s
    rw [Parser.numbers_nameTree]
    nofun
  case group ih | array ih | object ih => exact ih h.2.1
  case lastItem ih | lastProperty ih => exact forall_mem_append.2 ⟨ih h, nofun⟩
  case item ihv ihr | property ihv ihr => exact forall_mem_append.2 ⟨ihv h.1, ihr h.2.2⟩
  case named ih | quoted ih | numbered ih => exact ih h.2.2

theorem Surface.Lexes.counts {cs : List Char} {ls : List Lexeme} (h : Lexes cs ls) :
    ∀ l ∈ ls, l.Counts (IsNumeral ·.toList) := by
  induction h with
  | nil => nofun
  | blank _ _ ih => exact ih
  | read _ hl _ ih =>
    refine forall_mem_cons.2 ⟨?_, ih⟩
    rintro cs rfl
    rcases Literal.readLexeme_cases hl with ⟨n, hn, hread⟩ | hp | ⟨_, hn, -⟩ | ⟨_, hs, -⟩
    · cases hn
      exact isNumeral_numeralText hread
    · exact absurd (readPlaceholder?_eq_some_iff.1 hp).1 (by simp)
    · cases hn
    · cases hs

theorem isNumeral_of_parse {cs : List Char} {t : Expr Placeholder} (h : parse cs = .ok t) :
    ∀ s ∈ t.numbers, IsNumeral s.toList := by
  obtain ⟨ls, hls, -, d, -, rfl, rfl⟩ := parse_eq_ok_iff.1 h
  exact d.counts hls.counts

end Parsing

end NullSafe
