import NullSafe.Proofs.Soundness
import NullSafe.Proofs.Unambiguity

/-! # The language of the parser

The parser accepts the texts that have a derivation and gives its meaning, and it refuses the others. The
exception are texts in which a numeral that cannot be converted stands where a sentence can have one.
-/

namespace NullSafe.Surface

/-- An outcome of parsing is what the grammar says: sentences give their meaning, other texts are
refused. -/
def FollowsGrammar (outcome : Except Failure (Expr Placeholder)) (ls : List Lexeme) : Prop :=
  (∀ v, outcome = .ok v ↔ Derives .assign ls v) ∧ ((¬ ∃ v, Derives .assign ls v) → ∃ f, outcome = .error (.fault f))

/-- A sentence starts with the tokens up to the first numeral that cannot be converted. -/
def Overflows (ls : List Lexeme) : Prop :=
  ∃ d : Derivation .assign, d.Valid ∧ ¬ Fit d.yield ∧ upToMisfit d.yield <+: ls

theorem upToMisfit_prefix (ls : List Lexeme) : upToMisfit ls <+: ls := by
  induction ls with
  | nil => exact List.prefix_rfl
  | cons l ls ih =>
    rw [upToMisfit]
    split
    · exact List.cons_prefix_cons.2 ⟨rfl, ih⟩
    · exact ⟨ls, rfl⟩

theorem not_fit_upToMisfit {ls : List Lexeme} (h : ¬ Fit ls) : ¬ Fit (upToMisfit ls) := by
  induction ls with
  | nil => exact h
  | cons l ls ih =>
    rw [upToMisfit]
    split
    · rename_i hl
      exact fun hfit => ih (fun hls => h (fit_cons.2 ⟨hl, hls⟩)) (fit_cons.1 hfit).2
    · rename_i hl
      exact fun hfit => hl (fit_cons.1 hfit).1

theorem not_overflows_of_fit {ls : List Lexeme} (h : Fit ls) : ¬ Overflows ls := by
  rintro ⟨d, -, hfit, hp⟩
  exact not_fit_upToMisfit hfit fun l hl => h l (hp.subset hl)

section Outcome

open Surface.Parser

variable {stop : Nat} {ts : List Token} {v : Expr Placeholder}

theorem ofTokens_eq (h : ts ≠ []) :
    ofTokens stop ts = (do
      let (node, rest) ← Parsed.result (assign stop ts)
      match rest with
      | [] => return node
      | t :: _ => refuse (.unexpected t.lexeme.text) t.position) := by
  rw [ofTokens, if_neg (by simpa using h)]
  rcases assign stop ts with f | ⟨node, rest, hr⟩ <;> rfl

theorem lexemes_ne_nil (h : Derives .assign (lexemes ts) v) : ts ≠ [] := by
  rintro rfl
  obtain ⟨d, -, hy, -⟩ := h
  obtain ⟨l, hl, -⟩ := d.starts
  rw [hy] at hl
  cases hl

/-- An expression fails as its first operand does. -/
theorem parse_of_unary_error {cs : List Char} {t : Token} {f : Failure} (hts : tokenize cs = .ok (t :: ts))
    (h : Parsed.result (unary cs.length (t :: ts)) = .error f) : parse cs = .error f := by
  rw [parse, hts]
  dsimp only
  rw [ofTokens_eq (List.cons_ne_nil _ _), assign_result_error _ h]
  rfl

theorem ofTokens_eq_ok_of_derives (h : Derives .assign (lexemes ts) v)
    (hov : ¬ Overflows (lexemes ts)) : ofTokens stop ts = .ok v := by
  rw [ofTokens_eq (lexemes_ne_nil h)]
  obtain ⟨d, hd, hy, hv⟩ := h
  have hfit : Fit d.yield := Classical.byContradiction fun hf => hov ⟨d, hd, hf, hy ▸ upToMisfit_prefix d.yield⟩
  obtain ⟨rest, hrest, hnil⟩ :
      ∃ rest, Parsed.result (assign stop ts) = .ok (v, rest) ∧ lexemes rest = [] :=
    hv ▸ (complete stop d hd ts).1 hfit [] (hy ▸ (List.append_nil _).symm) (Stops.none 8)
  rw [hrest, List.map_eq_nil_iff.1 hnil]
  rfl

theorem ofTokens_eq_error_of_overflows (h : Overflows (lexemes ts)) : ofTokens stop ts = .error .oversizedNumber := by
  obtain ⟨d, hd, hfit, hp⟩ := h
  have hne : ts ≠ [] := by
    rintro rfl
    obtain ⟨l, hl, -⟩ := d.starts
    rw [← head?_upToMisfit, List.prefix_nil.1 hp] at hl
    cases hl
  have hassign : Parsed.result (assign stop ts) = .error .oversizedNumber := (complete stop d hd ts).2 hfit hp
  rw [ofTokens_eq hne, hassign]
  rfl

theorem derives_of_ofTokens_eq_ok (h : ofTokens stop ts = .ok v) : Derives .assign (lexemes ts) v := by
  have hne : ts ≠ [] := by rintro rfl; cases h
  rw [ofTokens_eq hne] at h
  have hsound := explains_assign stop ts
  rcases hr : Parsed.result (assign stop ts) with f | ⟨node, _ | ⟨t, rest⟩⟩ <;> rw [hr] at h hsound
  · cases h
  · obtain ⟨ys, hys, -, hv⟩ := hsound
    cases h
    rwa [hys, lexemes, List.map_nil, List.append_nil]
  · cases h

theorem overflows_of_ofTokens_eq_error (h : ofTokens stop ts = .error .oversizedNumber) : Overflows (lexemes ts) := by
  have hne : ts ≠ [] := by rintro rfl; cases h
  rw [ofTokens_eq hne] at h
  have hsound := explains_assign stop ts
  rcases hr : Parsed.result (assign stop ts) with f | ⟨node, _ | ⟨t, rest⟩⟩ <;> rw [hr] at h hsound
  · cases h
    obtain ⟨_, _, ⟨d, hd, rfl, rfl⟩, hfit, hp⟩ := hsound
    exact ⟨d, hd, hfit, hp⟩
  · cases h
  · cases h

theorem followsGrammar_iff : FollowsGrammar (ofTokens stop ts) (lexemes ts) ↔ ¬ Overflows (lexemes ts) := by
  constructor
  · rintro ⟨hok, hfault⟩ hov
    have herr : ofTokens stop ts = .error .oversizedNumber := ofTokens_eq_error_of_overflows hov
    by_cases hd : ∃ v, Derives .assign (lexemes ts) v
    · obtain ⟨v, hv⟩ := hd
      rw [(hok v).2 hv] at herr
      cases herr
    · obtain ⟨f, hf⟩ := hfault hd
      rw [hf] at herr
      cases herr
  · intro hov
    refine ⟨fun v => ⟨derives_of_ofTokens_eq_ok, fun hv => ofTokens_eq_ok_of_derives hv hov⟩, ?_⟩
    intro hd
    rcases hr : ofTokens stop ts with (f | _) | v
    · exact ⟨f, rfl⟩
    · exact absurd (overflows_of_ofTokens_eq_error hr) hov
    · exact absurd ⟨v, derives_of_ofTokens_eq_ok hr⟩ hd

end Outcome

theorem parse_oversized_iff (cs : List Char) :
    parse cs = .error .oversizedNumber ↔ ∃ ts, tokenize cs = .ok ts ∧ Overflows (lexemes ts) := by
  unfold parse
  cases hts : tokenize cs with
  | error f => exact ⟨fun h => (nomatch h), fun ⟨_, h, _⟩ => (nomatch h)⟩
  | ok ts =>
    refine ⟨fun h => ⟨ts, rfl, overflows_of_ofTokens_eq_error h⟩, ?_⟩
    rintro ⟨_, ⟨⟩, h⟩
    exact ofTokens_eq_error_of_overflows h

/-- Sentences have one derivation, whose meaning is what parsing gives, and other texts are refused. This
fails for the texts that overflow and for no others. -/
theorem parse_followsGrammar_iff {cs : List Char} {ts : List Token} (h : tokenize cs = .ok ts) :
    (∀ d e : Derivation .assign, d.Valid → e.Valid → d.yield = lexemes ts → e.yield = lexemes ts → d = e) ∧
    (FollowsGrammar (parse cs) (lexemes ts) ↔ ¬ Overflows (lexemes ts)) ∧
    (Overflows (lexemes ts) → parse cs = .error .oversizedNumber) := by
  have hparse : parse cs = ofTokens cs.length ts := by rw [parse, h]
  refine ⟨fun d e hd he hyd hye => ?_, ?_, ?_⟩
  · refine (d.unique e [] [] hd he ?_ (Stops.none 8) (Stops.none 8)).1
    rw [hyd, hye]
  · rw [hparse]
    exact followsGrammar_iff
  · rw [hparse]
    exact ofTokens_eq_error_of_overflows

section LongNumeral

theorem readNumber?_ones (n : Nat) :
    readNumber? (List.replicate (n + 1) '1') = some (List.replicate (n + 1) '1', []) := by
  have htake : (List.replicate (n + 1) '1').takeWhile Text.isDecimal = List.replicate (n + 1) '1' :=
    List.takeWhile_replicate
  have hdrop : (List.replicate (n + 1) '1').dropWhile Text.isDecimal = [] := List.dropWhile_replicate
  have hmantissa : readMantissa? (List.replicate (n + 1) '1') =
      some (List.replicate (n + 1) '1', []) := by
    rw [readMantissa?, htake, hdrop]
    rfl
  change readDecimal? (List.replicate (n + 1) '1') = _
  rw [readDecimal?, hmantissa]
  exact congrArg (fun m => some (m, [])) (List.append_nil _)

theorem tokenize_ones (n : Nat) :
    tokenize (List.replicate (n + 1) '1') = .ok [⟨.number (List.replicate (n + 1) '1'), 0⟩] := by
  have hread : readLexeme? (List.replicate (n + 1) '1') =
      some (.number (List.replicate (n + 1) '1'), []) := by
    rw [readLexeme?, readNumber?_ones]
    rfl
  rw [List.replicate_succ] at hread ⊢
  rw [tokenize, tokensFrom_of_read (by decide) hread, tokensFrom]
  rfl

theorem numeralFits_ones {n : Nat} (h : maxDigits ≤ n) : numeralFits (List.replicate (n + 1) '1') = false := by
  have hhex : hexDigits? (List.replicate (n + 1) '1') = none := rfl
  have hall : (List.replicate (n + 1) '1').all Text.isDecimal = true := by
    rw [List.all_replicate]
    rfl
  rw [numeralFits, hhex]
  simp only [hall, List.length_replicate]
  exact decide_eq_false (Nat.not_le.2 (Nat.lt_succ_of_le h))

theorem derives_number (digits : List Char) : Derives .assign [.number digits] (Expr.number (numeralText digits)) :=
  derives_primary ⟨.number digits, trivial, rfl, rfl⟩

theorem overflows_number {digits : List Char} (h : numeralFits digits = false) : Overflows [.number digits] := by
  obtain ⟨d, hd, hy, -⟩ := derives_number digits
  refine ⟨d, hd, ?_, hy ▸ upToMisfit_prefix _⟩
  rw [hy, fit_cons, Lexeme.fits, h]
  exact fun hfit => Bool.false_ne_true hfit.1

theorem parse_followsGrammar_iff_ones :
    tokenize (List.replicate (maxDigits + 1) '1') =
        .ok [⟨.number (List.replicate (maxDigits + 1) '1'), 0⟩] ∧
      ¬ FollowsGrammar (parse (List.replicate (maxDigits + 1) '1')) [.number (List.replicate (maxDigits + 1) '1')] := by
  refine ⟨tokenize_ones maxDigits, fun hf => ?_⟩
  exact (parse_followsGrammar_iff (tokenize_ones maxDigits)).2.1.1 hf
    (overflows_number (numeralFits_ones (Nat.le_refl maxDigits)))

/-- A numeral with one digit too many is a sentence, and parsing it fails. -/
theorem parse_long_numeral :
    Derives .assign [.number (List.replicate (maxDigits + 1) '1')]
        (Expr.number (numeralText (List.replicate (maxDigits + 1) '1'))) ∧
      parse (List.replicate (maxDigits + 1) '1') = .error .oversizedNumber := by
  refine ⟨derives_number _, ?_⟩
  rw [parse, tokenize_ones]
  exact ofTokens_eq_error_of_overflows (overflows_number (numeralFits_ones (Nat.le_refl maxDigits)))

end LongNumeral

end NullSafe.Surface
