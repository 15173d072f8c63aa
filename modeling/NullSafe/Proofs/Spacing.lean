import NullSafe.Proofs.Numerals

/-! # Tokens and the blanks between them

The tokens of a text are pieces of it at their positions, one behind the other, and what is in none of them is blank. A
token is read the same when it stands alone, so the text has the same tokens and the same tree with other blanks between
them.
-/

namespace NullSafe.Surface

open Text List

section Positions

def Token.stop (t : Token) : Nat := t.position + t.lexeme.chars.length

/-- From a position on, a text consists of tokens and of blanks between them. -/
structure Tiled (text : List Char) (start : Nat) (ts : List Token) : Prop where
  piece : ∀ t ∈ ts, t.lexeme.chars <+: text.drop t.position
  after : ∀ t ∈ ts, start ≤ t.position
  sorted : ts.Pairwise fun t u => t.position < u.position ∧ t.stop ≤ u.position
  blank : ∀ i c, start ≤ i → text[i]? = some c → (∀ t ∈ ts, i < t.position ∨ t.stop ≤ i) → isBlank c = true

variable {text cs : List Char} {start pos : Nat} {ts : List Token} {c : Char} {l : Lexeme}

theorem tiled_nil (h : text.drop start = []) : Tiled text start [] := by
  refine ⟨nofun, nofun, .nil, fun i c hi hc _ => ?_⟩
  have hlength := drop_eq_nil_iff.1 h
  obtain ⟨hlt, -⟩ := List.getElem?_eq_some_iff.1 hc
  omega

theorem Tiled.cons_blank (h : Tiled text (start + 1) ts) (hc : text[start]? = some c) (hblank : isBlank c = true) :
    Tiled text start ts := by
  refine ⟨h.piece, fun t ht => Nat.le_of_succ_le (h.after t ht), h.sorted, fun i d hi hd hout => ?_⟩
  rcases Nat.eq_or_lt_of_le hi with rfl | hlt
  · cases hc.symm.trans hd
    exact hblank
  · exact h.blank i d hlt hd hout

theorem Tiled.cons_token (h : Tiled text (start + l.chars.length) ts) (hpiece : l.chars <+: text.drop start)
    (hne : l.chars ≠ []) : Tiled text start (⟨l, start⟩ :: ts) := by
  have hlength := length_pos_iff.2 hne
  refine ⟨forall_mem_cons.2 ⟨hpiece, h.piece⟩, forall_mem_cons.2 ⟨Nat.le_refl _, fun t ht => ?_⟩,
    pairwise_cons.2 ⟨fun t ht => ?_, h.sorted⟩, fun i d hi hd hout => ?_⟩
  · have := h.after t ht
    omega
  · have := h.after t ht
    exact ⟨by dsimp only; omega, this⟩
  · obtain ⟨hfirst, hrest⟩ := forall_mem_cons.1 hout
    exact h.blank i d (hfirst.resolve_left (Nat.not_lt.2 hi)) hd hrest

theorem tiled_of_tokensFrom (hcs : text.drop pos = cs) (h : tokensFrom pos cs = .ok ts) : Tiled text pos ts := by
  fun_induction tokensFrom pos cs generalizing ts with
  | case1 =>
    cases h
    exact tiled_nil hcs
  | case2 pos c rest hc ih =>
    refine (ih ?_ h).cons_blank ?_ hc
    · rw [← tail_drop, hcs, tail_cons]
    · rw [← head?_drop, hcs, head?_cons]
  | case3 => cases h
  | case4 pos c rest hc l after hl ih =>
    obtain ⟨happ, hne⟩ := readLexeme?_eq_some hl
    rcases hts : tokensFrom (pos + l.chars.length) after with f | ts' <;> rw [hts] at h <;> cases h
    refine (ih ?_ hts).cons_token ⟨after, happ.trans hcs.symm⟩ hne
    rw [← drop_drop, hcs, ← happ, drop_left]

end Positions

section Spaces

/-- A text in which tokens stand in order, with blanks between them. -/
inductive Spaced : List Lexeme → List Char → Prop where
  | nil : Spaced [] []
  | last (l : Lexeme) : Spaced [l] l.chars
  | blank {c ls cs} (hc : isBlank c = true) (h : Spaced ls cs) : Spaced ls (c :: cs)
  | cons (l : Lexeme) {c ls cs} (hc : isBlank c = true) (h : Spaced ls cs) : Spaced (l :: ls) (l.chars ++ c :: cs)

variable {cs gap r : List Char} {l : Lexeme} {ls : List Lexeme}

theorem Spaced.blanks (hgap : Blank gap) (h : Spaced ls cs) : Spaced ls (gap ++ cs) := by
  induction gap with
  | nil => exact h
  | cons c gap ih =>
    obtain ⟨hc, hrest⟩ := forall_mem_cons.1 hgap
    exact .blank hc (ih hrest)

theorem spaced_intercalate (hne : gap ≠ []) (hgap : Blank gap) (ls : List Lexeme) :
    Spaced ls (List.intercalate gap (ls.map Lexeme.chars)) := by
  induction ls with
  | nil => exact .nil
  | cons l ls ih =>
    rcases ls with _ | ⟨l', ls⟩
    · rw [map_singleton, intercalate_singleton]
      exact .last l
    · obtain ⟨c, gap, rfl⟩ := exists_cons_of_ne_nil hne
      obtain ⟨hc, hrest⟩ := forall_mem_cons.1 hgap
      rw [map_cons, map_cons, intercalate_cons_cons, append_assoc]
      exact .cons l hc (ih.blanks hrest)

theorem readNumber?_alone {n : List Char} (h : readNumber? cs = some (n, r)) : readNumber? n = some (n, []) := by
  unfold readNumber? at h
  split at h
  · rename_i x rest
    dsimp only at h
    split at h
    · rename_i hx
      cases h
      have hdigits : ∀ c ∈ rest.takeWhile isHexDigit, isHexDigit c = true := fun c hc => mem_takeWhile_imp hc
      simp only [readNumber?, takeWhile_eq_self_iff.2 hdigits, dropWhile_eq_nil_iff.2 hdigits, hx, if_true]
    · exact (isNumeral_of_readDecimal h).read
  · exact (isNumeral_of_readDecimal h).read

/-- A token is read the same when nothing follows it. -/
theorem readLexeme?_alone (h : readLexeme? cs = some (l, r)) : readLexeme? l.chars = some (l, []) := by
  rcases Literal.readLexeme_cases h with ⟨n, rfl, hn⟩ | hp | ⟨n, rfl, hn⟩ | ⟨s, rfl, -, -⟩
  · rw [Lexeme.chars, readLexeme?, readNumber?_alone hn]
    rfl
  · unfold readPlaceholder? at hp
    split at hp <;> cases hp <;> rfl
  · have hread := @readLexeme?_name [] n (isName_of_readName hn) (by simp)
    rwa [append_nil] at hread
  · cases s <;> rfl

theorem Lexes.alone (h : Lexes cs ls) : ∀ l ∈ ls, Lexes l.chars [l] := by
  induction h with
  | nil => nofun
  | blank _ _ ih => exact ih
  | read hc hl _ ih =>
    refine forall_mem_cons.2 ⟨?_, ih⟩
    obtain ⟨happ, hne⟩ := readLexeme?_eq_some hl
    have hread := readLexeme?_alone hl
    obtain ⟨x, chars, hchars⟩ := exists_cons_of_ne_nil hne
    rw [hchars] at happ hread ⊢
    obtain rfl : x = _ := (List.cons.inj happ).1
    exact .read hc hread .nil

theorem Spaced.lexes (h : Spaced ls cs) (hls : ∀ l ∈ ls, Lexes l.chars [l]) : Lexes cs ls := by
  induction h with
  | nil => exact .nil
  | last l => exact hls l (.head _)
  | blank hc _ ih => exact .blank hc (ih hls)
  | cons l hc _ ih =>
    obtain ⟨hl, hrest⟩ := forall_mem_cons.1 hls
    exact (lexes_append_cons_iff (by rw [isCut, hc]; rfl)).2 ⟨[l], _, hl, .blank hc (ih hrest), rfl⟩

end Spaces

/-- No character but a blank is lost in the tokens of a text, and a text with other blanks between them has the same
tokens and the same tree. -/
theorem tokenize_lossless {cs : List Char} {ts : List Token} (h : tokenize cs = .ok ts) :
    Tiled cs 0 ts ∧ ∀ cs', Spaced (lexemes ts) cs' →
      (∃ ts', tokenize cs' = .ok ts' ∧ lexemes ts' = lexemes ts) ∧ ∀ v, parse cs' = .ok v ↔ parse cs = .ok v := by
  refine ⟨tiled_of_tokensFrom (List.drop_zero ..) h, fun cs' hspaced => ?_⟩
  have hls := lexes_of_tokensFrom h
  have hls' := hspaced.lexes hls.alone
  refine ⟨hls'.tokensFrom 0, fun v => ?_⟩
  rw [parse_eq_ok_iff, parse_eq_ok_iff]
  constructor
  · rintro ⟨ls, hlexes, hv⟩
    exact ⟨ls, hlexes.unique hls' ▸ hls, hv⟩
  · rintro ⟨ls, hlexes, hv⟩
    exact ⟨ls, hlexes.unique hls ▸ hls', hv⟩

theorem tokenize_lossless_comparison : ∃ ts, tokenize "a.b>=1e3".toList = .ok ts ∧ Tiled "a.b>=1e3".toList 0 ts ∧
    ∃ ts', tokenize "a . b >= 1e3".toList = .ok ts' ∧ lexemes ts' = lexemes ts := by
  have htokens : tokenize "a.b>=1e3".toList = .ok [⟨.name ['a'], 0⟩, ⟨.symbol .dot, 1⟩, ⟨.name ['b'], 2⟩,
      ⟨.symbol .atLeast, 3⟩, ⟨.number ['1', 'e', '3'], 5⟩] := by
    decide +kernel
  obtain ⟨htiled, hspaced⟩ := tokenize_lossless htokens
  exact ⟨_, htokens, htiled, (hspaced _ (@spaced_intercalate [' '] (by decide) (by decide) _)).1⟩

end NullSafe.Surface
