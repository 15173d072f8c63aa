import Mathlib.Data.List.Chain
import NullSafe.Compile
import NullSafe.Proofs.Delimiters
import NullSafe.Proofs.Filling
import NullSafe.Proofs.Leaves

/-! # Literals are put back where they were written

A literal is set aside with a placeholder in its place, and placeholders are told apart only by their order.
Every pass keeps them in order, so each literal comes back at the leaf that was read from its own
placeholder. Two slashes next to each other outside literals are the one exception: no literal was set
aside for them, but they read as a placeholder and take the literal of the next one.
-/

namespace NullSafe.Literal

open Text List

def delimiters (ps : List Piece) : List Char := (ps.filterMap Piece.literal?).flatMap (List.take 1)

/-- No two slashes stand next to each other outside literals. -/
def Apart (ps : List Piece) : Prop := ps.IsChain fun a b => ¬ (a = .char '/' ∧ b = .char '/')

instance (ps : List Piece) : Decidable (Apart ps) := inferInstanceAs (Decidable (List.IsChain _ _))

section Marks

/-- The delimiters of the placeholders that pieces become: those of the literals, and one for each two slashes.
A slash may stand before the pieces. -/
def marksFrom (slash : Bool) : List Piece → List Char
  | [] => []
  | .literal raw :: rest => raw.take 1 ++ marksFrom false rest
  | .char c :: rest =>
    if c = '/' then if slash then '/' :: marksFrom false rest else marksFrom true rest
    else marksFrom false rest

def withSlash (slash : Bool) (ps : List Piece) : List Piece := if slash then .char '/' :: ps else ps

variable {p : Piece} {ps : List Piece} {slash : Bool}

theorem apart_cons : Apart (p :: ps) ↔ Apart (withSlash (p = .char '/') ps) := by
  by_cases hp : p = .char '/'
  · simp [withSlash, hp]
  · cases ps with
    | nil => simp [withSlash, Apart, hp]
    | cons q ps => simp [withSlash, Apart, hp]

theorem apart_withSlash_cons :
    Apart (withSlash slash (p :: ps)) ↔ ¬ (slash = true ∧ p = .char '/') ∧ Apart (p :: ps) := by
  cases slash <;> simp [withSlash, Apart]

theorem marksFrom_eq_of_apart (h : Apart (withSlash slash ps)) : marksFrom slash ps = delimiters ps := by
  induction ps generalizing slash with
  | nil => rfl
  | cons p ps ih =>
    obtain ⟨hfirst, hps⟩ := apart_withSlash_cons.1 h
    rw [apart_cons] at hps
    cases p with
    | literal raw => exact congrArg (raw.take 1 ++ ·) (ih hps)
    | char c =>
      rw [marksFrom]
      by_cases hc : c = '/'
      · subst hc
        rw [if_pos rfl, if_neg fun hs => hfirst ⟨hs, rfl⟩]
        exact ih hps
      · rw [if_neg hc]
        exact ih (by simpa [hc] using hps)

theorem delimiters_literal (raw : List Char) : delimiters (.literal raw :: ps) = raw.take 1 ++ delimiters ps := rfl

theorem length_delimiters_le (slash : Bool) (ps : List Piece) :
    (delimiters ps).length ≤ (marksFrom slash ps).length := by
  induction ps generalizing slash with
  | nil => exact Nat.le_refl 0
  | cons p ps ih =>
    cases p with
    | literal raw =>
      rw [delimiters_literal, marksFrom, length_append, length_append]
      exact Nat.add_le_add_left (ih false) _
    | char c =>
      rw [marksFrom]
      split
      · split
        · exact Nat.le_succ_of_le (ih false)
        · exact ih true
      · exact ih false

/-- Two slashes next to each other make a placeholder of their own. -/
theorem length_delimiters_lt (h : ¬ Apart (withSlash slash ps)) :
    (delimiters ps).length < (marksFrom slash ps).length := by
  induction ps generalizing slash with
  | nil => cases slash <;> exact absurd (by simp [withSlash, Apart]) h
  | cons p ps ih =>
    rw [apart_withSlash_cons, apart_cons] at h
    cases p with
    | literal raw =>
      rw [delimiters_literal, marksFrom, length_append, length_append]
      exact Nat.add_lt_add_left (ih (by simpa using h)) _
    | char c =>
      rw [marksFrom]
      by_cases hc : c = '/'
      · subst hc
        cases slash with
        | true => exact Nat.lt_succ_of_le (length_delimiters_le false ps)
        | false => exact ih (by simpa using h)
      · rw [if_neg hc]
        exact ih (by simpa [hc] using h)

theorem marksFrom_eq_iff : marksFrom false ps = delimiters ps ↔ Apart ps := by
  refine ⟨fun h => Classical.byContradiction fun hps => ?_, fun hps => marksFrom_eq_of_apart hps⟩
  have hlt : (delimiters ps).length < (marksFrom false ps).length := length_delimiters_lt hps
  rw [h] at hlt
  exact Nat.lt_irrefl _ hlt

end Marks

section Pieces

variable {last last' : Option Char} {c : Char} {cs xs : List Char}

theorem readLiteral?_of_plain (h : isDelimiter c = false) : readLiteral? last (c :: cs) = none := by
  simp only [isDelimiter, Bool.or_eq_false_iff, beq_eq_false_iff_ne] at h
  simp [readLiteral?, h]

theorem readLiteral?_congr (h : cs.head? = some '/' → operandCanStart last = operandCanStart last') :
    readLiteral? last cs = readLiteral? last' cs := by
  rcases cs with _ | ⟨c, cs⟩
  · rfl
  · rw [readLiteral?, readLiteral?]
    by_cases hc : c = '/'
    · rw [h (congrArg some hc)]
    · simp [hc]

/-- The last character that is not blank, after a character outside literals. -/
def lastAfter (last : Option Char) (c : Char) : Option Char := if isBlank c then last else some c

theorem piecesFrom_literal {raw after : List Char} (h : readLiteral? last (c :: cs) = some (raw, after)) :
    piecesFrom last (c :: cs) = .literal raw :: piecesFrom (some c) after := by
  rw [piecesFrom]
  split
  · rename_i h'
    rw [h] at h'
    cases h'
    rfl
  · rename_i h'
    rw [h] at h'
    cases h'

theorem piecesFrom_char (h : readLiteral? last (c :: cs) = none) :
    piecesFrom last (c :: cs) = .char c :: piecesFrom (lastAfter last c) cs := by
  rw [piecesFrom]
  split
  · rename_i h'
    rw [h] at h'
    cases h'
  · rfl

theorem piecesFrom_plain_append (hxs : Plain xs) (last : Option Char) (ys : List Char) :
    ∃ last', piecesFrom last (xs ++ ys) = xs.map .char ++ piecesFrom last' ys := by
  induction xs generalizing last with
  | nil => exact ⟨last, rfl⟩
  | cons c xs ih =>
    obtain ⟨hc, hxs⟩ := plain_cons.1 hxs
    obtain ⟨last', hpieces⟩ := ih hxs (lastAfter last c)
    exact ⟨last', by rw [cons_append, piecesFrom_char (readLiteral?_of_plain hc), hpieces]; rfl⟩

theorem piecesFrom_of_plain (h : Plain cs) (last : Option Char) : piecesFrom last cs = cs.map .char := by
  obtain ⟨last', hpieces⟩ := piecesFrom_plain_append h last []
  rwa [piecesFrom, append_nil, append_nil] at hpieces

end Pieces

section Isolating

variable {last : Option Char}

/-- A quote that opens no literal is not followed by the same quote. -/
theorem head?_ne_of_readLiteral {q : Char} {rest : List Char}
    (hq : q = '\x27' ∨ q = '"') (h : readLiteral? last (q :: rest) = none) : rest.head? ≠ some q := by
  intro hr
  obtain ⟨r, rfl⟩ := head?_eq_some_iff.1 hr
  have hopen : opens last q (q :: r) = true := by rcases hq with rfl | rfl <;> rfl
  have hslash : q ≠ '\\' := ne_backslash_of_isDelimiter (isDelimiter_iff.2 (.inl hq))
  rw [readLiteral?_cons, if_pos hopen, closeLiteral_cons hslash, if_pos rfl] at h
  cases h

theorem readLiteral_start {c : Char} {rest raw after : List Char}
    (h : readLiteral? last (c :: rest) = some (raw, after)) :
    raw.take 1 = [c] ∧ isDelimiter c = true ∧ (c = '/' → last ≠ some '/') := by
  obtain ⟨d, cs, s, r, hcs, hopen, -, rfl, -⟩ := exists_of_readLiteral h
  cases hcs
  refine ⟨rfl, isDelimiter_of_opens hopen, ?_⟩
  rintro rfl rfl
  have hslash : operandCanStart (some '/') = false := by decide
  exact absurd hopen (by simp [opens, hslash])

/-- What stands before a text while its placeholders are counted: no delimiter, a slash, or a quote that the
text does not start with. -/
def Awaits (before last : Option Char) (cs : List Char) : Prop :=
  ∀ d, before = some d → (d = '/' ∧ last = some '/') ∨ ((d = '\x27' ∨ d = '"') ∧ cs.head? ≠ some d)

theorem Awaits.none (last : Option Char) (cs : List Char) : Awaits none last cs := fun _ h => nomatch h

theorem placeholdersFrom_isolated {before : Option Char} {cs : List Char} (h : Awaits before last cs) :
    placeholdersFrom before ((piecesFrom last cs).flatMap Piece.isolated) =
      marksFrom (before = some '/') (piecesFrom last cs) := by
  fun_induction piecesFrom last cs generalizing before with
  | case1 => rfl
  | case2 last c rest raw after hr ih =>
    obtain ⟨hraw, hc, hslash⟩ := readLiteral_start hr
    have hbefore : before ≠ some c := by
      intro hb
      rcases h c hb with ⟨rfl, hl⟩ | ⟨-, hhead⟩
      · exact hslash rfl hl
      · exact hhead rfl
    rw [flatMap_cons, Piece.isolated, marksFrom, hraw]
    simp only [flatMap_cons, flatMap_nil, append_nil, cons_append, nil_append]
    rw [placeholdersFrom, if_pos hc, if_neg hbefore, placeholdersFrom, if_pos hc, if_pos rfl, ih (.none _ _)]
    rfl
  | case3 last c rest hr ih =>
    simp only [dite_eq_ite] at ih
    rw [flatMap_cons, Piece.isolated, marksFrom, singleton_append, placeholdersFrom]
    by_cases hc : isDelimiter c = true
    · rw [if_pos hc]
      by_cases hb : before = some c
      · obtain ⟨rfl, -⟩ | ⟨-, hhead⟩ := h c hb
        · rw [if_pos hb, if_pos rfl, if_pos (decide_eq_true hb), ih (.none _ _)]
          rfl
        · exact absurd rfl hhead
      · rw [if_neg hb]
        have hnext : Awaits (some c) (if isBlank c then last else some c) rest := by
          rintro d ⟨⟩
          rcases isDelimiter_iff.1 hc with hq | rfl
          · exact .inr ⟨hq, head?_ne_of_readLiteral hq hr⟩
          · exact .inl ⟨rfl, rfl⟩
        rw [ih hnext]
        by_cases hs : c = '/'
        · subst hs
          have hb' : ¬ decide (before = some '/') = true := by simpa using hb
          simp only [hb', if_true, if_false, decide_true, Bool.false_eq_true]
        · rw [if_neg hs]
          simp [hs]
    · rw [if_neg hc, ih (.none _ _)]
      have hs : c ≠ '/' := by rintro rfl; exact hc rfl
      rw [if_neg hs]
      rfl

theorem length_delimiters (last : Option Char) (cs : List Char) :
    (delimiters (piecesFrom last cs)).length = ((piecesFrom last cs).filterMap Piece.literal?).length := by
  fun_induction piecesFrom last cs with
  | case1 => rfl
  | case2 last c rest raw after hr ih =>
    rw [delimiters_literal, (readLiteral_start hr).1, length_append, ih]
    exact Nat.add_comm _ _
  | case3 last c rest hr ih => exact ih

theorem placeholders_isolate (cs : List Char) : placeholders (isolate cs) = marksFrom false (pieces cs) :=
  placeholdersFrom_isolated (.none _ _)

/-- A text with its literals set aside has no placeholders but theirs, unless two slashes are next to each
other. -/
theorem placeholders_isolate_iff (cs : List Char) :
    placeholders (isolate cs) = delimiters (pieces cs) ↔ Apart (pieces cs) := by
  rw [placeholders_isolate, marksFrom_eq_iff]

theorem length_literals_le (cs : List Char) : (literals cs).length ≤ (placeholders (isolate cs)).length := by
  rw [placeholders_isolate, literals, pieces, ← length_delimiters]
  exact length_delimiters_le false _

end Isolating

end NullSafe.Literal

namespace NullSafe

open Surface Literal

section Scopes

theorem word_parameterFor (index : Nat) {s : String} (h : Word s) : Word (Scope.parameterFor index s) := by
  unfold Scope.parameterFor
  split
  · exact h
  · refine .append ?_ (by decide)
    rw [String.toList_append]
    exact plain_append.2 ⟨by decide, (word_toString index).2⟩

/-- The parameters of arguments are the names themselves or are made up from their positions. -/
def Scope.Declared (arguments : List (String × String)) : Prop :=
  ∀ a ∈ arguments, ∃ index, a.2 = Scope.parameterFor index a.1

theorem Scope.Declared.declareAll {arguments : List (String × String)} (h : Scope.Declared arguments)
    (index : Nat) (names : List String) : Scope.Declared (Scope.declareAll index arguments names) := by
  induction names generalizing index arguments with
  | nil => exact h
  | cons name names ih =>
    refine ih ?_ (index + 1)
    unfold Scope.declare
    split
    · intro a ha
      obtain ⟨⟨n, p⟩, hmem, rfl⟩ := List.mem_map.1 ha
      by_cases hn : n = name
      · exact ⟨index, by simp [hn]⟩
      · simpa [hn] using h _ hmem
    · intro a ha
      rcases List.mem_append.1 ha with ha | ha
      · exact h a ha
      · rw [List.mem_singleton.1 ha]
        exact ⟨index, rfl⟩

theorem Scope.spelled_ofNames (globals names : List String) : (Scope.ofNames globals names).Spelled := by
  intro s hs
  cases hp : (Scope.ofNames globals names).parameter? s with
  | none => exact hs
  | some p =>
    obtain ⟨before, after, hmem, -⟩ := List.lookup_eq_some_iff.1 hp
    have hdeclared : Scope.Declared (Scope.ofNames globals names).arguments :=
      Scope.Declared.declareAll (List.forall_mem_nil _) 0 names
    obtain ⟨index, hindex⟩ := hdeclared (s, p) (by rw [hmem]; simp)
    rw [Option.getD_some, show p = _ from hindex]
    exact word_parameterFor index hs

end Scopes

section Filled

def Atom.fill : Atom Placeholder → Filling (Atom Leaf)
  | literal p => do return literal (← p.fill)
  | word s => return word s

theorem Surface.Key.atoms_fill (k : Key Placeholder) : Key.atoms <$> k.fill = k.atoms.mapM Atom.fill := by
  cases k <;> simp [Key.fill, Key.atoms, Atom.fill]

namespace Surface.Expr

mutual

theorem atoms_fill : ∀ t : Expr Placeholder, atoms <$> t.fill = t.atoms.mapM Atom.fill
  | .number s => by simp [fill, atoms, Atom.fill]
  | .literal p => by simp [fill, atoms, Atom.fill]
  | .constant c => by simp [fill, atoms]
  | .this => by simp [fill, atoms]
  | .name s => by simp [fill, atoms, Atom.fill]
  | .array items => by simp [fill, atoms, ← atomsAll_fill items]
  | .object entries => by simp [fill, atoms, ← atomsEntries_fill entries]
  | .member target s => by simp [fill, atoms, Atom.fill, ← atoms_fill target]
  | .index target key => by simp [fill, atoms, ← atoms_fill target, ← atoms_fill key]
  | .call callee arguments => by simp [fill, atoms, ← atoms_fill callee, ← atomsAll_fill arguments]
  | .unary op operand => by simp [fill, atoms, ← atoms_fill operand]
  | .binary op left right => by simp [fill, atoms, ← atoms_fill left, ← atoms_fill right]
  | .logical op left right => by simp [fill, atoms, ← atoms_fill left, ← atoms_fill right]
  | .conditional test yes no => by
    simp [fill, atoms, ← atoms_fill test, ← atoms_fill yes, ← atoms_fill no]
  | .assign target value => by simp [fill, atoms, ← atoms_fill target, ← atoms_fill value]

theorem atomsAll_fill : ∀ ts : List (Expr Placeholder), atomsAll <$> fillAll ts = (atomsAll ts).mapM Atom.fill
  | [] => by simp [fillAll, atomsAll]
  | t :: rest => by simp [fillAll, atomsAll, ← atoms_fill t, ← atomsAll_fill rest]

theorem atomsEntries_fill : ∀ es : List (Key Placeholder × Expr Placeholder),
    atomsEntries <$> fillEntries es = (atomsEntries es).mapM Atom.fill
  | [] => by simp [fillEntries, atomsEntries]
  | (k, t) :: rest => by
    simp [fillEntries, atomsEntries, ← k.atoms_fill, ← atoms_fill t, ← atomsEntries_fill rest]

end

/-- The leaves of a filled tree are the denotations of the queued literals, then the placeholders that are left. -/
theorem leaves_fill_of_le {t : Expr Placeholder} {queue : List (List Char)} (h : queue.length ≤ t.leaves.length) :
    (fun p => (p.1.leaves, p.2)) <$> t.fill.run queue =
      (fun ls => (ls.map Leaf.literal ++ (t.leaves.drop queue.length).map .unfilled, [])) <$> queue.mapM ofRaw := by
  have hatoms : (fun p => (Atom.leaves p.1, p.2)) <$> (t.atoms.mapM Atom.fill).run queue =
      (fun ls => (ls.map Leaf.literal ++ (t.leaves.drop queue.length).map .unfilled, [])) <$> queue.mapM ofRaw := by
    refine filterMap_mapM_fill ?_ ?_ h
    · rintro (p | s) hp
      · cases hp
      · exact ⟨.word s, rfl, rfl⟩
    · rintro (p | s) q hq
      · cases hq
        exact ⟨.literal, by simp [Atom.fill], fun _ => rfl⟩
      · cases hq
  rw [← hatoms, ← atoms_fill]
  simp [leaves]

theorem leaves_filled {t : Expr Placeholder} {queue : List (List Char)} (h : t.leaves.length = queue.length) :
    leaves <$> t.filled queue = (·.map Leaf.literal) <$> queue.mapM ofRaw := by
  have hleaves := congrArg (Prod.fst <$> ·) (leaves_fill_of_le h.ge)
  rw [← h, List.drop_length, List.map_nil] at hleaves
  simpa [filled] using hleaves

end Surface.Expr

end Filled

section Places

variable {scope : Scope}

/-- Restoring queued literals in the text of a tree's code gives the text of the code of the tree with those
literals at its leaves, in order, or fails with the first that denotes nothing. -/
def Restores (scope : Scope) (t : Expr Placeholder) (queue : List (List Char)) (text : List Char) : Prop :=
  match Literal.fill spell queue text, queue.mapM ofRaw with
  | .ok restored, .ok ls => ∃ tree body, t.filled queue = .ok tree ∧ tree.leaves = ls.map .literal ∧
      emit scope tree = .ok body ∧ restored = body.chars Leaf.chars
  | .error f, .error f' => f = f'
  | _, _ => False

/-- The literals of an expression text are in their places in the code generated for it. -/
structure InPlace (scope : Scope) (cs : List Char) (body : Body Placeholder) : Prop where
  /-- The text of the code has a placeholder for each literal, in their order, and no others. -/
  shown : placeholders (body.chars Placeholder.chars) = delimiters (pieces cs)
  /-- The code is that of a tree whose leaves are the placeholders of the text. The literals are restored at
  these leaves. -/
  restored : ∃ text t, desugar (isolate cs) = .ok text ∧ parse (replaceWords text) = .ok t ∧
    emit scope t = .ok body ∧ t.leaves.map Placeholder.delimiter = delimiters (pieces cs) ∧
    Restores scope t (literals cs) (body.chars Placeholder.chars)

variable {globals names : List String} {cs : List Char} {body : Body Placeholder} {t : Expr Placeholder}

theorem generate_eq_ok_iff {text : List Char} :
    generate scope text = .ok body ↔ ∃ t, parse (replaceWords text) = .ok t ∧ emit scope t = .ok body := by
  rcases hparse : parse (replaceWords text) with f | t
  · simp [generate_of_unparsed hparse]
  · rw [generate_of_parse hparse]
    rcases hemit : emit scope t with f | b <;> simp [hemit]

theorem Compile.analyse_eq_ok (h : Compile.analyse scope cs = .ok body) :
    ∃ text t, desugar cs = .ok text ∧ parse (replaceWords text) = .ok t ∧ emit scope t = .ok body := by
  unfold Compile.analyse at h
  split at h
  · cases h
  · rename_i text htext
    split at h
    · cases h
    · rename_i hgen
      cases h
      obtain ⟨t, ht, hemit⟩ := generate_eq_ok_iff.1 hgen
      exact ⟨text, t, htext, ht, hemit⟩

theorem Compile.analyse_of_emit {text : List Char} (htext : desugar cs = .ok text)
    (ht : parse (replaceWords text) = .ok t) (hemit : emit scope t = .ok body) :
      Compile.analyse scope cs = .ok body := by
  unfold Compile.analyse
  rw [htext]
  dsimp only
  rw [generate_eq_ok_iff.2 ⟨t, ht, hemit⟩]

theorem Compile.analyse_placeholder (p : Placeholder) : Compile.analyse scope p.chars = .ok ⟨0, .literal p⟩ := by
  have hwords : desugar p.chars = .ok p.chars ∧ replaceWords p.chars = p.chars := by
    rcases p with (_ | _) | _ <;> decide +kernel
  exact analyse_of_emit hwords.1 (hwords.2.symm ▸ parse_placeholder p) rfl

theorem Compile.analyse_sum {text : List Char} {p q : Placeholder}
    (hwords : desugar text = .ok text ∧ replaceWords text = text)
    (htokens : (tokenize text).map lexemes = .ok (Derivation.sum p q).yield) :
    Compile.analyse scope text = .ok ⟨0, .operate .add [.literal p, .literal q]⟩ := by
  have hfit : Fit (Derivation.sum p q).yield :=
    fit_cons.2 ⟨by cases p <;> rfl, fit_cons.2 ⟨rfl, fit_cons.2 ⟨by cases q <;> rfl, fit_nil⟩⟩⟩
  have hparse := parse_of_derivation (.sum p q) htokens hfit (by repeat' constructor)
  exact analyse_of_emit hwords.1 (hwords.2.symm ▸ hparse) rfl

theorem covers_of_parse (h : parse cs = .ok t) :
    t.leaves.map Placeholder.delimiter = placeholders cs ∧ Atom.Spelled t.atoms := by
  unfold parse at h
  split at h
  · cases h
  · rename_i ts hts
    obtain ⟨d, -, hy, hm⟩ := derives_of_ofTokens_eq_ok h
    have hcovers : Covers t.atoms (lexemes ts) := hy ▸ hm ▸ d.spells
    refine ⟨?_, hcovers.spelled (tidy_of_lexes (lexes_of_tokensFrom hts))⟩
    rw [← placeholders_of_lexes (lexes_of_tokensFrom hts), Expr.leaves, hcovers.leaves]

/-- Every pass keeps the placeholders of a text in order. -/
theorem placeholders_of_analyse {text : List Char} (htext : desugar cs = .ok text)
    (ht : parse (replaceWords text) = .ok t) (hbody : emit (Scope.ofNames globals names) t = .ok body) :
    t.leaves.map Placeholder.delimiter = placeholders cs ∧ body.code.Shows t.leaves := by
  obtain ⟨hleaves, hspelled⟩ := covers_of_parse ht
  rw [placeholders_replaceWords, placeholders_desugar htext] at hleaves
  exact ⟨hleaves, shows_of_emit (Scope.spelled_ofNames globals names) hspelled hbody⟩

theorem restores_of_emit {queue : List (List Char)} (hbody : emit scope t = .ok body)
    (hshows : body.code.Shows t.leaves) (hlength : t.leaves.length = queue.length) :
    Restores scope t queue (body.chars Placeholder.chars) := by
  have hleaves := Expr.leaves_filled hlength
  have hfill := fill_emit hbody queue
  rw [Restores, fill_body hshows.separated]
  rcases htree : t.filled queue with f | tree <;> rcases hdenote : queue.mapM ofRaw with f' | ls <;>
    rw [htree, hdenote] at hleaves <;> rw [htree] at hfill
  · rw [hfill]
    exact Except.error.inj hleaves
  · cases hleaves
  · cases hleaves
  · obtain ⟨code, hcode, hemit⟩ := hfill
    rw [hcode]
    exact ⟨tree, code, rfl, Except.ok.inj hleaves, hemit, rfl⟩

/-- An expression that is accepted has its literals in place, unless two slashes are next to each other outside
its literals. -/
theorem inPlace_iff_apart (h : Compile.analyse (Scope.ofNames globals names) (isolate cs) = .ok body) :
    InPlace (Scope.ofNames globals names) cs body ↔ Apart (pieces cs) := by
  obtain ⟨text, t, htext, ht, hbody⟩ := Compile.analyse_eq_ok h
  obtain ⟨hleaves, hshows⟩ := placeholders_of_analyse htext ht hbody
  have hshown : placeholders (body.chars Placeholder.chars) = placeholders (isolate cs) := by
    rw [placeholders_body hshows.separated, Code.leaves, hshows.leaves, hleaves]
  rw [← placeholders_isolate_iff]
  constructor
  · intro hplace
    rw [← hshown, hplace.shown]
  · intro hisolate
    have hlength : t.leaves.length = (literals cs).length := by
      rw [← List.length_map Placeholder.delimiter, hleaves, hisolate]
      exact length_delimiters none cs
    exact ⟨hshown.trans hisolate, text, t, htext, ht, hbody, hleaves.trans hisolate,
      restores_of_emit hbody hshows hlength⟩

theorem isolate_mixed : isolate "'a' + /b/".toList = "'' + //".toList := by decide +kernel

/-- A string and a pattern. -/
theorem inPlace_iff_apart_mixed :
    ∃ body, Compile.analyse (Scope.ofNames [] []) (isolate "'a' + /b/".toList) = .ok body ∧
      Apart (pieces "'a' + /b/".toList) ∧ InPlace (Scope.ofNames [] []) "'a' + /b/".toList body := by
  have hbody : Compile.analyse (Scope.ofNames [] []) (isolate "'a' + /b/".toList) =
      .ok ⟨0, .operate .add [.literal (.string .single), .literal .pattern]⟩ := by
    rw [isolate_mixed]
    exact Compile.analyse_sum (by decide +kernel) (by decide +kernel)
  have hapart : Apart (pieces "'a' + /b/".toList) := by decide +kernel
  exact ⟨_, hbody, hapart, (inPlace_iff_apart hbody).2 hapart⟩

theorem isolate_slashes : isolate "// + 'a'".toList = "// + ''".toList := by decide +kernel

/-- In `// + 'a'` the slashes take the literal, and its own place is left empty. -/
theorem not_inPlace_slashes :
    ∃ body, Compile.analyse (Scope.ofNames [] []) (isolate "// + 'a'".toList) = .ok body ∧
      ¬ InPlace (Scope.ofNames [] []) "// + 'a'".toList body ∧
      literals "// + 'a'".toList = ["'a'".toList] ∧
      Literal.fill spell ["'a'".toList] (body.chars Placeholder.chars) = .ok "_add_('a', '')".toList := by
  refine ⟨⟨0, .operate .add [.literal .pattern, .literal (.string .single)]⟩, ?_, ?_, by decide +kernel,
    by decide +kernel⟩
  · rw [isolate_slashes]
    exact Compile.analyse_sum (by decide +kernel) (by decide +kernel)
  · intro hplace
    have hdelimiters : delimiters (pieces "// + 'a'".toList) = ['\x27'] := by decide +kernel
    have hshown := hplace.shown
    rw [hdelimiters] at hshown
    exact absurd hshown (by decide +kernel)

end Places

end NullSafe
