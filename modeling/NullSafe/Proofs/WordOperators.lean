import NullSafe.Proofs.FirstPipe
import NullSafe.Proofs.Fragments
import NullSafe.Proofs.Programs

/-! # Word operators and symbolic ones

The operators outside the literals of an expression are spelled as words. The literals are found as before up to a
pattern behind an operator, where the slash divides what stands before and behind it.
-/

namespace NullSafe

open Text Literal Surface List Compile Piece

section Closing

variable {xs ys : List Char}

inductive Spelled : List Char → List Char → Prop where
  | nil : Spelled [] []
  | operator (op : LogicalOp) {xs ys} (h : Spelled xs ys) : Spelled (op.mark :: op.mark :: xs) (spacedWord op ++ ys)
  | cons (c : Char) {xs ys} (h : Spelled xs ys) : Spelled (c :: xs) (c :: ys)

namespace Spelled

theorem append_left (h : Spelled xs ys) (zs : List Char) : Spelled (zs ++ xs) (zs ++ ys) := by
  induction zs with
  | nil => exact h
  | cons z zs ih => exact .cons z ih

theorem head?_eq_slash_iff (h : Spelled xs ys) : ys.head? = some '/' ↔ xs.head? = some '/' := by
  cases h with
  | nil | cons => exact Iff.rfl
  | operator op => cases op <;> exact iff_of_false nofun nofun

theorem isPlain_spelling (op : LogicalOp) :
    (∀ c ∈ [op.mark, op.mark], isPlain c = true) ∧ ∀ c ∈ spacedWord op, isPlain c = true := by
  cases op <;> decide

/-- The spelling of operators does not matter to what closes a literal, behind a backslash or not. -/
theorem closeLiteral_iff {d : Char} (hd : isDelimiter d = true) (h : Spelled xs ys) :
    (closeLiteral d xs = none ↔ closeLiteral d ys = none) ∧
      (closeLiteral d ('\\' :: xs) = none ↔ closeLiteral d ('\\' :: ys) = none) := by
  induction h with
  | nil => exact ⟨Iff.rfl, Iff.rfl⟩
  | @operator op xs ys _ ih =>
    obtain ⟨hmarks, hword⟩ := isPlain_spelling op
    have hplain : ∀ {gap : List Char} (zs : List Char), (∀ c ∈ gap, isPlain c = true) →
        (closeLiteral d (gap ++ zs) = none ↔ closeLiteral d zs = none) := fun _ hgap => closeLiteral_plains hd hgap
    refine ⟨?_, ?_⟩
    · rw [hplain ys hword, ← ih.1]
      exact hplain xs hmarks
    · have hescaped : closeLiteral d ('\\' :: (spacedWord op ++ ys)) = none ↔
          closeLiteral d (op.word ++ [' '] ++ ys) = none :=
        closeLiteral_escaped (breaks_of_isPlain (by decide)) (op.word ++ [' '] ++ ys)
      rw [closeLiteral_escaped (breaks_of_isPlain (hmarks _ (.head _))), hescaped,
        hplain ys fun c hc => hword c (.tail _ hc), ← ih.1]
      exact hplain xs fun c hc => hmarks c (.tail _ hc)
  | @cons c xs ys _ ih =>
    refine ⟨?_, ?_⟩
    · by_cases hslash : c = '\\'
      · exact hslash ▸ ih.2
      · exact closeLiteral_cons_congr hslash ih.1
    · by_cases hbreak : breaks d c = true
      · exact iff_of_true (by rw [closeLiteral, if_pos hbreak]) (by rw [closeLiteral, if_pos hbreak])
      · rw [Bool.not_eq_true] at hbreak
        rw [closeLiteral_escaped hbreak, closeLiteral_escaped hbreak, ih.1]

end Spelled

end Closing

namespace Literal

/-- What stands for the character of an operator among pieces. -/
def pieceMark (op : LogicalOp) : Piece := .char op.mark

def respellPieces : List Piece → List Piece
  | .char '&' :: .char '&' :: rest => (spacedWord .both).map .char ++ respellPieces rest
  | .char '|' :: .char '|' :: rest => (spacedWord .either).map .char ++ respellPieces rest
  | p :: rest => p :: respellPieces rest
  | [] => []

/-- Whether a pattern stands behind an operator, with nothing but blanks between them. `after` tells whether nothing but
blanks has come since an operator. -/
def patternFollows (after : Bool) : List Piece → Bool
  | .char '&' :: .char '&' :: rest => patternFollows true rest
  | .char '|' :: .char '|' :: rest => patternFollows true rest
  | .char c :: rest => patternFollows (after && isBlank c) rest
  | .literal raw :: rest => after && raw.head? = some '/' || patternFollows false rest
  | [] => false

section Pieces

variable {after : Bool} {c : Char} {raw : List Char} {p : Piece} {ps qs : List Piece}

theorem respellPieces_operator (op : LogicalOp) (ps : List Piece) :
    respellPieces (pieceMark op :: pieceMark op :: ps) = (spacedWord op).map .char ++ respellPieces ps := by
  cases op <;> rw [pieceMark, LogicalOp.mark, respellPieces]

theorem respellPieces_cons (h : ¬ StartsOperator pieceMark (p :: ps)) :
    respellPieces (p :: ps) = p :: respellPieces ps := by
  rw [respellPieces]
  · rintro rest rfl rfl
    exact h ⟨.both, rest, rfl⟩
  · rintro rest rfl rfl
    exact h ⟨.either, rest, rfl⟩

theorem patternFollows_operator (op : LogicalOp) (ps : List Piece) :
    patternFollows after (pieceMark op :: pieceMark op :: ps) = patternFollows true ps := by
  cases op <;> rw [pieceMark, LogicalOp.mark, patternFollows]

theorem patternFollows_char (h : ¬ StartsOperator pieceMark (.char c :: ps)) :
    patternFollows after (.char c :: ps) = patternFollows (after && isBlank c) ps := by
  rw [patternFollows]
  · rintro rest rfl rfl
    exact h ⟨.both, rest, rfl⟩
  · rintro rest rfl rfl
    exact h ⟨.either, rest, rfl⟩

/-- The pieces of a text, and those of the text with its operators spelled as words. A pattern behind an operator is not
found there. -/
inductive Aligned : Bool → List Piece → List Piece → Prop where
  | nil {after : Bool} : Aligned after [] []
  | operator {after : Bool} {ps qs : List Piece} (op : LogicalOp) (h : Aligned true ps qs) :
      Aligned after (pieceMark op :: pieceMark op :: ps) ((spacedWord op).map .char ++ qs)
  | char {after : Bool} {c : Char} {ps qs : List Piece} (hc : ¬ StartsOperator pieceMark (.char c :: ps))
      (h : Aligned (after && isBlank c) ps qs) : Aligned after (.char c :: ps) (.char c :: qs)
  | literal {after : Bool} {raw : List Char} {ps qs : List Piece} (hraw : (after && raw.head? = some '/') = false)
      (h : Aligned false ps qs) : Aligned after (.literal raw :: ps) (.literal raw :: qs)
  | slash {raw : List Char} {ps qs : List Piece} (hraw : raw.head? = some '/')
      (hqs : (qs.flatMap isolated).head? ≠ some '/') : Aligned true (.literal raw :: ps) (.char '/' :: qs)

theorem not_startsOperator_literal : ¬ StartsOperator pieceMark (.literal raw :: ps) := by
  rintro ⟨op, rest, he⟩
  cases (List.cons.inj he).1

theorem Aligned.eq_respellPieces (h : Aligned after ps qs) (hpattern : patternFollows after ps = false) :
    qs = respellPieces ps := by
  induction h with
  | nil => rfl
  | operator op _ ih =>
    rw [patternFollows_operator] at hpattern
    rw [respellPieces_operator, ih hpattern]
  | char hc _ ih =>
    rw [patternFollows_char hc] at hpattern
    rw [respellPieces_cons hc, ih hpattern]
  | literal hraw _ ih =>
    rw [patternFollows, Bool.or_eq_false_iff] at hpattern
    rw [respellPieces_cons not_startsOperator_literal, ih hpattern.2]
  | slash hraw =>
    rw [patternFollows, Bool.or_eq_false_iff, hraw] at hpattern
    cases hpattern.1

def SlashFollows (cs : List Char) : Prop :=
  ∃ (op : LogicalOp) (before gap after : List Char), (∀ c ∈ gap, isBlank c = true) ∧ after.head? ≠ some '/' ∧
    cs = before ++ (spacedWord op ++ (gap ++ '/' :: after))

theorem SlashFollows.append {cs : List Char} (h : SlashFollows cs) (xs : List Char) : SlashFollows (xs ++ cs) := by
  obtain ⟨op, before, gap, after, hgap, hafter, rfl⟩ := h
  exact ⟨op, xs ++ before, gap, after, hgap, hafter, by rw [append_assoc]⟩

/-- A slash is left where the pattern behind an operator is not found. -/
theorem Aligned.slashFollows (h : Aligned after ps qs) (hpattern : patternFollows after ps = true) :
    SlashFollows (qs.flatMap isolated) ∨ after = true ∧ ∃ gap rest, Blank gap ∧
      rest.head? ≠ some '/' ∧ qs.flatMap isolated = gap ++ '/' :: rest := by
  induction h with
  | nil => cases hpattern
  | @operator after ps qs op _ ih =>
    rw [patternFollows_operator] at hpattern
    have hword : ((spacedWord op).map Piece.char ++ qs).flatMap isolated = spacedWord op ++ qs.flatMap isolated := by
      cases op <;> rfl
    rw [hword]
    left
    rcases ih hpattern with h | ⟨-, gap, rest, hgap, hrest, he⟩
    · exact h.append _
    · exact ⟨op, [], gap, rest, hgap, hrest, by rw [he, nil_append]⟩
  | @char after c ps qs hc _ ih =>
    rw [patternFollows_char hc] at hpattern
    rcases ih hpattern with h | ⟨hafter, gap, rest, hgap, hrest, he⟩
    · exact .inl (h.append [c])
    · obtain ⟨rfl, hblank⟩ := Bool.and_eq_true_iff.1 hafter
      refine .inr ⟨rfl, c :: gap, rest, forall_mem_cons.2 ⟨hblank, hgap⟩, hrest, ?_⟩
      rw [flatMap_cons, he]
      rfl
  | @literal after raw ps qs hraw _ ih =>
    rw [patternFollows, hraw, Bool.false_or] at hpattern
    rcases ih hpattern with h | ⟨hafter, -⟩
    · exact .inl (h.append _)
    · cases hafter
  | @slash raw ps qs _ hqs => exact .inr ⟨rfl, [], qs.flatMap isolated, nofun, hqs, rfl⟩

end Pieces

section Reading

variable {after : Bool} {last last' : Option Char} {c : Char} {cs ys raw rest : List Char} {ps : List Piece}

theorem exists_of_piecesFrom_char (h : piecesFrom last cs = .char c :: ps) :
    ∃ cs', cs = c :: cs' ∧ readLiteral? last cs = none ∧ piecesFrom (lastAfter last c) cs' = ps := by
  rcases cs with _ | ⟨x, cs⟩
  · rw [piecesFrom] at h
    cases h
  · rcases hr : readLiteral? last (x :: cs) with _ | ⟨raw, rest⟩
    · rw [piecesFrom_char hr] at h
      cases h
      exact ⟨cs, rfl, rfl, rfl⟩
    · rw [piecesFrom_literal hr] at h
      cases (List.cons.inj h).1

theorem exists_of_piecesFrom_literal (h : piecesFrom last cs = .literal raw :: ps) :
    ∃ rest, readLiteral? last cs = some (raw, rest) ∧ piecesFrom raw.head? rest = ps := by
  rcases cs with _ | ⟨x, cs⟩
  · rw [piecesFrom] at h
    cases h
  · rcases hr : readLiteral? last (x :: cs) with _ | ⟨raw', rest⟩
    · rw [piecesFrom_char hr] at h
      cases (List.cons.inj h).1
    · rw [piecesFrom_literal hr] at h
      cases h
      refine ⟨rest, rfl, ?_⟩
      obtain ⟨happ, a, b, tail, rfl, -⟩ := readLiteral?_eq_some hr
      rw [(List.cons.inj happ).1]
      rfl

/-- Whether an operand can start is the same for both spellings, except right behind an operator. -/
inductive Related : Bool → Option Char → Option Char → Prop where
  | same {last last' : Option Char} (h : operandCanStart last = operandCanStart last') : Related false last last'
  | after {last last' : Option Char} (h : operandCanStart last = true) (h' : operandCanStart last' = false) :
      Related true last last'

variable (h : Related after last last')

include h

theorem Related.lastAfter (c : Char) : Related (after && isBlank c) (lastAfter last c) (lastAfter last' c) := by
  unfold Literal.lastAfter
  rcases hc : isBlank c with _ | _
  · rw [Bool.and_false]
    exact .same rfl
  · rw [Bool.and_true]
    exact h

theorem Related.canStart (h' : operandCanStart last' = true) : operandCanStart last = true := by
  cases h with
  | same h => rw [h, h']
  | after h => exact h

theorem Related.readLiteral_none (hcs : Spelled cs ys) (hnone : readLiteral? last (c :: cs) = none) :
    readLiteral? last' (c :: ys) = none := by
  rw [readLiteral?_cons] at hnone ⊢
  split
  · rename_i hopen
    have hopen' : opens last c cs = true := by
      simp only [opens, Bool.or_eq_true, Bool.and_eq_true, bne_iff_ne, ne_eq] at hopen ⊢
      exact hopen.imp_right fun hopen =>
        ⟨⟨hopen.1.1, h.canStart hopen.1.2⟩, fun he => hopen.2 (hcs.head?_eq_slash_iff.2 he)⟩
    rw [if_pos hopen', Option.map_eq_none_iff] at hnone
    rw [(hcs.closeLiteral_iff (isDelimiter_of_opens hopen)).1.1 hnone]
    rfl
  · rfl

/-- A literal is read in the other spelling, unless it is a pattern right behind an operator. -/
theorem Related.readLiteral_some (hraw : (after && raw.head? = some '/') = false)
    (hread : readLiteral? last cs = some (raw, rest)) (hrest : Spelled rest ys) :
    readLiteral? last' (raw ++ ys) = some (raw, ys) := by
  have hflag : raw.head? = some '/' → ∀ c ∈ ys.head?, c.isAlpha = false := by
    intro hslash
    have hletter := not_isAlpha_of_readLiteral hread hslash
    cases hrest with
    | nil | cons => exact hletter
    | operator op =>
      rintro c ⟨⟩
      rfl
  have hstart : (raw ++ ys).head? = some '/' → operandCanStart last' = operandCanStart last := by
    intro hslash
    obtain ⟨-, a, b, tail, rfl, -⟩ := readLiteral?_eq_some hread
    cases h with
    | same h => exact h.symm
    | after =>
      rw [Bool.true_and, decide_eq_false_iff_not] at hraw
      exact absurd hslash hraw
  rw [readLiteral?_congr hstart, readLiteral_append hread hflag]

omit h

theorem piecesFrom_spacedWord (op : LogicalOp) (last : Option Char) (ys : List Char) :
    piecesFrom last (spacedWord op ++ ys) = (spacedWord op).map .char ++ piecesFrom op.word.getLast? ys := by
  cases op
  · change piecesFrom last (' ' :: 'a' :: 'n' :: 'd' :: ' ' :: ys) = _
    rw [piecesFrom_char rfl, piecesFrom_char rfl, piecesFrom_char rfl, piecesFrom_char rfl, piecesFrom_char rfl]
    rfl
  · change piecesFrom last (' ' :: 'o' :: 'r' :: ' ' :: ys) = _
    rw [piecesFrom_char rfl, piecesFrom_char rfl, piecesFrom_char rfl, piecesFrom_char rfl]
    rfl

theorem text_respellPieces_operator (op : LogicalOp) (rest : List Piece) :
    ((spacedWord op).map Piece.char ++ respellPieces rest).flatMap Piece.text =
      spacedWord op ++ (respellPieces rest).flatMap Piece.text := by
  cases op <;> rfl

theorem spelled_pieces (ps : List Piece) : Spelled (ps.flatMap Piece.text) ((respellPieces ps).flatMap Piece.text) := by
  induction ps using operator_induct pieceMark with
  | hnil => exact .nil
  | hop op rest ih =>
    rw [respellPieces_operator, text_respellPieces_operator]
    exact .operator op ih
  | hcons p rest h ih =>
    rw [respellPieces_cons h, flatMap_cons, flatMap_cons]
    exact ih.append_left _

/-- The pieces of a text and those of the text with its operators spelled as words. -/
theorem aligned_respelled (h : Related after last last') (hps : piecesFrom last cs = ps) :
    Aligned after ps (piecesFrom last' ((respellPieces ps).flatMap Piece.text)) := by
  induction ps using operator_induct pieceMark generalizing after last last' cs with
  | hnil =>
    rw [respellPieces, flatMap_nil, piecesFrom]
    exact .nil
  | hop op rest ih =>
    rw [respellPieces_operator, text_respellPieces_operator, piecesFrom_spacedWord]
    obtain ⟨cs₁, rfl, -, hrest⟩ := exists_of_piecesFrom_char hps
    obtain ⟨cs₂, rfl, -, hrest⟩ := exists_of_piecesFrom_char hrest
    have hmark : lastAfter (lastAfter last op.mark) op.mark = some op.mark := by cases op <;> rfl
    rw [hmark] at hrest
    exact .operator op (ih (.after (by cases op <;> decide) (by cases op <;> decide)) hrest)
  | hcons p rest hp ih =>
    have hspelled := spelled_pieces rest
    rw [respellPieces_cons hp, flatMap_cons]
    rcases p with c | raw
    · obtain ⟨cs', rfl, hnone, hrest⟩ := exists_of_piecesFrom_char hps
      rw [← hrest, text_piecesFrom, hrest] at hspelled
      change Aligned after _ (piecesFrom last' (c :: (respellPieces rest).flatMap Piece.text))
      rw [piecesFrom_char (h.readLiteral_none hspelled hnone)]
      exact .char hp (ih (h.lastAfter c) hrest)
    · obtain ⟨tail, hread, hrest⟩ := exists_of_piecesFrom_literal hps
      rw [← hrest, text_piecesFrom, hrest] at hspelled
      obtain ⟨-, a, b, tail', rfl, hslashes⟩ := readLiteral?_eq_some hread
      rcases hraw : after && decide ((a :: b :: tail').head? = some '/') with _ | _
      · have hread' := h.readLiteral_some hraw hread hspelled
        rw [cons_append] at hread'
        rw [Piece.text, cons_append, piecesFrom_literal hread']
        exact .literal hraw (ih (.same rfl) hrest)
      · obtain ⟨rfl, hslash⟩ := Bool.and_eq_true_iff.1 hraw
        obtain rfl : a = '/' := by simpa using hslash
        cases h with
        | after _ h =>
          have hnone : readLiteral? last' ('/' :: (b :: tail' ++ (respellPieces rest).flatMap Piece.text)) = none := by
            simp [readLiteral?, h]
          rw [Piece.text, cons_append, piecesFrom_char hnone]
          refine .slash rfl ?_
          rw [head?_isolated]
          exact fun hb => hslashes ⟨rfl, Option.some.inj hb⟩

end Reading

section Isolating

variable {cs : List Char} {ps : List Piece}

/-- An expression with the operators outside its literals spelled as words. -/
def respelled (cs : List Char) : List Char := (respellPieces (pieces cs)).flatMap Piece.text

theorem literals_respellPieces (ps : List Piece) : (respellPieces ps).filterMap literal? = ps.filterMap literal? := by
  induction ps using operator_induct pieceMark with
  | hnil => rfl
  | hop op rest ih =>
    rw [respellPieces_operator, filterMap_append, ih]
    cases op <;> rfl
  | hcons p rest h ih => rw [respellPieces_cons h, filterMap_cons, filterMap_cons, ih]

theorem isolated_respellPieces (h : ∀ p ∈ ps, p.IsWhole) :
    (respellPieces ps).flatMap isolated = respell (ps.flatMap isolated) := by
  induction ps using operator_induct pieceMark with
  | hnil => rfl
  | hop op rest ih =>
    have hrest := ih (forall_mem_cons.1 (forall_mem_cons.1 h).2).2
    rw [respellPieces_operator, flatMap_append, hrest]
    change _ = respell (op.mark :: op.mark :: rest.flatMap isolated)
    rw [respell_operator_append]
    cases op <;> rfl
  | hcons p rest hp ih =>
    obtain ⟨hwhole, hrest⟩ := forall_mem_cons.1 h
    rw [respellPieces_cons hp, flatMap_cons, flatMap_cons, ih hrest]
    rcases p with c | raw
    · have hstart : ¬ StartsOperator LogicalOp.mark (c :: rest.flatMap isolated) := by
        rintro ⟨op, tail, he⟩
        obtain ⟨rfl, htail⟩ := List.cons.inj he
        have hhead := head?_flatMap_isolated hrest
        rw [htail] at hhead
        rcases rest with _ | ⟨x | raw, rest⟩
        · cases htail
        · obtain rfl : op.mark = x := Option.some.inj hhead
          exact hp ⟨op, rest, rfl⟩
        · obtain ⟨⟨x, tail', rfl, hx⟩, -⟩ := hrest _ (.head _)
          obtain rfl : op.mark = x := Option.some.inj hhead
          cases op <;> cases hx
      exact (respell_cons hstart).symm
    · obtain ⟨⟨q, tail, rfl, hq⟩, -⟩ := hwhole
      refine (respell_append_left fun c hc op hmark => ?_).symm
      obtain rfl : c = q := by simpa [isolated] using hc
      rw [hmark] at hq
      cases op <;> cases hq

/-- Where no pattern follows an operator, respelling changes only the operators outside literals. -/
theorem isolate_respelled (h : patternFollows false (pieces cs) = false) :
    isolate (respelled cs) = respell (isolate cs) ∧ literals (respelled cs) = literals cs := by
  have hpieces : pieces (respelled cs) = respellPieces (pieces cs) :=
    (aligned_respelled (.same rfl) rfl).eq_respellPieces h
  rw [isolate, literals, hpieces]
  exact ⟨isolated_respellPieces (isWhole_of_mem_piecesFrom none cs), literals_respellPieces _⟩

/-- Where a pattern follows an operator, the respelled expression has no tree. -/
theorem not_hasTree_respelled (h : patternFollows false (pieces cs) = true) (t : Expr Placeholder) :
    ¬ HasTree (isolate (respelled cs)) t := by
  have haligned : Aligned false (pieces cs) (pieces (respelled cs)) := aligned_respelled (.same rfl) rfl
  rcases haligned.slashFollows h with ⟨op, before, gap, after, hgap, hafter, he⟩ | ⟨hfalse, -⟩
  · have hin : (slashFragment op gap hgap).In (isolate (respelled cs)) := by
      refine ⟨before ++ [' '], after, ?_, ?_, hafter⟩
      · rw [isolate, he]
        simp [slashFragment, spacedWord]
      · change wordCanStart (before ++ [' ']).getLast? = true
        rw [getLast?_concat]
        decide
    exact not_hasTree_of_slashFragment hin
  · cases hfalse

end Isolating

end Literal

section Requests

variable {functionName : String} {globals : List String} {r r' : Request} {generated : Generated}

theorem Compile.analyse_eq_ok_iff {scope : Scope} {cs : List Char} {body : Body Placeholder} :
    analyse scope cs = .ok body ↔ ∃ t, HasTree cs t ∧ emit scope t = .ok body := by
  constructor
  · intro h
    obtain ⟨unpiped, t, hunpiped, ht, hemit⟩ := analyse_eq_ok h
    exact ⟨t, ⟨unpiped, hunpiped, ht⟩, hemit⟩
  · rintro ⟨t, ⟨unpiped, hunpiped, ht⟩, hemit⟩
    exact analyse_of_emit hunpiped ht hemit

theorem Compile.exists_hasTree (h : run functionName globals r = .ok generated) :
    ∃ t, HasTree (isolate r.expression.toList) t := by
  obtain ⟨body, _, hbody, -, -⟩ := run_eq_ok h
  obtain ⟨t, ht, -⟩ := analyse_eq_ok_iff.1 hbody
  exact ⟨t, ht⟩

/-- What is compiled depends on the tree and the literals of an expression. -/
theorem Compile.run_of_hasTree_iff (harguments : r'.arguments = r.arguments) (hsetter : r'.setter = r.setter)
    (hliterals : literals r'.expression.toList = literals r.expression.toList)
    (htree : ∀ t, HasTree (isolate r'.expression.toList) t ↔ HasTree (isolate r.expression.toList) t)
    (h : run functionName globals r = .ok generated) : run functionName globals r' = .ok generated := by
  obtain ⟨body, _, hbody, -, -⟩ := run_eq_ok h
  have hbody' : analyse (r.scope globals) (isolate r'.expression.toList) = .ok body := by
    obtain ⟨t, ht, hemit⟩ := analyse_eq_ok_iff.1 hbody
    exact analyse_eq_ok_iff.2 ⟨t, (htree t).2 ht, hemit⟩
  unfold run at h ⊢
  dsimp only at h ⊢
  rw [hbody] at h
  rw [harguments, hliterals, hsetter, hbody']
  dsimp only at h ⊢
  rcases hfill : body.fill (literals r.expression.toList) with f | code <;> rw [hfill] at h
  · cases h
  · dsimp only at h ⊢
    split at h
    · cases h
    · rename_i hbuildable
      rwa [if_neg hbuildable]

/-- Both requests are refused, or the same function with the same text is generated for both. -/
def Compile.Interchangeable (functionName : String) (globals : List String) (r r' : Request) : Prop :=
  (∃ generated, run functionName globals r = .ok generated ∧ run functionName globals r' = .ok generated) ∨
    (¬ ∃ generated, run functionName globals r = .ok generated) ∧
      ¬ ∃ generated, run functionName globals r' = .ok generated

def Request.respelled (r : Request) : Request :=
  { r with expression := String.ofList (Literal.respelled r.expression.toList) }

/-- A pattern literal stands behind an operator, with nothing but blanks between them. -/
def Request.PatternFollows (r : Request) : Prop := patternFollows false (pieces r.expression.toList) = true

/-- Outside literals, an operator stands behind a bar, with nothing but blanks between them. -/
def Request.OperatorFollowsBar (r : Request) : Prop := Surface.OperatorFollowsBar (isolate r.expression.toList)

theorem Request.PatternFollows.not_run (h : r.PatternFollows) :
    ¬ ∃ generated, run functionName globals r.respelled = .ok generated := by
  rintro ⟨generated, hrun⟩
  obtain ⟨t, ht⟩ := exists_hasTree hrun
  rw [Request.respelled, String.toList_ofList] at ht
  exact not_hasTree_respelled h t ht

theorem Request.OperatorFollowsBar.not_run (h : r.OperatorFollowsBar) :
    ¬ ∃ generated, run functionName globals r = .ok generated := by
  rintro ⟨generated, hrun⟩
  obtain ⟨t, ht⟩ := exists_hasTree hrun
  exact Surface.OperatorFollowsBar.not_hasTree h ht

/-- Where neither a pattern follows an operator nor an operator a bar, the spelling of the operators does not matter. -/
theorem Compile.run_respelled_iff (hpattern : ¬ r.PatternFollows) (hbar : ¬ r.OperatorFollowsBar) :
    run functionName globals r.respelled = .ok generated ↔ run functionName globals r = .ok generated := by
  obtain ⟨hisolate, hliterals⟩ := isolate_respelled (Bool.not_eq_true _ ▸ hpattern)
  have htext : r.respelled.expression.toList = Literal.respelled r.expression.toList := String.toList_ofList
  rw [← htext] at hisolate hliterals
  have htree : ∀ t, HasTree (isolate r.respelled.expression.toList) t ↔ HasTree (isolate r.expression.toList) t := by
    intro t
    rw [hisolate]
    exact hasTree_respell_iff hbar
  exact ⟨run_of_hasTree_iff rfl rfl hliterals.symm fun t => (htree t).symm, run_of_hasTree_iff rfl rfl hliterals htree⟩

/-- Word operators are interchangeable with symbolic ones, except that a pattern is not found behind a word, and that a
word behind a bar is the name of a formatter. -/
theorem interchangeable_iff (functionName : String) (globals : List String) (r : Request) :
    Compile.Interchangeable functionName globals r r.respelled ↔
      ¬ (r.PatternFollows ∧ ∃ generated, Compile.run functionName globals r = .ok generated) ∧
        ¬ (r.OperatorFollowsBar ∧ ∃ generated, Compile.run functionName globals r.respelled = .ok generated) := by
  constructor
  · rintro (⟨generated, hrun, hrun'⟩ | ⟨hrun, hrun'⟩)
    · exact ⟨fun h => h.1.not_run ⟨generated, hrun'⟩, fun h => h.1.not_run ⟨generated, hrun⟩⟩
    · exact ⟨fun h => hrun h.2, fun h => hrun' h.2⟩
  · rintro ⟨hpattern, hbar⟩
    by_cases hp : r.PatternFollows
    · exact .inr ⟨fun h => hpattern ⟨hp, h⟩, hp.not_run⟩
    by_cases hb : r.OperatorFollowsBar
    · exact .inr ⟨hb.not_run, fun h => hbar ⟨hb, h⟩⟩
    · have hiff := fun {generated} => @Compile.run_respelled_iff functionName globals r generated hp hb
      rcases hrun : Compile.run functionName globals r with stop | generated
      · refine .inr ⟨fun ⟨generated, h⟩ => ?_, fun ⟨generated, h⟩ => ?_⟩
        · rw [hrun] at h
          cases h
        · rw [hiff, hrun] at h
          cases h
      · exact .inl ⟨generated, hrun, hiff.2 hrun⟩

def patternRequest : Request := ⟨"a && /b/", [], false⟩

def patternTree {ι : Type} (x : ι) : Expr ι := .logical .both (.name "a") (.literal x)

theorem parse_pattern : parse "a && //".toList = .ok (patternTree .pattern) := by
  let operand (d : Derivation .primary) : Derivation (.operation 4) := .raised (.operand (.chain d .linked)) 4
  let both : Derivation (.operation 5) := .operation (operand (.name ['a'] (by decide)))
    (.join (.logical .both) rfl (operand (.literal .pattern)) .joined)
  let d : Derivation .assign := .alone (both.raised 1)
  exact parse_of_derivation d (by decide +kernel) (by unfold Fit; decide +kernel) (by repeat' constructor)

theorem isTree_pattern : patternRequest.IsTree (patternTree (.literal (.pattern "b" ""))) := by
  refine ⟨"a && //".toList, patternTree .pattern, by decide +kernel, ?_, ?_⟩
  · rw [show replaceWords "a && //".toList = "a && //".toList by decide]
    exact parse_pattern
  · rw [show literals patternRequest.expression.toList = ["/b/".toList] by decide +kernel]
    rfl

/-- A pattern is compiled behind a symbolic operator and not behind a word. -/
theorem not_interchangeable_pattern : patternRequest.respelled.expression = "a  and  /b/" ∧
    (∃ generated, Compile.run "expression" [] patternRequest = .ok generated) ∧
    (¬ ∃ generated, Compile.run "expression" [] patternRequest.respelled = .ok generated) ∧
    ¬ Compile.Interchangeable "expression" [] patternRequest patternRequest.respelled := by
  have hrun : ∃ generated, Compile.run "expression" [] patternRequest = .ok generated :=
    (Compile.exists_run_iff isTree_pattern).2 (by decide +kernel)
  have hpattern : patternRequest.PatternFollows := by unfold Request.PatternFollows; decide +kernel
  refine ⟨by decide +kernel, hrun, hpattern.not_run, ?_⟩
  rintro (⟨generated, -, hrun'⟩ | ⟨hnone, -⟩)
  · exact hpattern.not_run ⟨generated, hrun'⟩
  · exact hnone hrun

end Requests

end NullSafe
