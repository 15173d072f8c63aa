import NullSafe.Proofs.Layouts

/-! # Operators spelled as words

The logical operators of a text are spelled as words. The text has the same tokens then, as long as an operand follows
each operator.
-/

namespace NullSafe.Surface

open Text List

/-- A text with its logical operators spelled as words. -/
def respell : List Char → List Char
  | '&' :: '&' :: rest => ' ' :: 'a' :: 'n' :: 'd' :: ' ' :: respell rest
  | '|' :: '|' :: rest => ' ' :: 'o' :: 'r' :: ' ' :: respell rest
  | c :: rest => c :: respell rest
  | [] => []

namespace LogicalOp

def mark : LogicalOp → Char
  | both => '&'
  | either => '|'

def word : LogicalOp → List Char
  | both => ['a', 'n', 'd']
  | either => ['o', 'r']

end LogicalOp

/-- A sequence starts with an operator, given what stands for its character. -/
def StartsOperator {α : Type} (mark : LogicalOp → α) (as : List α) : Prop :=
  ∃ (op : LogicalOp) (rest : List α), as = mark op :: mark op :: rest

theorem operator_induct {α : Type} (mark : LogicalOp → α) {P : List α → Prop} (hnil : P [])
    (hop : ∀ (op : LogicalOp) rest, P rest → P (mark op :: mark op :: rest))
    (hcons : ∀ a rest, ¬ StartsOperator mark (a :: rest) → P rest → P (a :: rest)) (as : List α) : P as := by
  induction hlength : as.length using Nat.strongRecOn generalizing as with
  | ind n ih =>
    subst hlength
    rcases as with _ | ⟨a, rest⟩
    · exact hnil
    by_cases h : StartsOperator mark (a :: rest)
    · obtain ⟨op, rest', he⟩ := h
      have hlt : rest'.length < (a :: rest).length := by
        rw [he, length_cons, length_cons]
        omega
      rw [he]
      exact hop op rest' (ih _ hlt rest' rfl)
    · exact hcons a rest h (ih _ (Nat.lt_succ_self _) rest rfl)

section Texts

variable {c : Char} {xs ys : List Char}

theorem respell_operator (op : LogicalOp) (rest : List Char) :
    respell (op.mark :: op.mark :: rest) = ' ' :: (op.word ++ ' ' :: respell rest) := by
  cases op <;> rw [LogicalOp.mark, respell] <;> rfl

theorem respell_cons (h : ¬ StartsOperator LogicalOp.mark (c :: xs)) : respell (c :: xs) = c :: respell xs := by
  rw [respell]
  · rintro rest rfl rfl
    exact h ⟨.both, rest, rfl⟩
  · rintro rest rfl rfl
    exact h ⟨.either, rest, rfl⟩

theorem not_startsOperator_of_ne (hc : ∀ op : LogicalOp, c ≠ op.mark) : ¬ StartsOperator LogicalOp.mark (c :: xs) := by
  rintro ⟨op, rest, he⟩
  exact hc op (List.cons.inj he).1

theorem respell_append (h : ∀ op : LogicalOp, xs.getLast? = some op.mark → ys.head? ≠ some op.mark) :
    respell (xs ++ ys) = respell xs ++ respell ys := by
  induction xs using operator_induct LogicalOp.mark with
  | hnil => rfl
  | hop op rest ih =>
    have hrest : respell (rest ++ ys) = respell rest ++ respell ys := by
      refine ih fun op' hlast => h op' ?_
      rcases rest with _ | ⟨x, rest⟩
      · cases hlast
      · exact hlast
    simp only [cons_append, respell_operator, hrest, append_assoc]
  | hcons x rest hx ih =>
    rcases rest with _ | ⟨y, rest⟩
    · have hboth : ¬ StartsOperator LogicalOp.mark (x :: ys) := by
        rintro ⟨op, rest, he⟩
        obtain ⟨rfl, rfl⟩ := List.cons.inj he
        exact h op rfl rfl
      rw [singleton_append, respell_cons hboth, respell_cons hx]
      rfl
    · have hboth : ¬ StartsOperator LogicalOp.mark (x :: (y :: rest ++ ys)) := by
        rintro ⟨op, rest', he⟩
        obtain ⟨rfl, htail⟩ := List.cons.inj he
        exact hx ⟨op, rest, by rw [(List.cons.inj htail).1]⟩
      rw [cons_append, respell_cons hboth, respell_cons hx, ih h, cons_append]

theorem respell_append_cons (hc : ∀ op : LogicalOp, c ≠ op.mark) :
    respell (xs ++ c :: ys) = respell xs ++ c :: respell ys := by
  have hends : ∀ op : LogicalOp, xs.getLast? = some op.mark → (c :: ys).head? ≠ some op.mark :=
    fun op _ he => hc op (Option.some.inj he)
  rw [respell_append hends, respell_cons (not_startsOperator_of_ne hc)]

theorem respell_append_left (h : ∀ c ∈ xs, ∀ op : LogicalOp, c ≠ op.mark) : respell (xs ++ ys) = xs ++ respell ys := by
  induction xs with
  | nil => rfl
  | cons c xs ih =>
    obtain ⟨hc, hxs⟩ := forall_mem_cons.1 h
    rw [cons_append, respell_cons (not_startsOperator_of_ne hc), ih hxs, cons_append]

theorem ne_mark_of_isBlank (h : isBlank c = true) (op : LogicalOp) : c ≠ op.mark := by
  rintro rfl
  cases op <;> exact absurd h (by decide)

theorem head?_respell (xs : List Char) :
    (respell xs).head? = xs.head? ∨ (respell xs).head? = some ' ' ∧ ∃ op : LogicalOp, xs.head? = some op.mark := by
  rcases xs with _ | ⟨c, xs⟩
  · exact .inl rfl
  by_cases h : StartsOperator LogicalOp.mark (c :: xs)
  · obtain ⟨op, rest, he⟩ := h
    rw [he, respell_operator]
    exact .inr ⟨rfl, op, rfl⟩
  · rw [respell_cons h]
    exact .inl rfl

end Texts

section Tokens

variable {op : LogicalOp} {xs ys zs : List Char} {ls : List Lexeme}

theorem lexes_operator_iff {rest : List Char} :
    Lexes (op.mark :: op.mark :: rest) ls ↔ ∃ ls', Lexes rest ls' ∧ ls = .symbol op.symbol :: ls' := by
  have hblank : isBlank op.mark = false := by cases op <;> decide
  have hread : readLexeme? (op.mark :: op.mark :: rest) = some (.symbol op.symbol, rest) := by cases op <;> rfl
  exact lexes_read_iff hblank hread

theorem isLogical_symbol (op : LogicalOp) : (Lexeme.symbol op.symbol).isLogical = true := by cases op <;> rfl

theorem startsOperand_symbol (op : LogicalOp) : (Lexeme.symbol op.symbol).startsOperand = false := by cases op <;> rfl

theorem readLexeme?_mark (xs : List Char) :
    readLexeme? (op.mark :: xs) = (Symbol.read? (op.mark :: xs)).map fun (s, r) => (.symbol s, r) := by
  cases op <;> rfl

theorem exists_of_lexes_mark (h : Lexes (op.mark :: xs) ls) :
    ∃ rest ls', xs = op.mark :: rest ∧ Lexes rest ls' ∧ ls = .symbol op.symbol :: ls' := by
  have hblank : isBlank op.mark = false := by cases op <;> decide
  have hxs : ∃ rest, xs = op.mark :: rest := by
    rcases xs with _ | ⟨x, xs⟩
    · cases h with
      | blank hc => rw [hblank] at hc; cases hc
      | read _ hl => rw [readLexeme?_mark] at hl; cases op <;> cases hl
    · refine ⟨xs, congrArg (· :: xs) ?_⟩
      by_contra hx
      have hnone : Symbol.read? (op.mark :: x :: xs) = none := by
        cases op <;> simp only [LogicalOp.mark] at hx <;> simp [LogicalOp.mark, Symbol.read?, hx]
      cases h with
      | blank hc => rw [hblank] at hc; cases hc
      | read _ hl => rw [readLexeme?_mark, hnone] at hl; cases hl
  obtain ⟨rest, rfl⟩ := hxs
  obtain ⟨ls', hls', rfl⟩ := lexes_operator_iff.1 h
  exact ⟨rest, ls', rfl, hls', rfl⟩

theorem not_joined_operators {op' : LogicalOp} {xs ys : List Lexeme} :
    ¬ Joined (xs ++ Lexeme.symbol op.symbol :: .symbol op'.symbol :: ys) := by
  intro h
  have hpair := (isChain_cons_cons.1 (isChain_append.1 h).2.1).1 (isLogical_symbol op)
  rw [startsOperand_symbol] at hpair
  cases hpair

theorem endsBefore_mark (h : xs.getLast? ≠ some op.mark) : EndsBefore xs op.mark :=
  .inr ⟨by cases op <;> decide, h⟩

theorem chars_symbol (op : LogicalOp) : op.symbol.chars = [op.mark, op.mark] := by cases op <;> rfl

theorem eq_of_mark_mem {l : Lexeme} {after : List Char} (h : readLexeme? xs = some (l, after))
    (hmem : op.mark ∈ l.chars) : l = .symbol op.symbol := by
  obtain ⟨happ, -⟩ := readLexeme?_eq_some h
  obtain ⟨u, v, hchars, hu⟩ := eq_append_cons_of_mem hmem
  rw [← happ, hchars, append_assoc, cons_append] at h
  rcases u with _ | ⟨x, u⟩
  · rw [nil_append, readLexeme?_mark] at h
    obtain ⟨⟨s, r⟩, hs, he⟩ := Option.map_eq_some_iff.1 h
    cases he
    obtain ⟨hs', -⟩ := Symbol.read?_eq_some hs
    cases op <;> cases s <;> first | rfl | cases hs'
  · have hends : EndsBefore (x :: u) op.mark := endsBefore_mark fun hlast => hu (mem_of_getLast? hlast)
    rw [readLexeme?_append hends nofun] at h
    obtain ⟨⟨l', r⟩, hr, he⟩ := Option.map_eq_some_iff.1 h
    obtain rfl := (Prod.mk.inj he).1
    have hlength := congrArg List.length (readLexeme?_eq_some hr).1
    rw [hchars] at hlength
    simp at hlength

/-- The tokens of a text that ends with the mark of an operator end with the operator. -/
theorem getLast?_of_lexes_mark (h : Lexes xs ls) (hlast : xs.getLast? = some op.mark) :
    ls.getLast? = some (.symbol op.symbol) := by
  induction h with
  | nil => cases hlast
  | @blank c rest ls hc _ ih =>
    rcases rest with _ | ⟨x, rest⟩
    · cases hlast
      exact absurd hc (by cases op <;> decide)
    · exact ih hlast
  | @read c rest after l ls _ hl h ih =>
    rw [← (readLexeme?_eq_some hl).1] at hlast
    rcases hafter : after.getLast? with _ | x
    · obtain rfl := getLast?_eq_none_iff.1 hafter
      obtain rfl := lexes_nil_iff.1 h
      rw [append_nil] at hlast
      rw [eq_of_mark_mem hl (mem_of_getLast? hlast)]
      rfl
    · rw [getLast?_append, hafter] at hlast
      cases hlast
      rw [getLast?_cons, ih hafter]
      rfl

/-- Three marks in a row are no joined operators. -/
theorem not_joined_of_three (h : Lexes (xs ++ op.mark :: op.mark :: op.mark :: ys) ls) : ¬ Joined ls := by
  have htwice : ∀ {zs ls}, Lexes (op.mark :: zs) ls → ¬ Joined (.symbol op.symbol :: ls) := by
    intro zs ls h
    obtain ⟨rest, ls', -, -, rfl⟩ := exists_of_lexes_mark h
    exact @not_joined_operators op op [] ls'
  generalize hcs : xs ++ op.mark :: op.mark :: op.mark :: ys = cs at h
  induction h generalizing xs with
  | nil => simp at hcs
  | @blank c rest ls hc _ ih =>
    rcases xs with _ | ⟨x, xs⟩
    · cases hcs
      exact absurd hc (by cases op <;> decide)
    · exact ih (List.cons.inj hcs).2
  | @read c rest after l ls _ hl h ih =>
    obtain ⟨happ, hne⟩ := readLexeme?_eq_some hl
    rw [← hcs] at happ
    rcases append_eq_append_iff.1 happ with ⟨zs, hzs, hafter⟩ | ⟨zs, hzs, hafter⟩
    · exact fun hjoined => ih hafter.symm hjoined.tail
    · rcases zs with _ | ⟨z, zs⟩
      · exact fun hjoined => @ih [] hafter hjoined.tail
      · -- the token reaches into the marks, so it is the operator
        obtain ⟨rfl, htail⟩ := List.cons.inj hafter
        have hl' := eq_of_mark_mem hl (hzs ▸ mem_append_right _ (.head _))
        subst hl'
        rw [Lexeme.chars, chars_symbol] at hzs
        rcases xs with _ | ⟨x, _ | ⟨y, xs⟩⟩
        · obtain rfl : [op.mark] = zs := (List.cons.inj hzs).2
          obtain rfl : op.mark :: ys = after := (List.cons.inj htail).2
          exact htwice h
        · obtain rfl : [] = zs := (List.cons.inj (List.cons.inj hzs).2).2
          obtain rfl : op.mark :: op.mark :: ys = after := htail
          exact htwice h
        · simp at hzs

/-- Two texts have the same tokens, if an operand follows each operator. -/
def Alike (xs ys : List Char) : Prop := ∀ ls, Joined ls → (Lexes xs ls ↔ Lexes ys ls)

theorem Alike.parse_iff {t : Expr Placeholder} (h : Alike xs ys) : parse xs = .ok t ↔ parse ys = .ok t := by
  rw [parse_eq_ok_iff, parse_eq_ok_iff]
  refine exists_congr fun ls => ⟨?_, ?_⟩ <;> rintro ⟨hls, hfit, hv⟩ <;> refine ⟨?_, hfit, hv⟩ <;>
    obtain ⟨d, -, rfl, -⟩ := hv
  · exact (h _ d.joined_yield).1 hls
  · exact (h _ d.joined_yield).2 hls

theorem joined_of_append {xs ys : List Lexeme} (h : Joined (xs ++ ys)) : Joined xs ∧ Joined ys :=
  ⟨(isChain_append.1 h).1, (isChain_append.1 h).2.1⟩

theorem alike_operator (h : Alike ys zs) :
    Alike (xs ++ op.mark :: op.mark :: ys) (xs ++ ' ' :: op.mark :: op.mark :: ' ' :: zs) := by
  intro ls hjoined
  have hspace : isBlank ' ' = true := by decide
  have hright : Lexes (xs ++ ' ' :: op.mark :: op.mark :: ' ' :: zs) ls ↔
      ∃ as bs, Lexes xs as ∧ Lexes zs bs ∧ ls = as ++ Lexeme.symbol op.symbol :: bs := by
    rw [lexes_append_cons_iff (by decide)]
    simp only [lexes_blank_iff hspace, lexes_operator_iff]
    constructor
    · rintro ⟨as, _, has, ⟨bs, hbs, rfl⟩, rfl⟩
      exact ⟨as, bs, has, hbs, rfl⟩
    · rintro ⟨as, bs, has, hbs, rfl⟩
      exact ⟨as, _, has, ⟨bs, hbs, rfl⟩, rfl⟩
  rw [hright]
  by_cases hlast : xs.getLast? = some op.mark
  · -- the operator follows another one
    refine iff_of_false (fun hls => ?_) ?_
    · obtain ⟨init, rfl⟩ := getLast?_eq_some_iff.1 hlast
      rw [append_assoc] at hls
      exact not_joined_of_three hls hjoined
    · rintro ⟨as, bs, has, -, rfl⟩
      obtain ⟨init, rfl⟩ := getLast?_eq_some_iff.1 (getLast?_of_lexes_mark has hlast)
      rw [append_assoc] at hjoined
      exact not_joined_operators hjoined
  · rw [(endsBefore_mark hlast).lexes_iff]
    simp only [lexes_operator_iff]
    constructor
    · rintro ⟨as, _, has, ⟨bs, hbs, rfl⟩, rfl⟩
      exact ⟨as, bs, has, (h _ (joined_of_append hjoined).2.tail).1 hbs, rfl⟩
    · rintro ⟨as, bs, has, hbs, rfl⟩
      exact ⟨as, _, has, ⟨bs, (h _ (joined_of_append hjoined).2.tail).2 hbs, rfl⟩, rfl⟩

theorem replaceWords_operator (op : LogicalOp) (xs ys : List Char) :
    replaceWords (xs ++ op.mark :: op.mark :: ys) = replaceWords xs ++ op.mark :: op.mark :: replaceWords ys := by
  have hmark : continuesWord op.mark = false := by cases op <;> decide
  have hrest : replaceWordsFrom (some op.mark) ys = replaceWords ys :=
    replaceWordsFrom_congr (by cases op <;> decide) ys
  rw [replaceWords, replaceWordsFrom_append_cons hmark, replaceWordsFrom_cons (not_startsWord_of_ends hmark), hrest]
  rfl

theorem replaceWords_word (op : LogicalOp) (xs ys : List Char) :
    replaceWords (xs ++ ' ' :: (op.word ++ ' ' :: ys)) =
      replaceWords xs ++ ' ' :: op.mark :: op.mark :: ' ' :: replaceWords ys := by
  have hspace : continuesWord ' ' = false := by decide
  have hword : replaceWordsFrom (some ' ') op.word = [op.mark, op.mark] := by cases op <;> decide
  have hrest : replaceWordsFrom (some ' ') ys = replaceWords ys := replaceWordsFrom_congr (by decide) ys
  rw [replaceWords, replaceWordsFrom_append_cons hspace, replaceWordsFrom_append_cons hspace, hword, hrest]
  rfl

/-- Respelling a text does not change its tokens. -/
theorem alike_respell (xs ys : List Char) : Alike (replaceWords (xs ++ ys)) (replaceWords (xs ++ respell ys)) := by
  induction ys using operator_induct LogicalOp.mark generalizing xs with
  | hnil => exact fun _ _ => Iff.rfl
  | hop op rest ih =>
    rw [respell_operator, replaceWords_operator, replaceWords_word]
    exact alike_operator (ih [])
  | hcons c rest h ih =>
    rw [respell_cons h]
    have hrest := ih (xs ++ [c])
    rwa [append_assoc, append_assoc] at hrest

end Tokens

end NullSafe.Surface
