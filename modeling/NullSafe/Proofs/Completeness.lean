import NullSafe.Proofs.Descent
import NullSafe.Proofs.Grammar

/-! # What the grammar derives is parsed

A parsing function that is given the tokens of a derivation, followed by a token that cannot continue it,
has its meaning for a result and leaves what follows. If a numeral cannot be converted, parsing ends there,
whatever comes behind it.
-/

namespace NullSafe.Surface

open List

/-- A parsing function reads `ys` for the value `v` where `ends` holds of what comes next. -/
def Reads {α : Type} (p : List Token → Except Failure (α × List Token)) (ys : List Lexeme)
    (ends : Option Lexeme → Prop) (v : α) : Prop :=
  ∀ ts, (Fit ys → ∀ r, lexemes ts = ys ++ r → ends r.head? →
      ∃ rest, p ts = .ok (v, rest) ∧ lexemes rest = r) ∧
    (¬ Fit ys → upToMisfit ys <+: lexemes ts → p ts = .error .oversizedNumber)

abbrev Anything (_ : Option Lexeme) : Prop := True

namespace Reads

variable {α β : Type} {p q : List Token → Except Failure (α × List Token)} {ys zs : List Lexeme}
  {ends ends' : Option Lexeme → Prop} {v : α} {w : β}

theorem nil (h : ∀ ts, ends (lexemes ts).head? → p ts = .ok (v, ts)) : Reads p [] ends v := by
  refine fun ts => ⟨fun _ r hr he => ?_, fun hn => absurd fit_nil hn⟩
  rw [nil_append] at hr
  exact ⟨ts, h ts (hr ▸ he), hr⟩

/-- The first token decides what is done with the tokens behind it. -/
theorem cons {l : Lexeme} (h : ∀ t after, t.lexeme = l →
      p (t :: after) = if l.fits then q after else .error .oversizedNumber)
    (hq : Reads q ys ends v) : Reads p (l :: ys) ends v := by
  intro ts
  cases ts with
  | nil =>
    refine ⟨fun _ r hr => by simp [lexemes] at hr, fun _ hp => ?_⟩
    have hhead := head?_upToMisfit (l :: ys)
    rw [prefix_nil.1 hp] at hhead
    simp at hhead
  | cons t after =>
    refine ⟨fun hf r hr he => ?_, fun hf hp => ?_⟩
    · obtain ⟨ht, hr⟩ := List.cons.inj hr
      rw [h t after ht, if_pos (fit_cons.1 hf).1]
      exact (hq after).1 (fit_cons.1 hf).2 r hr he
    · rw [upToMisfit] at hp
      by_cases hl : l.fits = true
      · rw [if_pos hl] at hp
        obtain ⟨ht, hp⟩ := cons_prefix_cons.1 hp
        rw [h t after ht.symm, if_pos hl]
        exact (hq after).2 (fun hy => hf (fit_cons.2 ⟨hl, hy⟩)) hp
      · rw [if_neg hl] at hp
        rw [h t after (cons_prefix_cons.1 hp).1.symm, if_neg hl]

theorem symbol {s : Symbol} (h : ∀ t after, t.lexeme = .symbol s → p (t :: after) = q after)
    (hq : Reads q ys ends v) : Reads p (.symbol s :: ys) ends v :=
  cons (fun t after ht => by rw [h t after ht]; rfl) hq

/-- The first token decides which function goes on with it. -/
theorem look {l : Lexeme} (hl : ys.head? = some l)
    (h : ∀ t after, t.lexeme = l → p (t :: after) = q (t :: after)) (hq : Reads q ys ends v) : Reads p ys ends v := by
  obtain ⟨ys, rfl⟩ : ∃ ys', ys = l :: ys' := by
    cases ys with
    | nil => simp at hl
    | cons l' ys => exact ⟨ys, by simpa using hl⟩
  intro ts
  cases ts with
  | nil =>
    refine ⟨fun _ r hr => by simp [lexemes] at hr, fun _ hp => ?_⟩
    have hhead := head?_upToMisfit (l :: ys)
    rw [prefix_nil.1 hp] at hhead
    simp at hhead
  | cons t after =>
    refine ⟨fun hf r hr he => ?_, fun hf hp => ?_⟩
    · rw [h t after (List.cons.inj hr).1]
      exact (hq _).1 hf r hr he
    · have ht : t.lexeme = l := by
        obtain ⟨s, hs⟩ := hp
        have hhead := congrArg List.head? hs
        rw [head?_append, head?_upToMisfit] at hhead
        simpa [lexemes, eq_comm] using hhead
      rw [h t after ht]
      exact (hq _).2 hf hp

theorem bind {k : α × List Token → Except Failure (β × List Token)} (hp : Reads p ys ends v)
    (hk : Reads (fun rest => k (v, rest)) zs ends' w)
    (hends : ∀ r : List Lexeme, (zs = [] → ends' r.head?) → ends (zs ++ r).head?) :
    Reads (fun ts => p ts >>= k) (ys ++ zs) ends' w := by
  intro ts
  dsimp only
  refine ⟨fun hf r hr he => ?_, fun hf hpre => ?_⟩
  · rw [append_assoc] at hr
    obtain ⟨rest, hrest, hlex⟩ := (hp ts).1 (fit_append.1 hf).1 _ hr (hends r fun _ => he)
    rw [hrest]
    exact (hk rest).1 (fit_append.1 hf).2 r hlex he
  · by_cases hy : Fit ys
    · have hz : ¬ Fit zs := fun hz => hf (fit_append.2 ⟨hy, hz⟩)
      rw [upToMisfit_append_of_fit hy] at hpre
      obtain ⟨s, hs⟩ := hpre
      rw [append_assoc] at hs
      have hhead : (upToMisfit zs ++ s).head? = (zs ++ s).head? := by
        rw [head?_append, head?_append, head?_upToMisfit]
      have hne : zs = [] → ends' s.head? := fun h => absurd (h ▸ fit_nil) hz
      obtain ⟨rest, hrest, hlex⟩ := (hp ts).1 hy _ hs.symm (hhead ▸ hends s hne)
      rw [hrest]
      exact (hk rest).2 hz ⟨s, hlex.symm⟩
    · rw [upToMisfit_append_of_not_fit hy] at hpre
      rw [(hp ts).2 hy hpre]
      rfl

theorem map {k : α × List Token → Except Failure (β × List Token)} (hp : Reads p ys ends v)
    (hk : ∀ rest, k (v, rest) = .ok (w, rest)) : Reads (fun ts => p ts >>= k) ys ends w := by
  rw [← append_nil ys]
  exact hp.bind (nil fun rest _ => hk rest) fun r hr => hr rfl

/-- What is done with a value and with the tokens behind it. -/
theorem follow (k : α → List Token → Except Failure (β × List Token)) (hp : Reads p ys ends v)
    (hk : Reads (k v) zs ends' w) (hends : ∀ r : List Lexeme, (zs = [] → ends' r.head?) → ends (zs ++ r).head?) :
    Reads (fun ts => p ts >>= fun x => k x.1 x.2) (ys ++ zs) ends' w :=
  hp.bind hk hends

theorem finish (f : α → β) (hp : Reads p ys ends v) :
    Reads (fun ts => p ts >>= fun x => pure (f x.1, x.2)) ys ends (f v) :=
  hp.map fun _ => rfl

theorem of_eq (h : ∀ ts, p ts = q ts) (hq : Reads q ys ends v) : Reads p ys ends v :=
  (funext h : p = q) ▸ hq

theorem imp (hp : Reads p ys ends v) (h : ∀ next, ends' next → ends next) : Reads p ys ends' v :=
  fun ts => ⟨fun hf r hr he => (hp ts).1 hf r hr (h _ he), (hp ts).2⟩

end Reads

section Tokens

variable (stop : Nat)

theorem reads_passSymbol (s : Symbol) : Reads (Parser.passSymbol stop s) [.symbol s] Anything () :=
  .symbol (fun _ after ht => Parser.passSymbol_cons stop ht after) (.nil fun _ _ => rfl)

theorem reads_passName (text : List Char) :
    Reads (Parser.passName stop) [.name text] Anything (String.ofList text) := by
  refine .cons (q := fun after => .ok (String.ofList text, after)) (fun t after ht => ?_) (.nil fun _ _ => rfl)
  rcases t with ⟨l, pos⟩
  cases ht
  rfl

end Tokens

section Lookahead

variable {n : Nat} {t : Token}

theorem stops_of_lt {b : Nat} {l : Lexeme} (hl : l.binding = some b) (h : n < b) : Stops n (some l) := by
  rw [stops_some, hl]
  rintro _ ⟨⟩
  exact h

theorem stops_of_none {l : Lexeme} (hl : l.binding = none) : Stops n (some l) := by
  rw [stops_some, hl]
  exact nofun

theorem Stops.ne {b : Nat} {l l' : Lexeme} (h : Stops n (some l)) (hl : l'.binding = some b) (hb : b ≤ n) : l ≠ l' := by
  rintro rfl
  exact absurd (stops_some.1 h b hl) (Nat.not_lt.2 hb)

theorem Derivation.stops_joins (d : Derivation (.joins n)) {r : List Lexeme}
    (hr : d.yield = [] → Stops (n + 1) r.head?) : Stops n (d.yield ++ r).head? := by
  cases d with
  | joined => exact (hr rfl).mono (Nat.le_succ n)
  | join op h right rest => exact stops_of_lt (binding_operator op) (by omega)

theorem joinOf_eq_none (h : Stops n (some t.lexeme)) : Parser.joinOf n t = none := by
  rcases t with ⟨l, pos⟩
  cases l with
  | symbol s =>
    rw [Parser.joinOf]
    dsimp only
    unfold Parser.joinAt
    split <;> first | rfl | exact absurd rfl (h.ne rfl (Nat.le_refl _))
  | _ => rfl

theorem joinOf_operator {op : Operator} (ht : t.lexeme = .symbol op.symbol) :
    Parser.joinOf op.level t = some op.apply := by
  rw [Parser.joinOf, ht]
  rcases op with op | op <;> cases op <;> rfl

theorem unaryOf_lexeme {op : UnaryOp} (ht : t.lexeme = op.lexeme) : Parser.unaryOf t = some op := by
  rw [Parser.unaryOf, ht]
  cases op <;> simp [UnaryOp.lexeme]

theorem unaryOf_eq_none (h : ∀ op : UnaryOp, t.lexeme ≠ op.lexeme) : Parser.unaryOf t = none := by
  unfold Parser.unaryOf
  split
  · exact absurd ‹_› (h .not)
  · exact absurd ‹_› (h .negate)
  · exact absurd ‹_› (h .plus)
  · rename_i cs hl
    refine if_neg ?_
    rintro rfl
    exact h .typeof hl
  · rfl

end Lookahead

open Surface.Parser

/-- What may follow a conditional. An assignment sign behind one that cannot be assigned to belongs to its
last part. -/
def EndsConditional (v : Expr Placeholder) (next : Option Lexeme) : Prop :=
  Stops 7 next ∧ (v.isTarget = false → Stops 8 next)

def EndsEntry (next : Option Lexeme) : Prop :=
  next = some (.symbol .comma) ∨ next = some (.symbol .closeBrace)

theorem EndsEntry.stops {n : Nat} {next : Option Lexeme} (h : EndsEntry next) : Stops n next := by
  rcases h with rfl | rfl <;> exact stops_of_none rfl

def Complete (stop : Nat) : (c : Category) → List Lexeme → c.Meaning → Prop
  | .assign, ys, v => Reads (fun ts => Parsed.result (assign stop ts)) ys (Stops 8) v
  | .conditional, ys, v =>
    Reads (fun ts => Parsed.result (conditional stop ts)) ys (EndsConditional v) v
  | .operation n, ys, v => Reads (fun ts => Parsed.result (operation stop n ts)) ys (Stops n) v
  | .joins n, ys, v => ∀ left, Reads (fun ts => Continued.result (joined stop n left ts)) ys (Stops (n + 1)) (v left)
  | .unary, ys, v => Reads (fun ts => Parsed.result (unary stop ts)) ys (Stops 0) v
  | .links, ys, v => ∀ node, Reads (fun ts => Continued.result (links stop node ts)) ys (Stops 0) (v node)
  | .primary, ys, v => Reads (fun ts => Parsed.result (primary stop ts)) ys Anything v
  | .items, ys, v => ∀ close, close = .closeParen ∨ close = .closeBracket →
    Reads (fun ts => Parsed.result (items stop close ts)) (ys ++ [Lexeme.symbol close]) Anything v
  | .properties, ys, v =>
    Reads (fun ts => Parsed.result (properties stop ts)) (ys ++ [Lexeme.symbol .closeBrace]) Anything v
  | .property, ys, v => Reads (entry stop) ys EndsEntry v

section Productions

variable {stop : Nat} {ys zs xs : List Lexeme} {u v w : Expr Placeholder} {vs : List (Expr Placeholder)}
  {f : Expr Placeholder → Expr Placeholder}

theorem reads_unassigned (h : Complete stop .conditional ys v) : Complete stop .assign ys v := by
  refine .of_eq (assign_result stop) ?_
  rw [← append_nil ys]
  refine h.bind (.nil fun ts he => ?_) fun r hr => ⟨(hr rfl).mono (by decide), fun _ => hr rfl⟩
  cases ts with
  | nil => rfl
  | cons t after => exact if_neg (he.ne rfl (by decide))

theorem reads_assign (h : Complete stop .conditional ys v) (hv : v.isTarget = true) (h' : Complete stop .assign zs w) :
    Complete stop .assign (ys ++ Lexeme.symbol .assign :: zs) (.assign v w) := by
  refine .of_eq (assign_result stop) (h.bind (.symbol (fun t after ht => ?_) (h'.finish (Expr.assign v))) fun _ _ => ?_)
  · exact (if_pos ht).trans (if_pos hv)
  · exact ⟨stops_of_lt rfl (by decide), fun hn => by rw [hv] at hn; cases hn⟩

theorem reads_unconditional (h : Complete stop (.operation 6) ys v) : Complete stop .conditional ys v := by
  refine .of_eq (conditional_result stop) ?_
  rw [← append_nil ys]
  refine h.bind (.nil fun ts he => ?_) fun r hr => (hr rfl).1.mono (by decide)
  cases ts with
  | nil => rfl
  | cons t after => exact if_neg (he.1.ne rfl (by decide))

theorem reads_conditional (h : Complete stop (.operation 6) xs u) (h₁ : Complete stop .assign ys v)
    (h₂ : Complete stop .assign zs w) :
    Complete stop .conditional (xs ++ Lexeme.symbol .question :: (ys ++ Lexeme.symbol .colon :: zs))
      (.conditional u v w) := by
  refine .of_eq (conditional_result stop) (h.bind (.symbol (fun t after ht => if_pos ht) ?_)
    fun _ _ => stops_of_lt rfl (by decide))
  refine h₁.bind ?_ fun _ _ => stops_of_none rfl
  refine (reads_passSymbol stop .colon).bind ?_ fun _ _ => trivial
  exact .imp (h₂.map fun _ => rfl) fun next he => he.2 rfl

theorem reads_joined {level : Nat} : Complete stop (.joins level) [] id := by
  refine fun left => .nil fun ts he => ?_
  cases ts with
  | nil => exact joined_result_nil stop level left
  | cons t after =>
    rw [joined_result_cons, joinOf_eq_none he]
    rfl

theorem reads_join {level : Nat} {op : Operator} (hop : op.level = level + 1)
    (h : Complete stop (.operation level) ys v) (h' : Complete stop (.joins level) zs f)
    (hends : ∀ r : List Lexeme, (zs = [] → Stops (level + 1) r.head?) → Stops level (zs ++ r).head?) :
    Complete stop (.joins level) (.symbol op.symbol :: (ys ++ zs)) (fun u => f (op.apply u v)) := by
  refine fun u => .symbol (fun t after ht => ?_)
    (h.follow (fun v rest => Continued.result (joined stop level (op.apply u v) rest)) (h' _) hends)
  rw [joined_result_cons, ← hop, joinOf_operator ht]

theorem reads_unary (op : UnaryOp) (h : Complete stop .unary ys v) :
    Complete stop .unary (op.lexeme :: ys) (.unary op v) := by
  refine .cons (fun t after ht => ?_) (h.finish (Expr.unary op))
  rw [unary_result_cons, unaryOf_lexeme ht]
  cases op <;> rfl

theorem reads_chain {l : Lexeme} (hl : ys.head? = some l) (hop : ∀ op : UnaryOp, l ≠ op.lexeme)
    (h : Complete stop .primary ys v) (h' : Complete stop .links zs f) : Complete stop .unary (ys ++ zs) (f v) := by
  refine .look (l := l) ?_ (fun t after ht => ?_)
    (h.follow (fun v rest => Continued.result (links stop v rest)) (h' v) fun _ _ => trivial)
  · rw [head?_append, hl]
    rfl
  · rw [unary_result_cons, unaryOf_eq_none fun op => ht ▸ hop op]

theorem reads_linked : Complete stop .links [] id := by
  refine fun node => .nil fun ts he => ?_
  cases ts with
  | nil => exact links_result_nil stop node
  | cons t after =>
    rw [links_result_cons]
    split <;> first | rfl | exact absurd ‹_› (he.ne rfl (Nat.le_refl _))

theorem reads_member {text : List Char} (h : Complete stop .links zs f) :
    Complete stop .links (.symbol .dot :: .name text :: zs) (fun u => f (.member u (String.ofList text))) := by
  refine fun u => .symbol (fun t after ht => ?_) ((reads_passName stop text).follow
    (fun name rest => Continued.result (links stop (.member u name) rest)) (h _) fun _ _ => trivial)
  rw [links_result_cons, ht]

theorem reads_index (h : Complete stop .assign ys v) (h' : Complete stop .links zs f) :
    Complete stop .links (.symbol .openBracket :: (ys ++ Lexeme.symbol .closeBracket :: zs))
      (fun u => f (.index u v)) := by
  refine fun u => .symbol (fun t after ht => ?_) (h.follow (fun v rest => passSymbol stop .closeBracket rest >>=
    fun x => Continued.result (links stop (.index u v) x.2)) ?_ fun _ _ => stops_of_none rfl)
  · rw [links_result_cons, ht]
  · exact (reads_passSymbol stop .closeBracket).follow (fun _ rest => Continued.result (links stop (.index u v) rest))
      (h' _) fun _ _ => trivial

theorem reads_call (h : Complete stop .items ys vs) (h' : Complete stop .links zs f) :
    Complete stop .links (.symbol .openParen :: (ys ++ Lexeme.symbol .closeParen :: zs)) (fun u => f (.call u vs)) := by
  rw [append_cons]
  refine fun u => .symbol (fun t after ht => ?_) ((h .closeParen (.inl rfl)).follow
    (fun vs rest => Continued.result (links stop (.call u vs) rest)) (h' _) fun _ _ => trivial)
  rw [links_result_cons, ht]

theorem reads_number (digits : List Char) : Complete stop .primary [.number digits] (.number (numeralText digits)) := by
  refine .cons (q := fun after => .ok (.number (numeralText digits), after)) (fun t after ht => ?_)
    (.nil fun _ _ => rfl)
  rw [primary_result_cons, ht]
  cases hfits : numeralFits digits <;> simp only [numberText, Lexeme.fits, hfits] <;> rfl

theorem reads_literal (p : Placeholder) : Complete stop .primary [.ofPlaceholder p] (.literal p) := by
  refine .cons (q := fun after => .ok (.literal p, after)) (fun t after ht => ?_) (.nil fun _ _ => rfl)
  rw [primary_result_cons, ht]
  cases p <;> rfl

theorem reads_name (text : List Char) : Complete stop .primary [.name text] (nameTree text) := by
  refine .cons (q := fun after => .ok (nameTree text, after)) (fun t after ht => ?_) (.nil fun _ _ => rfl)
  rw [primary_result_cons, ht]
  rfl

theorem reads_group (h : Complete stop .assign ys v) :
    Complete stop .primary (.symbol .openParen :: (ys ++ [Lexeme.symbol .closeParen])) v := by
  refine .symbol (fun t after ht => ?_)
    (h.follow (fun v rest => passSymbol stop .closeParen rest >>= fun x => pure (v, x.2))
      ((reads_passSymbol stop .closeParen).finish fun _ => v) fun _ _ => stops_of_none rfl)
  rw [primary_result_cons, ht]

theorem reads_array (h : Complete stop .items ys vs) :
    Complete stop .primary (.symbol .openBracket :: (ys ++ [Lexeme.symbol .closeBracket])) (.array vs) := by
  refine .symbol (fun t after ht => ?_) ((h .closeBracket (.inr rfl)).finish Expr.array)
  rw [primary_result_cons, ht]

theorem reads_object {es : List (Key Placeholder × Expr Placeholder)} (h : Complete stop .properties ys es) :
    Complete stop .primary (.symbol .openBrace :: (ys ++ [Lexeme.symbol .closeBrace])) (.object es) := by
  refine .symbol (fun t after ht => ?_) (h.finish Expr.object)
  rw [primary_result_cons, ht]

end Productions

section Lists

/-- A parsing function for elements with commas between them, up to and including a closing symbol. -/
def ReadsList {α : Type} (stop : Nat) (close : Symbol) (element : List Token → Except Failure (α × List Token))
    (list : List Token → Except Failure (List α × List Token)) : Prop :=
  ∀ t after, list (t :: after) =
    if t.lexeme = .symbol close then .ok ([], after)
    else element (t :: after) >>= listRest stop close list

variable {α : Type} {stop : Nat} {close : Symbol} {ends : Option Lexeme → Prop}
  {element : List Token → Except Failure (α × List Token)}
  {list : List Token → Except Failure (List α × List Token)} {ys zs : List Lexeme} {v : α}
  {vs : List α}
  (hlist : ReadsList stop close element list)

include hlist

theorem ReadsList.none : Reads list [.symbol close] Anything [] :=
  .symbol (q := fun after => .ok ([], after)) (fun t after ht => by rw [hlist, if_pos ht]) (.nil fun _ _ => rfl)

theorem ReadsList.last {l : Lexeme} (hl : ys.head? = some l) (hne : l ≠ .symbol close) (h : Reads element ys ends v)
    (hends : ends (some (.symbol close))) : Reads list (ys ++ [Lexeme.symbol close]) Anything [v] := by
  refine .look (l := l) (q := fun ts => element ts >>= listRest stop close list) ?_
    (fun t after ht => by rw [hlist, if_neg (ht ▸ hne)])
    (h.bind (.symbol (q := fun after => .ok ([v], after)) (fun t after ht => ?_)
      (.nil fun _ _ => rfl)) fun _ _ => hends)
  · rw [head?_append, hl]
    rfl
  · rw [listRest, if_pos (startsWith_cons ht after), passSymbol_cons stop ht]
    rfl

theorem ReadsList.more {l : Lexeme} (hl : ys.head? = some l) (hne : l ≠ .symbol close) (h : Reads element ys ends v)
    (hends : ends (some (.symbol .comma))) (hclose : close ≠ .comma)
    (h' : Reads list (zs ++ [Lexeme.symbol close]) Anything vs) :
    Reads list (ys ++ Lexeme.symbol .comma :: zs ++ [Lexeme.symbol close]) Anything (v :: vs) := by
  rw [append_assoc, cons_append]
  refine .look (l := l) (q := fun ts => element ts >>= listRest stop close list) ?_
    (fun t after ht => by rw [hlist, if_neg (ht ▸ hne)])
    (h.bind (.symbol (fun t after ht => ?_) (h'.finish (v :: ·))) fun _ _ => hends)
  · rw [head?_append, hl]
    rfl
  · have hcomma : ¬ startsWith close (t :: after) = true := by
      simpa [startsWith, ht] using hclose.symm
    rw [listRest, if_neg hcomma, passSymbol_cons stop ht]
    rfl

omit hlist

theorem readsList_items (stop : Nat) (close : Symbol) :
    ReadsList stop close (fun ts => Parsed.result (assign stop ts)) (fun ts => Parsed.result (items stop close ts)) :=
  items_result_cons stop close

theorem readsList_properties (stop : Nat) :
    ReadsList stop .closeBrace (entry stop) (fun ts => Parsed.result (properties stop ts)) :=
  properties_result_cons stop

end Lists

section Entries

variable {stop : Nat} {ys : List Lexeme} {v : Expr Placeholder}

theorem reads_entryValue (key : Key Placeholder) (shorthand : Option (Expr Placeholder))
    (h : Complete stop .assign ys v) :
    Reads (entryValue stop key shorthand) (.symbol .colon :: ys) EndsEntry (key, v) := by
  refine .symbol (fun t after ht => ?_) (.imp (h.finish (key, ·)) fun _ he => he.stops)
  rw [entryValue, property_result, if_pos (startsWith_cons ht after), passSymbol_cons stop ht]
  simp only [bind, Except.bind]
  rcases Parsed.result (assign stop after) with f | x <;> rfl

theorem reads_shorthand (text : List Char) :
    Complete stop .property [.name text] (.name (String.ofList text), .name (String.ofList text)) := by
  refine .cons (q := entryValue stop (.name (String.ofList text)) (some (.name (String.ofList text))))
    (fun t after ht => by rw [entry, keyOf, ht]; rfl) (.nil fun ts he => ?_)
  have hcolon : startsWith .colon ts = false := by
    cases ts with
    | nil => rfl
    | cons t after =>
      rcases he with he | he <;> simp only [startsWith, Option.some.inj he] <;> rfl
  simp only [entryValue, property_result, hcolon]
  rfl

theorem reads_named (text : List Char) (h : Complete stop .assign ys v) :
    Complete stop .property (.name text :: .symbol .colon :: ys) (.name (String.ofList text), v) :=
  .cons (fun t after ht => by rw [entry, keyOf, ht]; rfl) (reads_entryValue _ (some (.name (String.ofList text))) h)

theorem reads_quoted (q : Quote) (h : Complete stop .assign ys v) :
    Complete stop .property (.string q :: .symbol .colon :: ys) (.literal (.string q), v) :=
  .cons (fun t after ht => by rw [entry, keyOf, ht]; rfl) (reads_entryValue _ none h)

theorem reads_numbered (digits : List Char) (h : Complete stop .assign ys v) :
    Complete stop .property (.number digits :: .symbol .colon :: ys) (.number (numeralText digits), v) := by
  refine .cons (fun t after ht => ?_) (reads_entryValue _ none h)
  rw [entry, keyOf, ht]
  cases hfits : numeralFits digits <;> simp only [numberText, Lexeme.fits, hfits] <;> rfl

end Entries

theorem complete (stop : Nat) {c : Category} (d : Derivation c) (hv : d.Valid) : Complete stop c d.yield d.meaning := by
  induction d with
  | unassigned value ih => exact reads_unassigned (ih hv)
  | assign target value ih₁ ih₂ => exact reads_assign (ih₁ hv.1) hv.2.1 (ih₂ hv.2.2)
  | unconditional value ih => exact reads_unconditional (ih hv)
  | conditional test yes no ih₁ ih₂ ih₃ =>
    exact reads_conditional (ih₁ hv.1) (ih₂ hv.2.1) (ih₃ hv.2.2)
  | operand value ih => exact .of_eq (operation_result_zero stop) (ih hv)
  | operation first rest ih₁ ih₂ =>
    exact .of_eq (operation_result_succ stop _) ((ih₁ hv.1).bind (ih₂ hv.2 first.meaning) fun _ => rest.stops_joins)
  | joined => exact reads_joined
  | join op h right rest ih₁ ih₂ =>
    exact reads_join h (ih₁ hv.1) (ih₂ hv.2) fun _ => rest.stops_joins
  | unary op value ih => exact reads_unary op (ih hv)
  | chain root rest ih₁ ih₂ =>
    obtain ⟨l, hl, -, hop⟩ := root.starts
    exact reads_chain hl hop (ih₁ hv.1) (ih₂ hv.2)
  | linked => exact reads_linked
  | member text rest ih => exact reads_member (ih hv)
  | index key rest ih₁ ih₂ => exact reads_index (ih₁ hv.1) (ih₂ hv.2)
  | call arguments rest ih₁ ih₂ => exact reads_call (ih₁ hv.1) (ih₂ hv.2)
  | number digits => exact reads_number digits
  | literal p => exact reads_literal p
  | name text h => exact reads_name text
  | group inner ih => exact reads_group (ih hv)
  | array elements ih => exact reads_array (ih hv)
  | object entries ih => exact reads_object (ih hv)
  | noItem => exact fun close _ => (readsList_items stop close).none
  | lastItem value ih =>
    intro close hclose
    obtain ⟨l, hl, hs⟩ := value.starts
    refine (readsList_items stop close).last hl ?_ (ih hv) ?_
    · rintro rfl; rcases hclose with rfl | rfl <;> cases hs
    · rcases hclose with rfl | rfl <;> exact stops_of_none rfl
  | item value rest ih₁ ih₂ =>
    intro close hclose
    obtain ⟨l, hl, hs⟩ := value.starts
    refine (readsList_items stop close).more hl ?_ (ih₁ hv.1) (stops_of_none rfl) ?_ (ih₂ hv.2 close hclose)
    · rintro rfl; rcases hclose with rfl | rfl <;> cases hs
    · rcases hclose with rfl | rfl <;> decide
  | noProperty => exact (readsList_properties stop).none
  | lastProperty entry ih =>
    obtain ⟨l, hl, hs⟩ := entry.starts
    exact (readsList_properties stop).last hl (by rintro rfl; cases hs) (ih hv) (.inr rfl)
  | property entry rest ih₁ ih₂ =>
    obtain ⟨l, hl, hs⟩ := entry.starts
    exact (readsList_properties stop).more hl (by rintro rfl; cases hs) (ih₁ hv.1) (.inl rfl) (by decide) (ih₂ hv.2)
  | shorthand text => exact reads_shorthand text
  | named text value ih => exact reads_named text (ih hv)
  | quoted q value ih => exact reads_quoted q (ih hv)
  | numbered digits value ih => exact reads_numbered digits (ih hv)

end NullSafe.Surface
