import NullSafe.Proofs.Completeness

/-! # No text has two derivations

Two derivations of a category that start the same text are the same one, if what follows each of them
cannot continue it. The induction goes over the first derivation; the token at which the second could
leave it is one that may not follow.
-/

namespace NullSafe.Surface

open List

def Category.Follow : (c : Category) → c.Meaning → Option Lexeme → Prop
  | assign, _, next => Stops 8 next
  | conditional, v, next => EndsConditional v next
  | operation n, _, next => Stops n next
  | joins n, _, next => Stops (n + 1) next
  | unary, _, next | links, _, next => Stops 0 next
  | primary, _, _ => True
  | items, _, next => next = some (.symbol .closeParen) ∨ next = some (.symbol .closeBracket)
  | properties, _, next => next = some (.symbol .closeBrace)
  | property, _, next => EndsEntry next

theorem Operator.symbol_injective {o p : Operator} (h : o.symbol = p.symbol) : o = p := by
  rcases o with o | o <;> rcases p with p | p <;> cases o <;> cases p <;> first | rfl | cases h

theorem UnaryOp.lexeme_injective {o p : UnaryOp} (h : o.lexeme = p.lexeme) : o = p := by
  cases o <;> cases p <;> first | rfl | cases h

namespace Derivation

variable {value : Derivation .assign} {rest : Derivation .links} {text : List Char} {n : Nat} {zs : List Lexeme}

/-- No other derivation starts the same text, whatever may follow either of them. -/
def Unique {c : Category} (d : Derivation c) : Prop :=
  ∀ (e : Derivation c) (xs ys : List Lexeme), d.Valid → e.Valid → d.yield ++ xs = e.yield ++ ys →
    c.Follow d.meaning xs.head? → c.Follow e.meaning ys.head? → d = e ∧ xs = ys

theorem follow_unassigned {v : Expr Placeholder} {next : Option Lexeme} (h : Stops 8 next) : EndsConditional v next :=
  ⟨h.mono (by decide), fun _ => h⟩

theorem follow_target {v : Expr Placeholder} (h : v.isTarget = true) : EndsConditional v (some (.symbol .assign)) :=
  ⟨stops_of_lt rfl (by decide), fun hn => by rw [h] at hn; cases hn⟩

theorem unique_unassigned {value : Derivation .conditional} (ih : value.Unique) : (unassigned value).Unique := by
  intro e xs ys hd he heq hxs hys
  cases e with
  | unassigned other =>
    obtain ⟨rfl, rfl⟩ := ih other xs ys hd he heq (follow_unassigned hxs) (follow_unassigned hys)
    exact ⟨rfl, rfl⟩
  | assign target other =>
    rw [yield, yield, append_assoc] at heq
    obtain ⟨rfl, rfl⟩ := ih target xs _ hd he.1 heq (follow_unassigned hxs) (follow_target he.2.1)
    exact absurd rfl (hxs.ne rfl (by decide))

theorem unique_assign {target : Derivation .conditional}
    (ih₁ : target.Unique) (ih₂ : value.Unique) : (assign target value).Unique := by
  intro e xs ys hd he heq hxs hys
  cases e with
  | unassigned other =>
    rw [yield, yield, append_assoc] at heq
    obtain ⟨rfl, rfl⟩ := ih₁ other _ ys hd.1 he heq (follow_target hd.2.1) (follow_unassigned hys)
    exact absurd rfl (hys.ne rfl (by decide))
  | assign target' value' =>
    rw [yield, yield, append_assoc, append_assoc] at heq
    obtain ⟨rfl, hrest⟩ := ih₁ target' _ _ hd.1 he.1 heq (follow_target hd.2.1) (follow_target he.2.1)
    obtain ⟨rfl, rfl⟩ := ih₂ value' xs ys hd.2.2 he.2.2 (List.cons.inj hrest).2 hxs hys
    exact ⟨rfl, rfl⟩

theorem unique_unconditional {value : Derivation (.operation 6)} (ih : value.Unique) :
    (unconditional value).Unique := by
  intro e xs ys hd he heq hxs hys
  cases e with
  | unconditional other =>
    obtain ⟨rfl, rfl⟩ := ih other xs ys hd he heq (hxs.1.mono (by decide)) (hys.1.mono (by decide))
    exact ⟨rfl, rfl⟩
  | conditional test yes no =>
    rw [yield, yield, append_assoc] at heq
    obtain ⟨rfl, rfl⟩ := ih test xs _ hd he.1 heq (hxs.1.mono (by decide)) (stops_of_lt rfl (by decide))
    exact absurd rfl (hxs.1.ne rfl (by decide))

theorem unique_conditional {test : Derivation (.operation 6)} {yes no : Derivation .assign}
    (ih₁ : test.Unique) (ih₂ : yes.Unique) (ih₃ : no.Unique) : (conditional test yes no).Unique := by
  intro e xs ys hd he heq hxs hys
  cases e with
  | unconditional other =>
    rw [yield, yield, append_assoc] at heq
    obtain ⟨rfl, rfl⟩ := ih₁ other _ ys hd.1 he heq (stops_of_lt rfl (by decide)) (hys.1.mono (by decide))
    exact absurd rfl (hys.1.ne rfl (by decide))
  | conditional test' yes' no' =>
    simp only [yield, append_assoc, cons_append] at heq
    obtain ⟨rfl, hyes⟩ := ih₁ test' _ _ hd.1 he.1 heq (stops_of_lt rfl (by decide)) (stops_of_lt rfl (by decide))
    obtain ⟨rfl, hno⟩ := ih₂ yes' _ _ hd.2.1 he.2.1 (List.cons.inj hyes).2 (stops_of_none rfl) (stops_of_none rfl)
    obtain ⟨rfl, rfl⟩ := ih₃ no' xs ys hd.2.2 he.2.2 (List.cons.inj hno).2 (hxs.2 rfl) (hys.2 rfl)
    exact ⟨rfl, rfl⟩

theorem unique_operation {first : Derivation (.operation n)} {rest : Derivation (.joins n)}
    (ih₁ : first.Unique) (ih₂ : rest.Unique) : (operation first rest).Unique := by
  intro e xs ys hd he heq hxs hys
  cases e with
  | operation first' rest' =>
    rw [yield, yield, append_assoc, append_assoc] at heq
    obtain ⟨rfl, hrest⟩ := ih₁ first' _ _ hd.1 he.1 heq (rest.stops_joins fun _ => hxs) (rest'.stops_joins fun _ => hys)
    obtain ⟨rfl, rfl⟩ := ih₂ rest' xs ys hd.2 he.2 hrest hxs hys
    exact ⟨rfl, rfl⟩

theorem unique_joined : (joined : Derivation (.joins n)).Unique := by
  intro e xs ys hd he heq hxs hys
  cases e with
  | joined => exact ⟨rfl, heq⟩
  | join op h right rest =>
    obtain rfl : xs = _ := heq
    exact absurd rfl (hxs.ne (binding_operator op) (by omega))

theorem unique_join {op : Operator} {h : op.level = n + 1}
    {right : Derivation (.operation n)} {rest : Derivation (.joins n)} (ih₁ : right.Unique)
    (ih₂ : rest.Unique) : (join op h right rest).Unique := by
  intro e xs ys hd he heq hxs hys
  cases e with
  | joined =>
    obtain rfl : _ = ys := heq
    exact absurd rfl (hys.ne (binding_operator op) (by omega))
  | join op' h' right' rest' =>
    simp only [yield, cons_append, append_assoc, List.cons.injEq, Lexeme.symbol.injEq] at heq
    obtain rfl := Operator.symbol_injective heq.1
    obtain ⟨rfl, hrest⟩ := ih₁ right' _ _ hd.1 he.1 heq.2 (rest.stops_joins fun _ => hxs)
      (rest'.stops_joins fun _ => hys)
    obtain ⟨rfl, rfl⟩ := ih₂ rest' xs ys hd.2 he.2 hrest hxs hys
    exact ⟨rfl, rfl⟩

theorem yield_ne_of_starts {root : Derivation .primary} {op : UnaryOp} {xs ys : List Lexeme}
    (h : root.yield ++ xs = op.lexeme :: ys) : False := by
  obtain ⟨l, hl, -, hne⟩ := root.starts
  have hhead := congrArg List.head? h
  rw [head?_append, hl] at hhead
  exact hne op (Option.some.inj hhead)

theorem unique_unary {op : UnaryOp} {value : Derivation .unary} (ih : value.Unique) : (unary op value).Unique := by
  intro e xs ys hd he heq hxs hys
  cases e with
  | unary op' value' =>
    simp only [yield, cons_append, List.cons.injEq] at heq
    obtain rfl := UnaryOp.lexeme_injective heq.1
    obtain ⟨rfl, rfl⟩ := ih value' xs ys hd he heq.2 hxs hys
    exact ⟨rfl, rfl⟩
  | chain root rest =>
    rw [yield, yield, append_assoc] at heq
    exact (yield_ne_of_starts heq.symm).elim

theorem unique_chain {root : Derivation .primary} (ih₁ : root.Unique)
    (ih₂ : rest.Unique) : (chain root rest).Unique := by
  intro e xs ys hd he heq hxs hys
  cases e with
  | unary op value =>
    rw [yield, yield, append_assoc] at heq
    exact (yield_ne_of_starts heq).elim
  | chain root' rest' =>
    rw [yield, yield, append_assoc, append_assoc] at heq
    obtain ⟨rfl, hrest⟩ := ih₁ root' _ _ hd.1 he.1 heq trivial trivial
    obtain ⟨rfl, rfl⟩ := ih₂ rest' xs ys hd.2 he.2 hrest hxs hys
    exact ⟨rfl, rfl⟩

theorem unique_linked : linked.Unique := by
  intro e xs ys hd he heq hxs hys
  cases e with
  | linked => exact ⟨rfl, heq⟩
  | member | index | call =>
    obtain rfl : xs = _ := heq
    exact absurd rfl (hxs.ne rfl (Nat.le_refl 0))

theorem unique_member (ih : rest.Unique) : (member text rest).Unique := by
  intro e xs ys hd he heq hxs hys
  cases e with
  | linked =>
    obtain rfl : _ = ys := heq
    exact absurd rfl (hys.ne rfl (Nat.le_refl 0))
  | member text' rest' =>
    simp only [yield, cons_append, List.cons.injEq, Lexeme.name.injEq, true_and] at heq
    obtain ⟨rfl, heq⟩ := heq
    obtain ⟨rfl, rfl⟩ := ih rest' xs ys hd he heq hxs hys
    exact ⟨rfl, rfl⟩
  | index | call => cases heq

theorem unique_index {key : Derivation .assign} (ih₁ : key.Unique) (ih₂ : rest.Unique) : (index key rest).Unique := by
  intro e xs ys hd he heq hxs hys
  cases e with
  | linked =>
    obtain rfl : _ = ys := heq
    exact absurd rfl (hys.ne rfl (Nat.le_refl 0))
  | index key' rest' =>
    simp only [yield, cons_append, append_assoc, List.cons.injEq, true_and] at heq
    obtain ⟨rfl, hrest⟩ := ih₁ key' _ _ hd.1 he.1 heq (stops_of_none rfl) (stops_of_none rfl)
    obtain ⟨rfl, rfl⟩ := ih₂ rest' xs ys hd.2 he.2 (List.cons.inj hrest).2 hxs hys
    exact ⟨rfl, rfl⟩
  | member | call => cases heq

theorem unique_call {arguments : Derivation .items} (ih₁ : arguments.Unique)
    (ih₂ : rest.Unique) : (call arguments rest).Unique := by
  intro e xs ys hd he heq hxs hys
  cases e with
  | linked =>
    obtain rfl : _ = ys := heq
    exact absurd rfl (hys.ne rfl (Nat.le_refl 0))
  | call arguments' rest' =>
    simp only [yield, cons_append, append_assoc, List.cons.injEq, true_and] at heq
    obtain ⟨rfl, hrest⟩ := ih₁ arguments' _ _ hd.1 he.1 heq (.inl rfl) (.inl rfl)
    obtain ⟨rfl, rfl⟩ := ih₂ rest' xs ys hd.2 he.2 (List.cons.inj hrest).2 hxs hys
    exact ⟨rfl, rfl⟩
  | member | index => cases heq

theorem unique_number {digits : List Char} : (number digits).Unique := by
  intro e xs ys hd he heq hxs hys
  cases e with
  | number digits' => cases heq; exact ⟨rfl, rfl⟩
  | literal p => cases p <;> cases heq
  | name | group | array | object => cases heq

theorem unique_literal {p : Placeholder} : (literal p).Unique := by
  intro e xs ys hd he heq hxs hys
  cases e with
  | literal q => cases p <;> cases q <;> cases heq <;> exact ⟨rfl, rfl⟩
  | number | name | group | array | object => cases p <;> cases heq

theorem unique_name {h : text ≠ "typeof".toList} : (name text h).Unique := by
  intro e xs ys hd he heq hxs hys
  cases e with
  | name text' h' => cases heq; exact ⟨rfl, rfl⟩
  | literal p => cases p <;> cases heq
  | number | group | array | object => cases heq

theorem unique_group {inner : Derivation .assign} (ih : inner.Unique) : (group inner).Unique := by
  intro e xs ys hd he heq hxs hys
  cases e with
  | group inner' =>
    simp only [yield, cons_append, append_assoc, List.cons.injEq, true_and] at heq
    obtain ⟨rfl, hrest⟩ := ih inner' _ _ hd he heq (stops_of_none rfl) (stops_of_none rfl)
    exact ⟨rfl, (List.cons.inj hrest).2⟩
  | literal p => cases p <;> cases heq
  | number | name | array | object => cases heq

theorem unique_array {elements : Derivation .items} (ih : elements.Unique) : (array elements).Unique := by
  intro e xs ys hd he heq hxs hys
  cases e with
  | array elements' =>
    simp only [yield, cons_append, append_assoc, List.cons.injEq, true_and] at heq
    obtain ⟨rfl, hrest⟩ := ih elements' _ _ hd he heq (.inr rfl) (.inr rfl)
    exact ⟨rfl, (List.cons.inj hrest).2⟩
  | literal p => cases p <;> cases heq
  | number | name | group | object => cases heq

theorem unique_object {entries : Derivation .properties} (ih : entries.Unique) : (object entries).Unique := by
  intro e xs ys hd he heq hxs hys
  cases e with
  | object entries' =>
    simp only [yield, cons_append, append_assoc, List.cons.injEq, true_and] at heq
    obtain ⟨rfl, hrest⟩ := ih entries' _ _ hd he heq rfl rfl
    exact ⟨rfl, (List.cons.inj hrest).2⟩
  | literal p => cases p <;> cases heq
  | number | name | group | array => cases heq

/-- The symbol behind a list starts none of its elements. -/
theorem not_follow_items (value : Derivation .assign) {v : Category.items.Meaning} :
    ¬ Category.items.Follow v (value.yield ++ zs).head? := by
  obtain ⟨l, hl, hs⟩ := value.starts
  rw [head?_append, hl]
  rintro (h | h) <;> cases h <;> cases hs

theorem not_follow_properties (entry : Derivation .property)
    {v : Category.properties.Meaning} : ¬ Category.properties.Follow v (entry.yield ++ zs).head? := by
  obtain ⟨l, hl, hs⟩ := entry.starts
  rw [head?_append, hl]
  rintro h
  cases h
  cases hs

theorem stops_follow_items {next : Option Lexeme} {v : Category.items.Meaning}
    (h : Category.items.Follow v next) : Stops n next := by
  rcases h with rfl | rfl <;> exact stops_of_none rfl

theorem unique_noItem : noItem.Unique := by
  intro e xs ys hd he heq hxs hys
  cases e with
  | noItem => exact ⟨rfl, heq⟩
  | lastItem value =>
    obtain rfl : xs = _ := heq
    exact absurd hxs (not_follow_items value)
  | item value rest =>
    rw [yield, yield, append_assoc] at heq
    obtain rfl : xs = _ := heq
    exact absurd hxs (not_follow_items value)

theorem unique_lastItem (ih : value.Unique) : (lastItem value).Unique := by
  intro e xs ys hd he heq hxs hys
  cases e with
  | noItem =>
    obtain rfl : _ = ys := heq
    exact absurd hys (not_follow_items value)
  | lastItem value' =>
    obtain ⟨rfl, rfl⟩ := ih value' xs ys hd he heq (stops_follow_items hxs) (stops_follow_items hys)
    exact ⟨rfl, rfl⟩
  | item value' rest =>
    rw [yield, yield, append_assoc] at heq
    obtain ⟨rfl, rfl⟩ := ih value' xs _ hd he.1 heq (stops_follow_items hxs) (stops_of_none rfl)
    rcases hxs with hxs | hxs <;> cases hxs

theorem unique_item {rest : Derivation .items} (ih₁ : value.Unique) (ih₂ : rest.Unique) : (item value rest).Unique := by
  intro e xs ys hd he heq hxs hys
  cases e with
  | noItem =>
    rw [yield, yield, append_assoc] at heq
    obtain rfl : _ = ys := heq
    exact absurd hys (not_follow_items value)
  | lastItem value' =>
    rw [yield, yield, append_assoc] at heq
    obtain ⟨rfl, rfl⟩ := ih₁ value' _ ys hd.1 he heq (stops_of_none rfl) (stops_follow_items hys)
    rcases hys with hys | hys <;> cases hys
  | item value' rest' =>
    rw [yield, yield, append_assoc, append_assoc] at heq
    obtain ⟨rfl, hrest⟩ := ih₁ value' _ _ hd.1 he.1 heq (stops_of_none rfl) (stops_of_none rfl)
    obtain ⟨rfl, rfl⟩ := ih₂ rest' xs ys hd.2 he.2 (List.cons.inj hrest).2 hxs hys
    exact ⟨rfl, rfl⟩

theorem unique_noProperty : noProperty.Unique := by
  intro e xs ys hd he heq hxs hys
  cases e with
  | noProperty => exact ⟨rfl, heq⟩
  | lastProperty entry =>
    obtain rfl : xs = _ := heq
    exact absurd hxs (not_follow_properties entry)
  | property entry rest =>
    rw [yield, yield, append_assoc] at heq
    obtain rfl : xs = _ := heq
    exact absurd hxs (not_follow_properties entry)

theorem unique_lastProperty {entry : Derivation .property} (ih : entry.Unique) : (lastProperty entry).Unique := by
  intro e xs ys hd he heq hxs hys
  cases e with
  | noProperty =>
    obtain rfl : _ = ys := heq
    exact absurd hys (not_follow_properties entry)
  | lastProperty entry' =>
    obtain ⟨rfl, rfl⟩ := ih entry' xs ys hd he heq (.inr hxs) (.inr hys)
    exact ⟨rfl, rfl⟩
  | property entry' rest =>
    rw [yield, yield, append_assoc] at heq
    obtain ⟨rfl, rfl⟩ := ih entry' xs _ hd he.1 heq (.inr hxs) (.inl rfl)
    cases hxs

theorem unique_property {entry : Derivation .property} {rest : Derivation .properties}
    (ih₁ : entry.Unique) (ih₂ : rest.Unique) : (property entry rest).Unique := by
  intro e xs ys hd he heq hxs hys
  cases e with
  | noProperty =>
    rw [yield, yield, append_assoc] at heq
    obtain rfl : _ = ys := heq
    exact absurd hys (not_follow_properties entry)
  | lastProperty entry' =>
    rw [yield, yield, append_assoc] at heq
    obtain ⟨rfl, rfl⟩ := ih₁ entry' _ ys hd.1 he heq (.inl rfl) (.inr hys)
    cases hys
  | property entry' rest' =>
    rw [yield, yield, append_assoc, append_assoc] at heq
    obtain ⟨rfl, hrest⟩ := ih₁ entry' _ _ hd.1 he.1 heq (.inl rfl) (.inl rfl)
    obtain ⟨rfl, rfl⟩ := ih₂ rest' xs ys hd.2 he.2 (List.cons.inj hrest).2 hxs hys
    exact ⟨rfl, rfl⟩

theorem not_endsEntry_colon : ¬ EndsEntry (Lexeme.symbol .colon :: zs).head? := by
  rintro (h | h) <;> cases h

theorem unique_shorthand : (shorthand text).Unique := by
  intro e xs ys hd he heq hxs hys
  cases e with
  | shorthand text' => cases heq; exact ⟨rfl, rfl⟩
  | named text' value => cases heq; exact absurd hxs not_endsEntry_colon
  | quoted | numbered => cases heq

theorem unique_named (ih : value.Unique) : (named text value).Unique := by
  intro e xs ys hd he heq hxs hys
  cases e with
  | shorthand text' => cases heq; exact absurd hys not_endsEntry_colon
  | named text' value' =>
    simp only [yield, cons_append, List.cons.injEq, Lexeme.name.injEq, true_and] at heq
    obtain ⟨rfl, heq⟩ := heq
    obtain ⟨rfl, rfl⟩ := ih value' xs ys hd he heq hxs.stops hys.stops
    exact ⟨rfl, rfl⟩
  | quoted | numbered => cases heq

theorem unique_quoted {q : Quote} (ih : value.Unique) : (quoted q value).Unique := by
  intro e xs ys hd he heq hxs hys
  cases e with
  | quoted q' value' =>
    simp only [yield, cons_append, List.cons.injEq, Lexeme.string.injEq, true_and] at heq
    obtain ⟨rfl, heq⟩ := heq
    obtain ⟨rfl, rfl⟩ := ih value' xs ys hd he heq hxs.stops hys.stops
    exact ⟨rfl, rfl⟩
  | shorthand | named | numbered => cases heq

theorem unique_numbered {digits : List Char} (ih : value.Unique) : (numbered digits value).Unique := by
  intro e xs ys hd he heq hxs hys
  cases e with
  | numbered digits' value' =>
    simp only [yield, cons_append, List.cons.injEq, Lexeme.number.injEq, true_and] at heq
    obtain ⟨rfl, heq⟩ := heq
    obtain ⟨rfl, rfl⟩ := ih value' xs ys hd he heq hxs.stops hys.stops
    exact ⟨rfl, rfl⟩
  | shorthand | named | quoted => cases heq

theorem unique {c : Category} (d : Derivation c) : d.Unique := by
  induction d with
  | unassigned _ ih => exact unique_unassigned ih
  | assign _ _ ih₁ ih₂ => exact unique_assign ih₁ ih₂
  | unconditional _ ih => exact unique_unconditional ih
  | conditional _ _ _ ih₁ ih₂ ih₃ => exact unique_conditional ih₁ ih₂ ih₃
  | operand _ ih =>
    intro e xs ys hd he heq hxs hys
    cases e with
    | operand value =>
      obtain ⟨rfl, rfl⟩ := ih value xs ys hd he heq hxs hys
      exact ⟨rfl, rfl⟩
  | operation _ _ ih₁ ih₂ => exact unique_operation ih₁ ih₂
  | joined => exact unique_joined
  | join _ _ _ _ ih₁ ih₂ => exact unique_join ih₁ ih₂
  | unary _ _ ih => exact unique_unary ih
  | chain _ _ ih₁ ih₂ => exact unique_chain ih₁ ih₂
  | linked => exact unique_linked
  | member _ _ ih => exact unique_member ih
  | index _ _ ih₁ ih₂ => exact unique_index ih₁ ih₂
  | call _ _ ih₁ ih₂ => exact unique_call ih₁ ih₂
  | number => exact unique_number
  | literal => exact unique_literal
  | name => exact unique_name
  | group _ ih => exact unique_group ih
  | array _ ih => exact unique_array ih
  | object _ ih => exact unique_object ih
  | noItem => exact unique_noItem
  | lastItem _ ih => exact unique_lastItem ih
  | item _ _ ih₁ ih₂ => exact unique_item ih₁ ih₂
  | noProperty => exact unique_noProperty
  | lastProperty _ ih => exact unique_lastProperty ih
  | property _ _ ih₁ ih₂ => exact unique_property ih₁ ih₂
  | shorthand => exact unique_shorthand
  | named _ _ ih => exact unique_named ih
  | quoted _ _ ih => exact unique_quoted ih
  | numbered _ _ ih => exact unique_numbered ih

end Derivation

end NullSafe.Surface
