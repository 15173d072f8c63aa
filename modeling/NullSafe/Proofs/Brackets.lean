import Mathlib.Data.List.Forall2
import NullSafe.Proofs.Lexemes

/-! # Brackets in sentences

The brackets of a sentence are paired, and only some tokens stand outside of them: a comma never does. So where
tokens of this kind stand between commas inside brackets, each piece is a sentence of its own.
-/

namespace NullSafe.Surface

open List

def Lexeme.opens : Lexeme → Bool
  | .symbol .openParen | .symbol .openBracket | .symbol .openBrace => true
  | _ => false

def Lexeme.closes : Lexeme → Bool
  | .symbol .closeParen | .symbol .closeBracket | .symbol .closeBrace => true
  | _ => false

/-- How many brackets are open after tokens. There is no answer if a bracket is closed that is not open, or if a
token stands outside brackets that may not. -/
def scan (allows : Lexeme → Bool) : Nat → List Lexeme → Option Nat
  | d, [] => some d
  | d, l :: ls =>
    if l.opens then scan allows (d + 1) ls
    else if l.closes then if d = 0 then none else scan allows (d - 1) ls
    else if d = 0 && !allows l then none
    else scan allows d ls

section Scan

variable {p q : Lexeme → Bool} {l : Lexeme} {xs ys : List Lexeme} {d e : Nat}

theorem scan_open (h : l.opens = true) : scan p d (l :: xs) = scan p (d + 1) xs := by
  rw [scan, if_pos h]

theorem scan_close (h : l.closes = true) : scan p (d + 1) (l :: xs) = scan p d xs := by
  have hopens : l.opens = false := by
    cases l with
    | symbol s => cases s <;> first | rfl | cases h
    | _ => rfl
  rw [scan, hopens, if_neg Bool.false_ne_true, if_pos h]
  rfl

theorem scan_plain (hopens : l.opens = false) (hcloses : l.closes = false) (h : 0 < d ∨ p l = true) :
    scan p d (l :: xs) = scan p d xs := by
  rw [scan, hopens, hcloses, if_neg Bool.false_ne_true, if_neg Bool.false_ne_true, if_neg]
  rcases h with h | h
  · simp [Nat.ne_of_gt h]
  · simp [h]

theorem scan_append : scan p d (xs ++ ys) = (scan p d xs).bind fun e => scan p e ys := by
  induction xs generalizing d with
  | nil => rfl
  | cons l xs ih =>
    simp only [cons_append, scan, ih]
    split
    · rfl
    · split
      · split <;> rfl
      · split <;> rfl

theorem scan_append_of_eq (h : scan p d xs = some e) : scan p d (xs ++ ys) = scan p e ys := by
  rw [scan_append, h]
  rfl

theorem scan_cons_cases (h : scan p d (l :: xs) = some e) :
    (l.opens = true ∧ scan p (d + 1) xs = some e) ∨
      (l.closes = true ∧ ∃ d', d = d' + 1 ∧ scan p d' xs = some e) ∨
      (l.opens = false ∧ l.closes = false ∧ (0 < d ∨ p l = true) ∧ scan p d xs = some e) := by
  rw [scan] at h
  split at h
  · exact .inl ⟨‹_›, h⟩
  · rename_i hopens
    rw [Bool.not_eq_true] at hopens
    split at h
    · split at h
      · cases h
      · exact .inr (.inl ⟨‹_›, d - 1, by omega, h⟩)
    · rename_i hcloses
      rw [Bool.not_eq_true] at hcloses
      split at h
      · cases h
      · rename_i hl
        refine .inr (.inr ⟨hopens, hcloses, ?_, h⟩)
        cases hp : p l with
        | true => exact .inr rfl
        | false => exact .inl (by simp [hp] at hl; omega)

theorem scan_mono (hpq : ∀ l, p l = true → q l = true) (h : scan p d xs = some e) : scan q d xs = some e := by
  induction xs generalizing d with
  | nil => exact h
  | cons l xs ih =>
    obtain ⟨hopens, h'⟩ | ⟨hcloses, d, rfl, h'⟩ | ⟨hopens, hcloses, hl, h'⟩ := scan_cons_cases h
    · rw [scan_open hopens, ih h']
    · rw [scan_close hcloses, ih h']
    · rw [scan_plain hopens hcloses (hl.imp_right (hpq l)), ih h']

/-- Inside brackets everything may stand. -/
theorem scan_inside (h : scan p d xs = some e) (k : Nat) : scan q (d + (k + 1)) xs = some (e + (k + 1)) := by
  induction xs generalizing d with
  | nil => cases h; rfl
  | cons l xs ih =>
    obtain ⟨hopens, h'⟩ | ⟨hcloses, d, rfl, h'⟩ | ⟨hopens, hcloses, -, h'⟩ := scan_cons_cases h
    · rw [scan_open hopens, Nat.add_right_comm, ih h']
    · rw [Nat.add_right_comm, scan_close hcloses, ih h']
    · rw [scan_plain hopens hcloses (.inl (by omega)), ih h']

/-- Brackets are paired, and outside of them are only tokens that may stand there. -/
def Closed (p : Lexeme → Bool) (xs : List Lexeme) : Prop := scan p 0 xs = some 0

namespace Closed

theorem mono (h : Closed p xs) (hpq : ∀ l, p l = true → q l = true) : Closed q xs := scan_mono hpq h

theorem append (hx : Closed p xs) (hy : Closed p ys) : Closed p (xs ++ ys) := (scan_append_of_eq hx).trans hy

theorem cons (hopens : l.opens = false) (hcloses : l.closes = false) (hl : p l = true) (h : Closed p xs) :
    Closed p (l :: xs) :=
  (scan_plain hopens hcloses (.inr hl)).trans h

theorem group {l' : Lexeme} (hl : l.opens = true) (hl' : l'.closes = true) (hx : Closed q xs) (hy : Closed p ys) :
    Closed p (l :: (xs ++ l' :: ys)) := by
  rw [Closed, scan_open hl, scan_append_of_eq (scan_inside hx 0), scan_close hl']
  exact hy

theorem append_cons_inj {l' : Lexeme} {xs' ys' : List Lexeme} (hx : Closed p xs) (hy : Closed p ys)
    (hl : ∀ zs, scan p 0 (l :: zs) = none) (hl' : ∀ zs, scan p 0 (l' :: zs) = none)
    (h : xs ++ l :: xs' = ys ++ l' :: ys') : xs = ys ∧ l = l' ∧ xs' = ys' := by
  rcases append_eq_append_iff.1 h with ⟨_ | ⟨m, ms⟩, hm, hr⟩ | ⟨_ | ⟨m, ms⟩, hm, hr⟩
  · rw [append_nil] at hm
    obtain ⟨rfl, rfl⟩ := List.cons.inj hr
    exact ⟨hm.symm, rfl, rfl⟩
  · obtain ⟨rfl, -⟩ := List.cons.inj hr
    rw [Closed, hm, scan_append_of_eq hx, hl] at hy
    cases hy
  · rw [append_nil] at hm
    obtain ⟨rfl, rfl⟩ := List.cons.inj hr
    exact ⟨hm, rfl, rfl⟩
  · obtain ⟨rfl, -⟩ := List.cons.inj hr
    rw [Closed, hm, scan_append_of_eq hy, hl'] at hx
    cases hx

end Closed

end Scan

/-- The tokens of a category that may stand outside brackets. -/
def Category.outer : Category → Lexeme → Bool
  | assign, l | conditional, l => l != .symbol .comma
  | operation _, l | joins _, l | unary, l | links, l | primary, l =>
    l != .symbol .comma && l != .symbol .assign && l != .symbol .question && l != .symbol .colon
  | items, _ | properties, _ | property, _ => true

theorem Category.outer_of_operation {n : Nat} (l : Lexeme) (h : (operation n).outer l = true) :
    conditional.outer l = true := by
  simp only [Category.outer, Bool.and_eq_true] at h ⊢
  exact h.1.1.1

/-- The brackets of a derivation are paired, and outside of them are only the tokens of its category. -/
theorem Derivation.closed_yield {c : Category} (d : Derivation c) : Closed c.outer d.yield := by
  induction d with
  | unassigned _ ih | operand _ ih | lastProperty _ ih => exact ih
  | unconditional _ ih => exact ih.mono Category.outer_of_operation
  | assign _ _ ih₁ ih₂ => exact .append ih₁ (.cons rfl rfl rfl ih₂)
  | conditional _ _ _ ih₁ ih₂ ih₃ =>
    exact .append (ih₁.mono Category.outer_of_operation) (.cons rfl rfl rfl (.append ih₂ (.cons rfl rfl rfl ih₃)))
  | operation _ _ ih₁ ih₂ | chain _ _ ih₁ ih₂ => exact .append ih₁ ih₂
  | joined | linked | noItem | noProperty | number | name | shorthand => rfl
  | literal p => cases p <;> rfl
  | join op _ _ _ ih₁ ih₂ =>
    refine .cons ?_ ?_ ?_ (.append ih₁ ih₂) <;> rcases op with op | op <;> cases op <;> rfl
  | unary op _ ih => refine .cons ?_ ?_ ?_ ih <;> cases op <;> rfl
  | member _ _ ih => exact .cons rfl rfl rfl (.cons rfl rfl rfl ih)
  | index _ _ ih₁ ih₂ | call _ _ ih₁ ih₂ => exact .group rfl rfl ih₁ ih₂
  | group _ ih | array _ ih | object _ ih => exact .group rfl rfl ih rfl
  | lastItem _ ih => exact ih.mono fun _ _ => rfl
  | item _ _ ih₁ ih₂ => exact .append (ih₁.mono fun _ _ => rfl) (.cons rfl rfl rfl ih₂)
  | property _ _ ih₁ ih₂ => exact .append ih₁ (.cons rfl rfl rfl ih₂)
  | named _ _ ih | quoted _ _ ih | numbered _ _ ih =>
    exact .cons rfl rfl rfl (.cons rfl rfl rfl (ih.mono fun _ _ => rfl))

section Operands

/-- Tokens start with an operand. Only an operator can follow it, and if none does, they mean what the operand
means. -/
def StartsWithOperand (valid : Prop) (ls : List Lexeme) (v : Expr Placeholder) : Prop :=
  ∃ (u : Derivation .unary) (tail : List Lexeme), ls = u.yield ++ tail ∧ (valid → u.Valid) ∧
    (∀ l ∈ tail.head?, ∃ b, l.binding = some (b + 1)) ∧ (tail = [] → v = u.meaning)

theorem StartsWithOperand.append {valid valid' : Prop} {ls ys : List Lexeme} {v w : Expr Placeholder}
    (h : StartsWithOperand valid ls v) (hvalid : valid' → valid)
    (hys : ∀ l ∈ ys.head?, ∃ b, l.binding = some (b + 1)) (hw : ys = [] → w = v) :
    StartsWithOperand valid' (ls ++ ys) w := by
  obtain ⟨u, tail, rfl, hu, htail, hv⟩ := h
  refine ⟨u, tail ++ ys, append_assoc .., hu ∘ hvalid, fun l hl => ?_, fun hnil => ?_⟩
  · rw [head?_append] at hl
    rcases htail' : tail.head? with _ | l'
    · rw [htail'] at hl
      exact hys l hl
    · rw [htail'] at hl
      exact htail l (htail'.trans hl)
  · obtain ⟨htail, hys⟩ := append_eq_nil_iff.1 hnil
    rw [hw hys, hv htail]

namespace Derivation

theorem startsWithOperand_operation {n : Nat} (d : Derivation (.operation n)) :
    StartsWithOperand d.Valid d.yield d.meaning := by
  induction n with
  | zero =>
    cases d with
    | operand u => exact ⟨u, [], (append_nil _).symm, id, nofun, fun _ => rfl⟩
  | succ n ih =>
    cases d with
    | operation first rest =>
      refine (ih first).append And.left ?_ ?_
      · cases rest with
        | joined => exact nofun
        | join op h right rest =>
          rintro l ⟨⟩
          exact ⟨n, (binding_operator op).trans (congrArg some h)⟩
      · cases rest with
        | joined => exact fun _ => rfl
        | join => exact nofun

theorem startsWithOperand_conditional (d : Derivation .conditional) : StartsWithOperand d.Valid d.yield d.meaning := by
  cases d with
  | unconditional value => exact value.startsWithOperand_operation
  | conditional test yes no =>
    refine test.startsWithOperand_operation.append And.left ?_ nofun
    rintro l ⟨⟩
    exact ⟨6, rfl⟩

theorem startsWithOperand (d : Derivation .assign) : StartsWithOperand d.Valid d.yield d.meaning := by
  cases d with
  | unassigned value => exact value.startsWithOperand_conditional
  | assign target value =>
    refine target.startsWithOperand_conditional.append And.left ?_ nofun
    rintro l ⟨⟩
    exact ⟨7, rfl⟩

end Derivation

end Operands

section Calls

variable {rest : Derivation .links} {tail zs : List Lexeme} {pieces : List (List Lexeme)}
  (htail : ∀ l ∈ tail.head?, ∃ b, l.binding = some (b + 1))

include htail

theorem links_ne_linked {l : Lexeme} (hl : l.binding = some 0) (h : rest.yield ++ tail = l :: zs) : rest ≠ .linked := by
  rintro rfl
  obtain rfl : tail = l :: zs := h
  obtain ⟨b, hb⟩ := htail l rfl
  rw [hl] at hb
  cases hb

theorem exists_member {text : List Char} (h : rest.yield ++ tail = .symbol .dot :: .name text :: zs) :
    ∃ rest', rest = .member text rest' ∧ rest'.yield ++ tail = zs := by
  cases rest with
  | linked => exact absurd rfl (links_ne_linked htail rfl h)
  | member text' rest' =>
    simp only [Derivation.yield, cons_append, List.cons.injEq, Lexeme.name.injEq, true_and] at h
    obtain ⟨rfl, h⟩ := h
    exact ⟨rest', rfl, h⟩
  | index | call => cases h

theorem exists_call (h : rest.yield ++ tail = .symbol .openParen :: zs) :
    ∃ arguments rest', rest = .call arguments rest' ∧
      arguments.yield ++ Lexeme.symbol .closeParen :: (rest'.yield ++ tail) = zs := by
  cases rest with
  | linked => exact absurd rfl (links_ne_linked htail rfl h)
  | call arguments rest' =>
    simp only [Derivation.yield, cons_append, append_assoc, List.cons.injEq, true_and] at h
    exact ⟨arguments, rest', rfl, h⟩
  | member | index => cases h

omit htail

theorem exists_chain {text : List Char} {u : Derivation .unary} (htext : text ≠ "typeof".toList)
    (h : u.yield ++ tail = .name text :: zs) :
    ∃ rest, u = .chain (.name text htext) rest ∧ rest.yield ++ tail = zs := by
  cases u with
  | unary op value =>
    cases op <;> cases h
    exact absurd rfl htext
  | chain root rest =>
    cases root with
    | name text' htext' => cases h; exact ⟨rest, rfl, rfl⟩
    | literal p => cases p <;> cases h
    | number | group | array | object => cases h

variable {root object method : List Char} {xs : List Lexeme} {v : Expr Placeholder}

theorem binding_after_member {l : Lexeme} (hroot : root ≠ "typeof".toList)
    (h : Derives .assign (.name root :: .symbol .dot :: .name object :: l :: zs) v) : l.binding ≠ none := by
  obtain ⟨d, -, hy, -⟩ := h
  obtain ⟨u, tail, hu, -, htail, -⟩ := d.startsWithOperand
  obtain ⟨links, rfl, hlinks⟩ := exists_chain hroot (hu.symm.trans hy)
  obtain ⟨rest, rfl, hrest⟩ := exists_member htail hlinks
  cases rest with
  | linked =>
    obtain rfl : tail = l :: zs := hrest
    obtain ⟨b, hb⟩ := htail l rfl
    rw [hb]
    exact nofun
  | member | index | call => cases hrest; exact nofun

/-- What is called and with what, where the brackets of a call are the last ones. -/
theorem exists_items (hroot : root ≠ "typeof".toList) (hx : Closed (fun _ => true) xs)
    (h : Derives .assign (.name root :: .symbol .dot :: .name object :: .symbol .dot :: .name method ::
      .symbol .openParen :: (xs ++ [Lexeme.symbol .closeParen])) v) :
    ∃ items : Derivation .items, items.Valid ∧ items.yield = xs ∧
      v = .call (.member (.member (Parser.nameTree root) (String.ofList object)) (String.ofList method))
        items.meaning := by
  obtain ⟨d, hd, hy, rfl⟩ := h
  obtain ⟨u, tail, hu, hvalid, htail, hv⟩ := d.startsWithOperand
  obtain ⟨links, rfl, hlinks⟩ := exists_chain hroot (hu.symm.trans hy)
  obtain ⟨links', rfl, hlinks'⟩ := exists_member htail hlinks
  obtain ⟨links'', rfl, hlinks''⟩ := exists_member htail hlinks'
  obtain ⟨items, last, rfl, hlast⟩ := exists_call htail hlinks''
  have hclosed : Closed (fun _ => true) items.yield := items.closed_yield
  obtain ⟨hyield, -, hnil⟩ := hclosed.append_cons_inj hx (fun _ => rfl) (fun _ => rfl) hlast
  obtain ⟨hlinked, rfl⟩ := append_eq_nil_iff.1 hnil
  obtain rfl : last = .linked := by
    cases last with
    | linked => rfl
    | member | index | call => cases hlinked
  exact ⟨items, (hvalid hd).2.1, hyield, hv rfl⟩

theorem scan_comma (zs : List Lexeme) : scan Category.assign.outer 0 (.symbol .comma :: zs) = none := rfl

theorem not_closed_append_comma {xs : List Lexeme} (hx : Closed Category.assign.outer xs) (zs : List Lexeme) :
    ¬ Closed Category.assign.outer (xs ++ Lexeme.symbol .comma :: zs) := by
  rw [Closed, scan_append_of_eq hx, scan_comma]
  exact nofun

theorem yield_ne_nil (d : Derivation .assign) : d.yield ≠ [] := by
  intro h
  obtain ⟨l, hl, -⟩ := d.starts
  rw [h] at hl
  cases hl

theorem forall₂_derives_of_items
    (hclosed : ∀ x ∈ pieces, Closed Category.assign.outer x) (hlast : pieces.getLast? ≠ some [])
    (items : Derivation .items) (hitems : items.Valid)
    (hy : items.yield = List.intercalate [.symbol .comma] pieces) :
    List.Forall₂ (Derives .assign) pieces items.meaning := by
  induction pieces generalizing items with
  | nil =>
    cases items with
    | noItem => exact .nil
    | lastItem value => exact absurd hy (yield_ne_nil value)
    | item value rest => exact absurd hy (by simp)
  | cons x pieces ih =>
    have hx := hclosed x (.head _)
    rcases pieces with _ | ⟨x', pieces⟩
    · rw [intercalate_singleton] at hy
      cases items with
      | noItem => exact absurd (congrArg some hy.symm) hlast
      | lastItem value => exact .cons ⟨value, hitems, hy, rfl⟩ .nil
      | item value rest => exact absurd (hy ▸ hx) (not_closed_append_comma value.closed_yield _)
    · rw [intercalate_cons_cons, append_assoc, singleton_append] at hy
      cases items with
      | noItem => exact absurd hy.symm (by simp)
      | lastItem value =>
        have hvalue := value.closed_yield
        rw [show value.yield = _ from hy] at hvalue
        exact absurd hvalue (not_closed_append_comma hx _)
      | item value rest =>
        obtain ⟨hvalue, -, hrest⟩ := value.closed_yield.append_cons_inj hx scan_comma scan_comma hy
        exact .cons ⟨value, hitems.1, hvalue, rfl⟩
          (ih (fun y hy => hclosed y (.tail _ hy)) (by simpa using hlast) rest hitems.2 hrest)

theorem exists_items_of_forall₂ {vs : List (Expr Placeholder)} (h : List.Forall₂ (Derives .assign) pieces vs) :
    ∃ items : Derivation .items, items.Valid ∧ items.yield = List.intercalate [.symbol .comma] pieces ∧
      items.meaning = vs := by
  induction h with
  | nil => exact ⟨.noItem, trivial, rfl, rfl⟩
  | @cons x v pieces vs hx hrest ih =>
    obtain ⟨d, hd, rfl, rfl⟩ := hx
    cases hrest with
    | nil => exact ⟨.lastItem d, hd, (intercalate_singleton ..).symm, rfl⟩
    | cons _ _ =>
      obtain ⟨items, hitems, hy, hm⟩ := ih
      refine ⟨.item d items, ⟨hd, hitems⟩, ?_, congrArg (d.meaning :: ·) hm⟩
      rw [intercalate_cons_cons, append_assoc, singleton_append, ← hy]
      rfl

/-- The tokens of a method call, with its arguments between commas. -/
def callLexemes (root object method : List Char) (arguments : List (List Lexeme)) : List Lexeme :=
  .name root :: .symbol .dot :: .name object :: .symbol .dot :: .name method :: .symbol .openParen ::
    (List.intercalate [.symbol .comma] arguments ++ [Lexeme.symbol .closeParen])

theorem derives_callLexemes {vs : List (Expr Placeholder)}
    (hroot : root ≠ "typeof".toList) (h : List.Forall₂ (Derives .assign) pieces vs) :
    Derives .assign (callLexemes root object method pieces)
      (.call (.member (.member (Parser.nameTree root) (String.ofList object)) (String.ofList method)) vs) := by
  obtain ⟨items, hitems, hy, rfl⟩ := exists_items_of_forall₂ h
  refine derives_unary ⟨.chain (.name root hroot) (.member object (.member method (.call items .linked))), ?_, ?_, rfl⟩
  · simpa [Derivation.Valid] using hitems
  · simp [callLexemes, hy]

theorem fit_intercalate_iff : Fit (List.intercalate [.symbol .comma] pieces) ↔ ∀ x ∈ pieces, Fit x := by
  induction pieces with
  | nil => simp [Fit]
  | cons x pieces ih =>
    rcases pieces with _ | ⟨x', pieces⟩
    · rw [intercalate_singleton, forall_mem_singleton]
    · rw [intercalate_cons_cons, append_assoc, fit_append, fit_append, ih, forall_mem_cons,
        forall_mem_cons, fit_cons]
      simp [Lexeme.fits, fit_nil]

theorem fit_callLexemes_iff : Fit (callLexemes root object method pieces) ↔ ∀ x ∈ pieces, Fit x := by
  simp only [callLexemes, fit_cons, fit_append, fit_intercalate_iff, Lexeme.fits, fit_nil, true_and, and_true]

end Calls

section Unbroken

/-- No bracket is closed that is not open, and outside brackets are only tokens that may stand there. -/
def Unbroken (p : Lexeme → Bool) (xs : List Lexeme) : Prop := ∃ d, scan p 0 xs = some d

variable {p q : Lexeme → Bool} {xs ys : List Lexeme} {d e : Nat}

theorem scan_add (h : scan p 0 xs = some e) (d : Nat) : scan (fun _ => true) d xs = some (e + d) := by
  cases d with
  | zero => exact scan_mono (fun _ _ => rfl) h
  | succ d =>
    have hinside := scan_inside (q := fun _ => true) h d
    rwa [Nat.zero_add] at hinside

/-- If brackets are closed after tokens between commas, then they are closed after each of them. -/
theorem closed_of_intercalate {pieces : List (List Lexeme)} (h : ∀ x ∈ pieces, Unbroken p x) :
    ∃ e, scan (fun _ => true) 0 (List.intercalate [.symbol .comma] pieces) = some e ∧
      (e = 0 → ∀ x ∈ pieces, Closed p x) := by
  induction pieces with
  | nil => exact ⟨0, rfl, fun _ => nofun⟩
  | cons x pieces ih =>
    obtain ⟨d, hd⟩ := h x (.head _)
    obtain ⟨e, he, hclosed⟩ := ih fun y hy => h y (.tail _ hy)
    rcases pieces with _ | ⟨x', pieces⟩
    · refine ⟨d, ?_, ?_⟩
      · rw [intercalate_singleton]
        exact scan_mono (fun _ _ => rfl) hd
      · rintro rfl
        exact forall_mem_singleton.2 hd
    · refine ⟨e + d, ?_, fun hzero => ?_⟩
      · rw [intercalate_cons_cons, append_assoc, scan_append_of_eq (scan_mono (fun _ _ => rfl) hd),
          singleton_append, scan_plain rfl rfl (.inr rfl)]
        exact scan_add he d
      · obtain ⟨rfl, rfl⟩ := Nat.add_eq_zero_iff.1 hzero
        exact forall_mem_cons.2 ⟨hd, hclosed rfl⟩

theorem scan_call (hx : Closed q xs) (hy : scan p 0 ys = some e) :
    scan q 0 (xs ++ Lexeme.symbol .openParen :: (ys ++ [Lexeme.symbol .closeParen])) = some e := by
  rw [scan_append_of_eq hx, scan_open rfl, scan_append_of_eq (scan_inside hy 0), scan_close rfl]
  rfl

theorem closed_of_forall (h : ∀ l ∈ xs, l.opens = false ∧ l.closes = false ∧ p l = true) : Closed p xs := by
  induction xs with
  | nil => rfl
  | cons l xs ih =>
    obtain ⟨⟨hopens, hcloses, hl⟩, hrest⟩ := forall_mem_cons.1 h
    exact .cons hopens hcloses hl (ih hrest)

/-- The arguments of a method call are sentences if the call is one and they are unbroken. -/
theorem derives_callLexemes_iff {root object method : List Char} {pieces : List (List Lexeme)}
    {v : Expr Placeholder} (hroot : root ≠ "typeof".toList)
    (h : ∀ x ∈ pieces, Unbroken Category.assign.outer x) (hlast : pieces.getLast? ≠ some []) :
    Derives .assign (callLexemes root object method pieces) v ↔
      ∃ vs, List.Forall₂ (Derives .assign) pieces vs ∧
        v = .call (.member (.member (Parser.nameTree root) (String.ofList object)) (String.ofList method)) vs := by
  constructor
  · intro hv
    obtain ⟨e, he, hclosed⟩ := closed_of_intercalate h
    have hzero : e = 0 := by
      obtain ⟨d, -, hy, -⟩ := hv
      have hd := d.closed_yield.mono (q := fun _ => true) fun _ _ => rfl
      rw [hy] at hd
      have hcallee : Closed (fun _ => true) [.name root, .symbol .dot, .name object, .symbol .dot, .name method] := rfl
      exact Option.some.inj ((scan_call hcallee he).symm.trans hd)
    subst hzero
    obtain ⟨items, hitems, hy, rfl⟩ := exists_items hroot he hv
    exact ⟨_, forall₂_derives_of_items (hclosed rfl) hlast items hitems hy, rfl⟩
  · rintro ⟨vs, hvs, rfl⟩
    exact derives_callLexemes hroot hvs

/-- Whether a token can stand outside brackets on the left side of an assignment. -/
def Lexeme.inTarget (l : Lexeme) : Bool := l != .symbol .question && l != .symbol .assign

/-- Both sides of an assignment are sentences if it is one, and if neither holds a condition that the sign could be
a part of. -/
theorem derives_assignment_iff {v : Expr Placeholder} (hx : Unbroken Lexeme.inTarget xs)
    (hy : Unbroken (· != .symbol .question) ys) :
    Derives .assign (xs ++ Lexeme.symbol .assign :: ys) v ↔
      ∃ t w, Derives .assign xs t ∧ Expr.isTarget t = true ∧ Derives .assign ys w ∧ v = .assign t w := by
  constructor
  · rintro ⟨d, hd, heq, rfl⟩
    obtain ⟨m, hm⟩ := hx
    obtain ⟨n, hn⟩ := hy
    obtain ⟨rfl, rfl⟩ : n = 0 ∧ m = 0 := by
      have hclosed := d.closed_yield.mono (q := fun _ => true) fun _ _ => rfl
      rw [heq, Closed, scan_append_of_eq (scan_add hm 0), scan_plain rfl rfl (.inr rfl), scan_add hn] at hclosed
      simpa using hclosed
    have hquestion : Closed (· != .symbol .question) (xs ++ Lexeme.symbol .assign :: ys) := by
      have hxs : Closed (· != .symbol .question) xs :=
        scan_mono (fun l hl => by simp only [Lexeme.inTarget, Bool.and_eq_true] at hl; exact hl.1) hm
      exact hxs.append (.cons rfl rfl rfl hn)
    have htest : ∀ {test : Derivation (.operation 6)} {zs : List Lexeme},
        test.yield ++ Lexeme.symbol .question :: zs ≠ xs ++ Lexeme.symbol .assign :: ys := by
      intro test zs h
      have htest : Closed (· != .symbol .question) test.yield :=
        test.closed_yield.mono fun l hl => by simp only [Category.outer, Bool.and_eq_true] at hl; exact hl.1.2
      rw [← h, Closed, scan_append_of_eq htest] at hquestion
      cases hquestion
    have hassign : ∀ value : Derivation (.operation 6), Closed (· != .symbol .assign) value.yield := fun value =>
      value.closed_yield.mono fun l hl => by simp only [Category.outer, Bool.and_eq_true] at hl; exact hl.1.1.2
    have hxs : Closed (· != .symbol .assign) xs :=
      scan_mono (fun l hl => by simp only [Lexeme.inTarget, Bool.and_eq_true] at hl; exact hl.2) hm
    cases d with
    | unassigned value =>
      cases value with
      | unconditional value =>
        have hvalue := hassign value
        rw [show value.yield = _ from heq, Closed, scan_append_of_eq hxs] at hvalue
        cases hvalue
      | conditional test yes no => exact absurd heq htest
    | assign target value =>
      cases target with
      | unconditional target =>
        obtain ⟨rfl, -, rfl⟩ := (hassign target).append_cons_inj hxs (fun _ => rfl) (fun _ => rfl) heq
        exact ⟨_, _, ⟨.unassigned (.unconditional target), hd.1, rfl, rfl⟩, hd.2.1, ⟨value, hd.2.2, rfl, rfl⟩, rfl⟩
      | conditional test yes no =>
        rw [Derivation.yield, Derivation.yield, append_assoc] at heq
        exact absurd heq htest
  · rintro ⟨_, _, ⟨dx, hdx, rfl, rfl⟩, htarget, ⟨dy, hdy, rfl, rfl⟩, rfl⟩
    cases dx with
    | unassigned target => exact ⟨.assign target dy, ⟨hdx, htarget, hdy⟩, rfl, rfl⟩
    | assign target value => cases htarget

end Unbroken

end NullSafe.Surface
