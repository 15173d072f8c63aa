import NullSafe.Proofs.Chains
import NullSafe.Proofs.Printing

/-! # Literals through parsing and generation

An expression is written with literals and words. A derivation means an expression with the literals of its
tokens, in their order, and the code generated for an expression has the literals of the expression, again
in their order. Words are spelled without delimiters, so the text of the code has no other placeholders.
-/

namespace NullSafe

open Surface Literal List

variable {ι : Type}

/-- What an expression is written with: a literal or a word. -/
inductive Atom (ι : Type) where
  | literal (x : ι)
  | word (s : String)
  deriving DecidableEq, Repr

namespace Atom

def literal? : Atom ι → Option ι
  | literal x => some x
  | word _ => none

def leaves (as : List (Atom ι)) : List ι := as.filterMap literal?

/-- Every word among atoms is a word of the generated code. -/
def Spelled (as : List (Atom ι)) : Prop := ∀ s, word s ∈ as → Word s

variable {as bs : List (Atom ι)} {x : ι} {s : String}

@[simp] theorem leaves_nil : leaves ([] : List (Atom ι)) = [] := rfl

@[simp] theorem leaves_literal : leaves (literal x :: as) = x :: leaves as := rfl

@[simp] theorem leaves_word : leaves (word s :: as) = leaves as := rfl

@[simp] theorem leaves_append : leaves (as ++ bs) = leaves as ++ leaves bs := filterMap_append

@[simp] theorem spelled_nil : Spelled ([] : List (Atom ι)) := nofun

@[simp] theorem spelled_literal : Spelled (literal x :: as) ↔ Spelled as := by simp [Spelled]

@[simp] theorem spelled_word : Spelled (word s :: as) ↔ Word s ∧ Spelled as := by simp [Spelled]

@[simp] theorem spelled_append : Spelled (as ++ bs) ↔ Spelled as ∧ Spelled bs := by
  simp [Spelled, or_imp, forall_and]

end Atom

def Surface.Key.atoms : Key ι → List (Atom ι)
  | .name s | .number s => [.word s]
  | .literal x => [.literal x]

namespace Surface.Expr

mutual

def atoms : Expr ι → List (Atom ι)
  | .number s | .name s => [.word s]
  | .literal x => [.literal x]
  | .constant _ | .this => []
  | .array items => atomsAll items
  | .object entries => atomsEntries entries
  | .member target s => atoms target ++ [Atom.word s]
  | .index target key => atoms target ++ atoms key
  | .call callee arguments => atoms callee ++ atomsAll arguments
  | .unary _ operand => atoms operand
  | .binary _ left right | .logical _ left right => atoms left ++ atoms right
  | .conditional test yes no => atoms test ++ (atoms yes ++ atoms no)
  | .assign target value => atoms target ++ atoms value

def atomsAll : List (Expr ι) → List (Atom ι)
  | [] => []
  | t :: rest => atoms t ++ atomsAll rest

def atomsEntries : List (Key ι × Expr ι) → List (Atom ι)
  | [] => []
  | (k, t) :: rest => (k.atoms ++ atoms t) ++ atomsEntries rest

end

def leaves (t : Expr ι) : List ι := Atom.leaves t.atoms

end Surface.Expr

section Parsing

variable {as bs : List (Atom Placeholder)} {xs ys : List Lexeme}

/-- Atoms that tokens spell: they have the literals of the tokens, and tidy words if the tokens have. -/
structure Covers (as : List (Atom Placeholder)) (ls : List Lexeme) : Prop where
  leaves : Atom.leaves as = tokenPlaceholders ls
  spelled : (∀ l ∈ ls, Tidy l) → Atom.Spelled as

namespace Covers

theorem nil : Covers [] [] := ⟨rfl, fun _ => Atom.spelled_nil⟩

theorem append (h : Covers as xs) (h' : Covers bs ys) : Covers (as ++ bs) (xs ++ ys) where
  leaves := by
    rw [Atom.leaves_append, h.leaves, h'.leaves]
    exact filterMap_append.symm
  spelled ht := by
    rw [forall_mem_append] at ht
    exact Atom.spelled_append.2 ⟨h.spelled ht.1, h'.spelled ht.2⟩

theorem symbol (s : Symbol) (h : Covers as xs) : Covers as (.symbol s :: xs) where
  leaves := h.leaves
  spelled ht := h.spelled (forall_mem_cons.1 ht).2

theorem closed (s : Symbol) (h : Covers as xs) : Covers as (xs ++ [Lexeme.symbol s]) := by
  have happend := h.append (nil.symbol s)
  rwa [append_nil] at happend

theorem literal (p : Placeholder) (h : Covers as xs) : Covers (.literal p :: as) (.ofPlaceholder p :: xs) where
  leaves := by rw [Atom.leaves_literal, h.leaves]; cases p <;> rfl
  spelled ht := Atom.spelled_literal.2 (h.spelled (forall_mem_cons.1 ht).2)

theorem name (cs : List Char) (h : Covers as xs) : Covers (.word (String.ofList cs) :: as) (.name cs :: xs) where
  leaves := h.leaves
  spelled ht := by
    obtain ⟨hcs, hxs⟩ := forall_mem_cons.1 ht
    rw [Atom.spelled_word, Word, String.toList_ofList]
    exact ⟨hcs, h.spelled hxs⟩

theorem word_numeralText {cs : List Char} (h : Tidy (.number cs)) : Word (numeralText cs) := by
  obtain ⟨hne, hcs⟩ := h
  unfold numeralText
  split
  · exact word_toString _
  · split
    · exact word_toString _
    · split <;> rw [Word, String.toList_ofList]
      · exact ⟨by simp, plain_append.2 ⟨hcs, by decide⟩⟩
      · exact ⟨hne, hcs⟩

/-- A name that is its own value is written once and is two words. -/
theorem twice (cs : List Char) :
    Covers ([Atom.word (String.ofList cs)] ++ [Atom.word (String.ofList cs)]) [.name cs] where
  leaves := rfl
  spelled ht := by
    have hname := (nil.name cs).spelled ht
    exact Atom.spelled_append.2 ⟨hname, hname⟩

theorem concat_nil (h : Covers as xs) : Covers (as ++ []) xs := by rwa [append_nil]

theorem number (cs : List Char) (h : Covers as xs) : Covers (.word (numeralText cs) :: as) (.number cs :: xs) where
  leaves := h.leaves
  spelled ht := by
    obtain ⟨hcs, hxs⟩ := forall_mem_cons.1 ht
    exact Atom.spelled_word.2 ⟨word_numeralText hcs, h.spelled hxs⟩

theorem nameTree (cs : List Char) : Covers (Parser.nameTree cs).atoms [.name cs] := by
  have hnone : Covers [] [.name cs] := ⟨rfl, fun _ => Atom.spelled_nil⟩
  unfold Parser.nameTree
  dsimp only
  repeat' split
  all_goals first | exact hnone | exact nil.name cs

end Covers

/-- The tokens of a derivation spell the atoms of what it means. -/
def Surface.Category.Spells : (c : Category) → List Lexeme → c.Meaning → Prop
  | assign, ls, t | conditional, ls, t | operation _, ls, t | unary, ls, t | primary, ls, t =>
    Covers (Expr.atoms t) ls
  | joins _, ls, f | links, ls, f =>
    ∀ (t : Expr Placeholder) (before : List Lexeme), Covers t.atoms before → Covers (f t).atoms (before ++ ls)
  | items, ls, ts => Covers (Expr.atomsAll ts) ls
  | properties, ls, es => Covers (Expr.atomsEntries es) ls
  | property, ls, e => Covers (e.1.atoms ++ e.2.atoms) ls

theorem Surface.Derivation.spells {c : Category} (d : Derivation c) : c.Spells d.yield d.meaning := by
  induction d with
  | unassigned _ ih | unconditional _ ih | operand _ ih => exact ih
  | assign _ _ iht ihv => exact iht.append (ihv.symbol _)
  | conditional _ _ _ iht ihy ihn => exact iht.append ((ihy.append (ihn.symbol _)).symbol _)
  | operation _ _ ihf ihr => exact ihr _ _ ihf
  | joined | linked => exact fun t before h => (append_nil before).symm ▸ h
  | join op _ right _ ihr ihj =>
    intro t before h
    have hop : Covers (op.apply t right.meaning).atoms (before ++ Lexeme.symbol op.symbol :: right.yield) := by
      cases op <;> exact h.append (ihr.symbol _)
    have hjoins := ihj _ _ hop
    rw [append_assoc] at hjoins
    exact hjoins
  | unary op _ ih =>
    cases op
    case typeof => exact ⟨ih.leaves, fun ht => ih.spelled (forall_mem_cons.1 ht).2⟩
    all_goals exact ih.symbol _
  | chain _ _ ihr ihl => exact ihl _ _ ihr
  | member cs _ ih =>
    intro t before h
    have hmember : Covers (Expr.member t (String.ofList cs)).atoms
        (before ++ [Lexeme.symbol .dot, .name cs]) := h.append ((Covers.nil.name cs).symbol _)
    have hlinks := ih _ _ hmember
    rw [append_assoc] at hlinks
    exact hlinks
  | index key _ ihk ihl =>
    intro t before h
    have hindex : Covers (Expr.index t key.meaning).atoms
        (before ++ Lexeme.symbol .openBracket :: (key.yield ++ [Lexeme.symbol .closeBracket])) :=
      h.append ((ihk.closed _).symbol _)
    have hlinks := ihl _ _ hindex
    rw [append_assoc, cons_append, append_assoc] at hlinks
    exact hlinks
  | call arguments _ iha ihl =>
    intro t before h
    have hcall : Covers (Expr.call t arguments.meaning).atoms
        (before ++ Lexeme.symbol .openParen :: (arguments.yield ++ [Lexeme.symbol .closeParen])) :=
      h.append ((iha.closed _).symbol _)
    have hlinks := ihl _ _ hcall
    rw [append_assoc, cons_append, append_assoc] at hlinks
    exact hlinks
  | number cs => exact Covers.nil.number cs
  | literal p => exact Covers.nil.literal p
  | name cs _ => exact Covers.nameTree cs
  | group _ ih | array _ ih | object _ ih => exact (ih.closed _).symbol _
  | noItem | noProperty => exact .nil
  | lastItem _ ih | lastProperty _ ih => exact ih.concat_nil
  | item _ _ ihv ihr => exact ihv.append (ihr.symbol _)
  | property _ _ ihe ihr => exact ihe.append (ihr.symbol _)
  | shorthand cs => exact .twice cs
  | named cs _ ih => exact (ih.symbol _).name cs
  | quoted q _ ih => exact (ih.symbol _).literal (.string q)
  | numbered cs _ ih => exact (ih.symbol _).number cs

end Parsing

section Texts

variable {gs hs : List (Glyph Placeholder)} {ps qs : List Placeholder} {s : String}

/-- A text that shows the given literals, in order, and has no placeholders but theirs. -/
structure Shows (gs : List (Glyph Placeholder)) (ps : List Placeholder) : Prop where
  leaves : Glyph.leaves gs = ps
  separated : Separated none gs

namespace Shows

theorem write (h : Word s) : Shows (Code.write s) [] := ⟨Glyph.leaves_write s, separated_write h⟩

theorem quoted (h : Word s) : Shows (Code.write (quoted s)) [] :=
  ⟨Glyph.leaves_write _, separated_quoted h⟩

theorem leaf (p : Placeholder) : Shows [.leaf p] [p] := ⟨rfl, .leaf nofun .nil⟩

theorem opened (hs' : Word s) (h : Shows hs qs) : Shows (Code.write s ++ hs) qs where
  leaves := by rw [Glyph.leaves_append, Glyph.leaves_write, nil_append, h.leaves]
  separated := (separated_write_append hs').2 h.separated

theorem closed (hs' : Word s) (h : Shows gs ps) : Shows (gs ++ Code.write s) ps where
  leaves := by rw [Glyph.leaves_append, Glyph.leaves_write, append_nil, h.leaves]
  separated := (separated_append_last hs').2 h.separated

theorem between (hs' : Word s) (h : Shows gs ps) (h' : Shows hs qs) :
    Shows (gs ++ (Code.write s ++ hs)) (ps ++ qs) where
  leaves := by
    rw [Glyph.leaves_append, Glyph.leaves_append, Glyph.leaves_write, nil_append, h.leaves, h'.leaves]
  separated := (separated_append_write hs').2 ⟨h.separated, h'.separated⟩

end Shows

structure ShowAll (texts : List (List (Glyph Placeholder))) (ps : List Placeholder) : Prop where
  leaves : texts.flatMap Glyph.leaves = ps
  separated : ∀ t ∈ texts, Separated none t

namespace ShowAll

variable {texts : List (List (Glyph Placeholder))}

theorem nil : ShowAll [] [] := ⟨rfl, nofun⟩

theorem cons (h : Shows gs ps) (h' : ShowAll texts qs) : ShowAll (gs :: texts) (ps ++ qs) where
  leaves := by rw [flatMap_cons, h.leaves, h'.leaves]
  separated := forall_mem_cons.2 ⟨h.separated, h'.separated⟩

theorem one (h : Shows gs ps) : ShowAll [gs] ps := by
  have hcons := cons h nil
  rwa [append_nil] at hcons

theorem commaSeparated (h : ShowAll texts ps) : Shows (Code.commaSeparated texts) ps where
  leaves := by
    rw [← h.leaves]
    clear h
    induction texts with
    | nil => rfl
    | cons t texts ih =>
      cases texts with
      | nil => simp [Code.commaSeparated]
      | cons u texts => simp [Code.commaSeparated_cons_cons, ih]
  separated := separated_commaSeparated h.separated

end ShowAll

end Texts

section Generation

variable {ps qs rs : List Placeholder}

def Code.Shows (code : Code Placeholder) (ps : List Placeholder) : Prop := NullSafe.Shows code.print ps

theorem ShowAll.pair {x y : Code Placeholder} (hx : x.Shows ps) (hy : y.Shows qs) :
    ShowAll (Code.printAll [x, y]) (ps ++ qs) :=
  .cons hx (.one hy)

theorem ShowAll.triple {x y z : Code Placeholder} (hx : x.Shows ps) (hy : y.Shows qs) (hz : z.Shows rs) :
    ShowAll (Code.printAll [x, y, z]) (ps ++ (qs ++ rs)) :=
  .cons hx (.pair hy hz)

namespace Code

variable {s : String}

theorem word_name (op : Operation) : Word op.name := by cases op <;> decide

variable {x y z : Code Placeholder}

theorem shows_parens {gs : List (Glyph Placeholder)} (h : NullSafe.Shows gs ps) :
    NullSafe.Shows (write "(" ++ (gs ++ write ")")) ps :=
  .opened (by decide) (.closed (by decide) h)

theorem shows_infix (hs : Word s) (hx : x.Shows ps) (hy : y.Shows qs) :
    NullSafe.Shows (write "(" ++ x.print ++ write s ++ y.print ++ write ")") (ps ++ qs) := by
  simp only [append_assoc]
  exact .opened (by decide) (.between hs hx (.closed (by decide) hy))

theorem shows_operate (op : Operation) {arguments : List (Code Placeholder)}
    (h : ShowAll (printAll arguments) ps) : (operate op arguments).Shows ps := by
  simp only [Shows, print, append_assoc]
  exact .opened (word_name op) (shows_parens h.commaSeparated)

theorem shows_apply {arguments : List (Code Placeholder)} (hx : x.Shows ps)
    (h : ShowAll (printAll arguments) qs) : (apply x arguments).Shows (ps ++ qs) := by
  simp only [Shows, print, append_assoc]
  exact .between (by decide) hx (.closed (by decide) h.commaSeparated)

theorem shows_array {items : List (Code Placeholder)} (h : ShowAll (printAll items) ps) : (array items).Shows ps := by
  simp only [Shows, print, append_assoc]
  exact .opened (by decide) (.closed (by decide) h.commaSeparated)

theorem shows_object {entries : List (Code Placeholder × Code Placeholder)}
    (h : ShowAll (printEntries entries) ps) : (object entries).Shows ps := by
  simp only [Shows, print, append_assoc]
  exact .opened (by decide) (.closed (by decide) h.commaSeparated)

theorem shows_entry (hx : x.Shows ps) (hy : y.Shows qs) :
    NullSafe.Shows (x.print ++ write ": " ++ y.print) (ps ++ qs) := by
  simp only [append_assoc]
  exact .between (by decide) hx hy

theorem shows_not (h : x.Shows ps) : (not x).Shows ps := by
  simp only [Shows, print, append_assoc]
  exact .opened (by decide) (.closed (by decide) h)

theorem shows_setParameter (hs : Word s) (h : x.Shows ps) : (setParameter s x).Shows ps := by
  simp only [Shows, print, append_assoc]
  exact .opened (by decide) (.opened hs (.opened (by decide) (.closed (by decide) h)))

variable (n : Option Nat)

include n

theorem shows_boundTest (h : x.Shows ps) : NullSafe.Shows (boundTest n x.print) ps := by
  cases n with
  | none => exact h
  | some n =>
    simp only [boundTest, append_assoc]
    exact .opened (word_temporaryName n) (.opened (by decide) h)

theorem shows_nullTest (h : x.Shows ps) : NullSafe.Shows (nullTest n x.print) ps := by
  cases n with
  | none => exact .closed (by decide) h
  | some n =>
    simp only [nullTest, append_assoc]
    exact .opened (by decide) (.closed (by decide) (shows_boundTest (some n) h))

theorem shows_unlessNull (hx : x.Shows ps) (hy : y.Shows qs) : (unlessNull n x y).Shows (ps ++ qs) := by
  simp only [Shows, print, append_assoc]
  exact .opened (by decide) (.between (by decide) (shows_nullTest n hx) (.closed (by decide) hy))

theorem shows_whenCallable (hx : x.Shows ps) (hy : y.Shows qs) : (whenCallable n x y).Shows (ps ++ qs) := by
  simp only [Shows, print, append_assoc]
  exact .opened (by decide) (.between (by decide) (shows_boundTest n hx) (.closed (by decide) hy))

omit n

theorem shows_choose (n : Nat) (hx : x.Shows ps) (hy : y.Shows qs) (hz : z.Shows rs) :
    (choose n x y z).Shows (ps ++ (qs ++ rs)) := by
  simp only [Shows, print, append_assoc]
  have hyz : NullSafe.Shows (y.print ++ (write " if " ++ (write (temporaryName n) ++ (write " else " ++
      (z.print ++ write "))[1]"))))) (qs ++ rs) :=
    .between (by decide) hy (.opened (word_temporaryName n) (.opened (by decide) (.closed (by decide) hz)))
  exact .opened (by decide) (.opened (word_temporaryName n) (.opened (by decide) (.between (by decide) hx hyz)))

theorem shows_key (hs : Word s) : (key s).Shows [] := NullSafe.Shows.quoted hs

theorem shows_this : (this : Code Placeholder).Shows [] := NullSafe.Shows.write (by decide)

theorem shows_globals : (globals : Code Placeholder).Shows [] := NullSafe.Shows.write (by decide)

theorem shows_global (hs : Word s) : (global s).Shows [] := by
  simp only [Shows, print, append_assoc]
  exact .opened (by decide) (.closed (by decide) (.quoted hs))

theorem shows_unaryCode (op : UnaryOp) (h : x.Shows ps) : (unaryCode op x).Shows ps := by
  cases op
  case not => exact shows_not h
  all_goals exact shows_operate _ (.one h)

theorem shows_binaryCode (op : BinaryOp) (hx : x.Shows ps) (hy : y.Shows qs) :
    (binaryCode op x y).Shows (ps ++ qs) := by
  cases op
  case equal | strictEqual | differ | strictDiffer => exact shows_infix (by decide) hx hy
  all_goals exact shows_operate _ (.pair hx hy)

theorem shows_logical (op : LogicalOp) (hx : x.Shows ps) (hy : y.Shows qs) : (logical op x y).Shows (ps ++ qs) := by
  cases op <;> exact shows_infix (by decide) hx hy

theorem shows_keyCode {k : Key Placeholder} (h : Atom.Spelled k.atoms) : (keyCode k).Shows (Atom.leaves k.atoms) := by
  cases k with
  | name s | number s => exact .quoted (Atom.spelled_word.1 h).1
  | literal p => exact .leaf p

theorem shows_isVariable (h : x.isVariable = true) (hx : x.Shows ps) : ps = [] := by
  cases x
  case this | globals | formatters | parameter => exact hx.leaves.symm.trans (Glyph.leaves_write _)
  all_goals cases h

end Code

/-- Guards that show the given literals before what stands behind them. -/
def Behind (gs : List (Guard Placeholder)) (ps : List Placeholder) : Prop :=
  ∀ (code : Code Placeholder) (qs : List Placeholder), code.Shows qs → (guarded gs code).Shows (ps ++ qs)

theorem Behind.nil : Behind [] [] := fun _ _ h => h

theorem Behind.concat {gs : List (Guard Placeholder)} {g : Guard Placeholder} (h : Behind gs ps)
    (hg : g.tested.Shows qs) : Behind (gs ++ [g]) (ps ++ qs) := by
  intro code rs hcode
  have hlast : (g.wrap code).Shows (qs ++ rs) := by
    rcases g with ⟨_ | _, n, tested⟩
    · exact Code.shows_unlessNull n hg hcode
    · exact Code.shows_whenCallable n hg hcode
  have hall := h _ _ hlast
  rw [guarded, foldr_append, append_assoc]
  exact hall

/-- A chain that shows the given literals: those of its guards, then those of its value. -/
def Chain.Shows (c : Chain Placeholder) (ps : List Placeholder) : Prop :=
  ∃ qs rs, qs ++ rs = ps ∧ Behind c.guards qs ∧ c.head.Shows rs

namespace Chain.Shows

variable {c : Chain Placeholder} {gs : List (Guard Placeholder)} {value : Code Placeholder} {n m : Nat}

theorem close (h : c.Shows ps) : c.close.Shows ps := by
  obtain ⟨qs, rs, rfl, hgs, hhead⟩ := h
  exact hgs _ _ hhead

theorem plain {code : Code Placeholder} (h : code.Shows ps) : (Chain.plain code).Shows ps :=
  ⟨[], ps, rfl, .nil, h⟩

theorem known {code : Code Placeholder} (h : code.Shows ps) : (Chain.known code).Shows ps :=
  ⟨[], ps, rfl, .nil, h⟩

theorem guard (h : c.Shows ps) (hr : c.repeatable = true → c.head.isVariable = true) {test : Test}
    (hg : (c.guard test).run n = .ok ((gs, value), m)) : Behind gs ps ∧ value.Shows [] := by
  obtain ⟨qs, rs, rfl, hgs, hhead⟩ := h
  unfold Chain.guard at hg
  split at hg <;> rename_i hrep <;> cases hg
  · obtain rfl : rs = [] := Code.shows_isVariable (hr hrep) hhead
    exact ⟨hgs.concat hhead, hhead⟩
  · exact ⟨hgs.concat hhead, .write (word_temporaryName _)⟩

theorem demand (h : c.Shows ps) (hr : c.repeatable = true → c.head.isVariable = true)
    (hd : c.demand.run n = .ok ((gs, value), m)) : ∃ qs rs, qs ++ rs = ps ∧ Behind gs qs ∧ value.Shows rs := by
  unfold Chain.demand at hd
  split at hd
  · cases hd
    exact h
  · obtain ⟨hgs, hvalue⟩ := h.guard hr hd
    exact ⟨ps, [], append_nil ps, hgs, hvalue⟩

end Chain.Shows

def Scope.Spelled (scope : Scope) : Prop := ∀ s, Word s → Word ((scope.parameter? s).getD s)

section Trees

variable {scope : Scope}

theorem shows_chain (hscope : scope.Spelled) {s : String} (hs : Word s) :
    (scope.chain s : Chain Placeholder).Shows [] := by
  unfold Scope.chain
  split
  · exact ⟨[], [], rfl, .nil, .write (hscope s hs)⟩
  · exact .known (Code.shows_global hs)
  · refine ⟨[], [], rfl, .nil, ?_⟩
    unfold keywordCode
    split <;> exact .write (by decide)
  · exact .plain (Code.shows_operate _ (.pair Code.shows_this (Code.shows_key hs)))

theorem shows_write (hscope : scope.Spelled) {s : String} (hs : Word s) {code : Code Placeholder} (h : code.Shows ps) :
    (scope.write s code).Shows ps := by
  unfold Scope.write
  split
  · exact Code.shows_setParameter (hscope s hs) h
  · exact Code.shows_operate _ (.triple Code.shows_globals (Code.shows_key hs) h)
  · exact Code.shows_operate _ (.triple Code.shows_this (Code.shows_key hs) h)
  · exact Code.shows_operate _ (.triple Code.shows_this (Code.shows_key hs) h)

mutual

/-- The code of an expression shows the literals of the expression. -/
theorem shows_of_emits (hscope : scope.Spelled) : ∀ {t : Expr Placeholder} {n m : Nat} {c : Chain Placeholder},
    Emits scope t n m c → Atom.Spelled t.atoms → c.Shows t.leaves
  | _, _, _, _, .number _, ht => .known (.write (Atom.spelled_word.1 ht).1)
  | _, _, _, _, .literal p, _ => .known (.leaf p)
  | _, _, _, _, .constant k, _ => .plain (.write (by cases k <;> decide))
  | _, _, _, _, .this, _ => ⟨[], [], rfl, .nil, Code.shows_this⟩
  | _, _, _, _, .name _, ht => shows_chain hscope (Atom.spelled_word.1 ht).1
  | _, _, _, _, .array h, ht => .known (Code.shows_array (showAll_of_emitsAll hscope h ht))
  | _, _, _, _, .object h, ht => .known (Code.shows_object (showAll_of_emitsEntries hscope h ht))
  | _, _, _, _, .member h hd, ht => by
    obtain ⟨htarget, hs⟩ := Atom.spelled_append.1 ht
    obtain ⟨qs, rs, hqs, hgs, hvalue⟩ := (shows_of_emits hscope h htarget).demand h.isVariable hd
    refine ⟨qs, rs ++ [], ?_, hgs, Code.shows_operate _ (.pair hvalue (Code.shows_key (Atom.spelled_word.1 hs).1))⟩
    rw [← append_assoc, hqs]
    simp [Expr.leaves, Expr.atoms]
  | .index _ key, _, _, _, .index h hd hk, ht => by
    obtain ⟨htarget, hkey⟩ := Atom.spelled_append.1 ht
    obtain ⟨qs, rs, hqs, hgs, hvalue⟩ := (shows_of_emits hscope h htarget).demand h.isVariable hd
    refine ⟨qs, rs ++ key.leaves, ?_, hgs, Code.shows_operate _ (.pair hvalue (shows_of_emits hscope hk hkey).close)⟩
    rw [← append_assoc, hqs]
    simp [Expr.leaves, Expr.atoms]
  | .call callee _, _, _, _, .call h hd hs, ht => by
    obtain ⟨hcallee, harguments⟩ := Atom.spelled_append.1 ht
    obtain ⟨hgs, hvalue⟩ := (shows_of_emits hscope h hcallee).guard h.isVariable hd
    refine ⟨callee.leaves, _, ?_, hgs, Code.shows_apply hvalue (showAll_of_emitsAll hscope hs harguments)⟩
    simp [Expr.leaves, Expr.atoms]
  | _, _, _, _, .unary op hx, ht => .plain (Code.shows_unaryCode op (shows_of_emits hscope hx ht).close)
  | _, _, _, _, .binary op hl hr, ht => by
    obtain ⟨hleft, hright⟩ := Atom.spelled_append.1 ht
    have hcode := Code.shows_binaryCode op (shows_of_emits hscope hl hleft).close
      (shows_of_emits hscope hr hright).close
    rw [Expr.leaves, Expr.leaves, ← Atom.leaves_append] at hcode
    exact .plain hcode
  | _, _, _, _, .logical op hl hr, ht => by
    obtain ⟨hleft, hright⟩ := Atom.spelled_append.1 ht
    have hcode := Code.shows_logical op (shows_of_emits hscope hl hleft).close (shows_of_emits hscope hr hright).close
    rw [Expr.leaves, Expr.leaves, ← Atom.leaves_append] at hcode
    exact .plain hcode
  | _, n, _, _, .conditional h hy hn, ht => by
    obtain ⟨htest, hbranches⟩ := Atom.spelled_append.1 ht
    obtain ⟨hyes, hno⟩ := Atom.spelled_append.1 hbranches
    have hcode := Code.shows_choose (n + 1) (shows_of_emits hscope h htest).close
      (shows_of_emits hscope hy hyes).close (shows_of_emits hscope hn hno).close
    rw [Expr.leaves, Expr.leaves, Expr.leaves, ← Atom.leaves_append, ← Atom.leaves_append] at hcode
    exact .plain hcode
  | _, _, _, _, .assignName _ hv, ht => by
    obtain ⟨hs, hvalue⟩ := Atom.spelled_append.1 ht
    have hshows := shows_write hscope (Atom.spelled_word.1 hs).1 (shows_of_emits hscope hv hvalue).close
    exact .plain (by simpa [Expr.leaves, Expr.atoms] using hshows)
  | _, _, _, _, .assignMember h hd hv, ht => by
    obtain ⟨hmember, hvalue⟩ := Atom.spelled_append.1 ht
    obtain ⟨htarget, hs⟩ := Atom.spelled_append.1 hmember
    obtain ⟨qs, rs, hqs, hgs, hobject⟩ := (shows_of_emits hscope h htarget).demand h.isVariable hd
    have hcode := hgs _ _ (Code.shows_operate .set (.triple hobject (Code.shows_key (Atom.spelled_word.1 hs).1)
      (shows_of_emits hscope hv hvalue).close))
    rw [nil_append, ← append_assoc, hqs] at hcode
    exact .plain (by simpa [Expr.leaves, Expr.atoms] using hcode)
  | _, _, _, _, .assignIndex h hd hk hv, ht => by
    obtain ⟨hindex, hvalue⟩ := Atom.spelled_append.1 ht
    obtain ⟨htarget, hkey⟩ := Atom.spelled_append.1 hindex
    obtain ⟨qs, rs, hqs, hgs, hobject⟩ := (shows_of_emits hscope h htarget).demand h.isVariable hd
    have hcode := hgs _ _ (Code.shows_operate .set (.triple hobject
      (shows_of_emits hscope hk hkey).close (shows_of_emits hscope hv hvalue).close))
    rw [← append_assoc, hqs] at hcode
    exact .plain (by simpa [Expr.leaves, Expr.atoms] using hcode)

theorem showAll_of_emitsAll (hscope : scope.Spelled) : ∀ {ts : List (Expr Placeholder)} {n m : Nat}
    {cs : List (Code Placeholder)}, EmitsAll scope ts n m cs → Atom.Spelled (Expr.atomsAll ts) →
      ShowAll (Code.printAll cs) (Atom.leaves (Expr.atomsAll ts))
  | _, _, _, _, .nil, _ => .nil
  | _, _, _, _, .cons h hs, ht => by
    obtain ⟨ht, hrest⟩ := Atom.spelled_append.1 ht
    rw [Expr.atomsAll, Atom.leaves_append]
    exact .cons (shows_of_emits hscope h ht).close (showAll_of_emitsAll hscope hs hrest)

theorem showAll_of_emitsEntries (hscope : scope.Spelled) : ∀ {es : List (Key Placeholder × Expr Placeholder)}
    {n m : Nat} {cs : List (Code Placeholder × Code Placeholder)}, EmitsEntries scope es n m cs →
      Atom.Spelled (Expr.atomsEntries es) → ShowAll (Code.printEntries cs) (Atom.leaves (Expr.atomsEntries es))
  | _, _, _, _, .nil, _ => .nil
  | _, _, _, _, .cons _ h hs, ht => by
    obtain ⟨hentry, hrest⟩ := Atom.spelled_append.1 ht
    obtain ⟨hk, ht⟩ := Atom.spelled_append.1 hentry
    rw [Expr.atomsEntries, Atom.leaves_append, Atom.leaves_append]
    exact .cons (Code.shows_entry (Code.shows_keyCode hk) (shows_of_emits hscope h ht).close)
      (showAll_of_emitsEntries hscope hs hrest)

end

theorem shows_of_emit (hscope : scope.Spelled) {t : Expr Placeholder} {body : Body Placeholder}
    (ht : Atom.Spelled t.atoms) (h : emit scope t = .ok body) : body.code.Shows t.leaves := by
  obtain ⟨c, hc, hcode⟩ := emit_eq_ok_iff.1 h
  rw [hcode]
  exact (shows_of_emits hscope hc ht).close

end Trees

end Generation

end NullSafe
