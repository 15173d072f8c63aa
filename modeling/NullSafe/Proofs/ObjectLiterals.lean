import NullSafe.Proofs.LeftToRight
import NullSafe.Proofs.Setters

/-! # Object literals as they are written

An object literal is written as properties between braces, each a key and the text of a value. If the literal is put in
parentheses and read with a key, the whole is an expression whose tree has the keys and the trees of the values, as long
as no part takes a literal of another.
-/

namespace NullSafe

open Surface Literal Text List

namespace Surface

section Tokens

variable {a b : List Char} {c : Char} {l : Lexeme} {ls xs ys : List Lexeme}

/-- Whether a character is a token of its own wherever it stands outside literals. -/
def isPunctuation (c : Char) : Bool := [',', '(', ')', '[', ']', '\x7b', '\x7d', ':'].contains c

variable (hc : isPunctuation c = true)

include hc

theorem isPunctuation_cases :
    endsNumeral c = true ∧ isNameRest c = false ∧ c ∉ ['\x27', '"', '/'] ∧ c ≠ '=' ∧ continuesWord c = false ∧
      c.isAlpha = false := by
  have hall : ∀ x ∈ [',', '(', ')', '[', ']', '\x7b', '\x7d', ':'],
      endsNumeral x = true ∧ isNameRest x = false ∧ x ∉ ['\x27', '"', '/'] ∧ x ≠ '=' ∧ continuesWord x = false ∧
        x.isAlpha = false := by
    decide
  exact hall c (contains_iff_mem.1 hc)

theorem Symbol.read?_append_punctuation {s : Symbol} {r : List Char}
    (h : Symbol.read? a = some (s, r)) : Symbol.read? (a ++ c :: b) = some (s, r ++ c :: b) := by
  obtain ⟨rfl, -⟩ := Symbol.read?_eq_some h
  rw [append_assoc]
  refine Symbol.read?_chars_append fun hs => ?_
  rcases r with _ | ⟨x, r⟩
  · simpa using (isPunctuation_cases hc).2.2.2.1
  · have hx := Symbol.head?_of_read? h hs
    exact hx

theorem readLexeme?_append_punctuation {r : List Char}
    (h : readLexeme? a = some (l, r)) : readLexeme? (a ++ c :: b) = some (l, r ++ c :: b) := by
  obtain ⟨hnumeral, hname, hquote, -, -⟩ := isPunctuation_cases hc
  have ha : a ≠ [] := by
    rintro rfl
    cases h
  rcases readLexeme?_append_cases (b := b) hnumeral hname hquote ha with ⟨l', r', hread, happ⟩ | ⟨hread, happ⟩ <;>
    rw [hread] at h <;> rw [happ]
  · cases h
    rfl
  · obtain ⟨⟨s, r⟩, hs, heq⟩ := Option.map_eq_some_iff.1 h
    cases heq
    rw [Symbol.read?_append_punctuation hc hs]
    rfl

theorem Lexes.append_punctuation (hx : Lexes a xs) (hy : Lexes (c :: b) ys) : Lexes (a ++ c :: b) (xs ++ ys) := by
  induction hx with
  | nil => exact hy
  | blank hblank _ ih => exact .blank hblank ih
  | read hblank hl _ ih => exact .read hblank (readLexeme?_append_punctuation hc hl) ih

omit hc

theorem lexes_punctuation {s : Symbol} {rest : List Char}
    (hs : s ∈ [Symbol.comma, .openParen, .closeParen, .openBracket, .closeBracket, .openBrace, .closeBrace, .colon])
    (h : Lexes rest ls) : Lexes (s.chars ++ rest) (.symbol s :: ls) := by
  simp only [mem_cons, not_mem_nil, or_false] at hs
  rcases hs with rfl | rfl | rfl | rfl | rfl | rfl | rfl | rfl <;> exact .read (by decide) rfl h

theorem replaceWordsFrom_of_not_mem {before : Option Char} {cs : List Char} (hn : 'n' ∉ cs) (hr : 'r' ∉ cs) :
    replaceWordsFrom before cs = cs := by
  induction cs generalizing before with
  | nil => rfl
  | cons c cs ih =>
    have hword : ¬ StartsWord (c :: cs) := by
      rintro (⟨rest, heq⟩ | ⟨rest, heq⟩) <;> rw [heq] at hn hr
      · exact hn (by simp)
      · exact hr (by simp)
    rw [replaceWordsFrom_cons hword, ih (fun h => hn (.tail _ h)) fun h => hr (.tail _ h)]

end Tokens

/-- The key of a property as it is written, a string with what it denotes. -/
inductive WrittenKey where
  | name (cs : List Char)
  | string (raw : List Char) (codes : List Nat)
  | number (digits : List Char)

namespace WrittenKey

variable {ι β γ : Type} {k : WrittenKey}

/-- The word operators are no keys, and numerals that cannot be converted are none. -/
def IsWritten : WrittenKey → Prop
  | name cs => IsName cs ∧ cs ≠ "and".toList ∧ cs ≠ "or".toList
  | string raw codes => readLiteral? none raw = some (raw, []) ∧ ofRaw raw = .ok (.text codes)
  | number digits => readNumber? digits = some (digits, []) ∧ numeralFits digits = true

/-- The code points of the name that a key stands for. -/
def codes : WrittenKey → List Nat
  | name cs => cs.map Char.toNat
  | string _ codes => codes
  | number digits => (numeralText digits).toList.map Char.toNat

/-- The name that a key stands for, where its codes are those of characters. -/
def propertyName : WrittenKey → String
  | name cs => String.ofList cs
  | string _ codes => String.ofList (codes.map Char.ofNat)
  | number digits => numeralText digits

def isNumber : WrittenKey → Bool
  | number _ => true
  | _ => false

def parts : WrittenKey → List (List Char)
  | string raw _ => [raw]
  | _ => []

/-- What is written for a key, where `glue` gives the characters that belong to no part. -/
def spell (glue : Char → List β) (part : List Char → List β) : WrittenKey → List β
  | name cs => cs.flatMap glue
  | string raw _ => part raw
  | number digits => digits.flatMap glue

/-- What is written to read an object with a key. -/
def spellLink (glue : Char → List β) (part : List Char → List β) : WrittenKey → List β
  | name cs => glue '.' ++ cs.flatMap glue
  | string raw _ => glue '[' ++ (part raw ++ glue ']')
  | number digits => glue '[' ++ (digits.flatMap glue ++ glue ']')

/-- The key in a tree, where `leaf` is what a string becomes. -/
def key (leaf : List Char → List Nat → ι) : WrittenKey → Key ι
  | name cs => .name (String.ofList cs)
  | string raw codes => .literal (leaf raw codes)
  | number digits => .number (numeralText digits)

def read (leaf : List Char → List Nat → ι) (t : Expr ι) : WrittenKey → Expr ι
  | name cs => .member t (String.ofList cs)
  | string raw codes => .index t (.literal (leaf raw codes))
  | number digits => .index t (.number (numeralText digits))

end WrittenKey

def denotedLeaf (_ : List Char) (codes : List Nat) : Leaf := .literal (.text codes)

def quoteOf (raw : List Char) : Quote := if raw.head? = some '"' then .double else .single

def quoteLeaf (raw : List Char) (_ : List Nat) : Placeholder := .string (quoteOf raw)

/-- Whether all that a literal denotes are characters. An escape may also denote a surrogate, and texts hold none. -/
def denotesCharacters (raw : List Char) : Bool :=
  match ofRaw raw with
  | .ok (.text codes) => codes.all fun n => n.isValidChar
  | _ => true

/-- A property as it is written, with the blanks around its key. Its texts have no surrogates. -/
structure Property where
  before : List Char
  key : WrittenKey
  gap : List Char
  value : List Char
  isWritten : key.IsWritten
  blank : ∀ c ∈ before ++ gap, isBlank c = true
  characters : (key.parts ++ literals value).all denotesCharacters = true

namespace Property

variable {β γ : Type}

theorem isValidChar_codes (p : Property) : ∀ n ∈ p.key.codes, n.isValidChar := by
  obtain ⟨-, key, -, value, hwritten, -, hcharacters⟩ := p
  cases key with
  | name | number =>
    intro n hn
    obtain ⟨c, -, rfl⟩ := mem_map.1 hn
    exact c.valid
  | string raw codes =>
    have hraw : denotesCharacters raw = true := (all_eq_true.1 hcharacters) raw (.head _)
    rw [denotesCharacters, hwritten.2] at hraw
    exact fun n hn => of_decide_eq_true (all_eq_true.1 hraw n hn)

def parts (p : Property) : List (List Char) := p.key.parts ++ [p.value]

def spell (glue : Char → List β) (part : List Char → List β) (p : Property) : List β :=
  p.before.flatMap glue ++ (p.key.spell glue part ++ (p.gap.flatMap glue ++ (glue ':' ++ part p.value)))

end Property

/-- An object literal in parentheses that is read with one of its keys. -/
structure ObjectRead where
  properties : List Property
  key : WrittenKey
  mem : key ∈ properties.map Property.key

namespace ObjectRead

variable {β γ : Type}

def parts (l : ObjectRead) : List (List Char) := l.properties.flatMap Property.parts ++ l.key.parts

def spell (glue : Char → List β) (part : List Char → List β) (l : ObjectRead) : List β :=
  glue '(' ++ (glue '\x7b' ++ (List.intercalate (glue ',') (l.properties.map (Property.spell glue part)) ++
    (glue '\x7d' ++ (glue ')' ++ l.key.spellLink glue part))))

def text (l : ObjectRead) : List Char := l.spell List.singleton id

/-- No literal reaches across what stands between the parts: the literals of the text are those of its parts. -/
def Separate (l : ObjectRead) : Prop := pieces l.text = l.spell (fun c => [.char c]) pieces

instance (l : ObjectRead) : Decidable l.Separate := inferInstanceAs (Decidable (_ = _))

theorem isWritten_key (l : ObjectRead) : l.key.IsWritten := by
  obtain ⟨p, -, hp⟩ := mem_map.1 l.mem
  exact hp ▸ p.isWritten

end ObjectRead

section Spelling

variable {β γ : Type} {glue : Char → List β} {part : List Char → List β} (f : β → List γ)

include f

theorem WrittenKey.flatMap_spell (k : WrittenKey) :
    (k.spell glue part).flatMap f = k.spell (fun c => (glue c).flatMap f) fun cs => (part cs).flatMap f := by
  cases k <;> simp [spell, flatMap_assoc]

theorem WrittenKey.flatMap_spellLink (k : WrittenKey) :
    (k.spellLink glue part).flatMap f = k.spellLink (fun c => (glue c).flatMap f) fun cs => (part cs).flatMap f := by
  cases k <;> simp [spellLink, flatMap_assoc]

theorem Property.flatMap_spell (p : Property) :
    (p.spell glue part).flatMap f = p.spell (fun c => (glue c).flatMap f) fun cs => (part cs).flatMap f := by
  simp [spell, flatMap_assoc, WrittenKey.flatMap_spell]

theorem ObjectRead.flatMap_spell (l : ObjectRead) :
    (l.spell glue part).flatMap f = l.spell (fun c => (glue c).flatMap f) fun cs => (part cs).flatMap f := by
  simp [spell, flatMap_intercalate, Property.flatMap_spell, WrittenKey.flatMap_spellLink, Function.comp_def]

omit f

theorem WrittenKey.spell_nil (k : WrittenKey) : k.spell (fun _ => []) part = k.parts.flatMap part := by
  cases k <;> simp [spell, parts]

theorem WrittenKey.spellLink_nil (k : WrittenKey) : k.spellLink (fun _ => []) part = k.parts.flatMap part := by
  cases k <;> simp [spellLink, parts]

theorem Property.spell_nil (p : Property) : p.spell (fun _ => []) part = p.parts.flatMap part := by
  have hnone : ∀ cs : List Char, cs.flatMap (fun _ => ([] : List β)) = [] := fun cs => by simp
  rw [spell, parts, WrittenKey.spell_nil, hnone, hnone, flatMap_append, flatMap_singleton]
  rfl

theorem ObjectRead.spell_nil (l : ObjectRead) : l.spell (fun _ => []) part = l.parts.flatMap part := by
  have hproperties : Property.spell (fun _ => []) part = fun p => p.parts.flatMap part := funext Property.spell_nil
  rw [spell, parts, intercalate_nil_left, WrittenKey.spellLink_nil, hproperties, ← flatMap_def,
    flatMap_append, flatMap_assoc]
  rfl

end Spelling

namespace ObjectRead

variable {l : ObjectRead}

theorem Separate.isolate_text (h : l.Separate) : isolate l.text = l.spell List.singleton isolate := by
  rw [isolate, h, flatMap_spell]
  rfl

theorem Separate.literals_text (h : l.Separate) : literals l.text = l.parts.flatMap literals := by
  rw [literals_eq_flatMap, h, flatMap_spell]
  exact (spell_nil l).trans (congrArg (List.flatMap · l.parts) (funext fun cs => (literals_eq_flatMap cs).symm))

end ObjectRead

theorem flatMap_single (cs : List Char) : cs.flatMap List.singleton = cs := flatMap_singleton' cs

section Strings

variable {raw : List Char} {codes : List Nat}

theorem pieces_of_readLiteral? (h : readLiteral? none raw = some (raw, [])) : pieces raw = [.literal raw] := by
  rcases raw with _ | ⟨c, raw⟩
  · cases h
  · rw [pieces, piecesFrom_literal h, piecesFrom]

variable (h : (WrittenKey.string raw codes).IsWritten)

include h

theorem exists_quote : ∃ c body, raw = c :: body ∧ (c = '\x27' ∨ c = '"') := by
  obtain ⟨hread, hraw⟩ := h
  rcases raw with _ | ⟨c, body⟩
  · cases hread
  refine ⟨c, body, rfl, ?_⟩
  by_contra hnot
  have hslash : c ≠ '/' := by
    rintro rfl
    cases hraw
  simp [readLiteral?, not_or.1 hnot, hslash] at hread

theorem isolate_string : isolate raw = (quoteOf raw).chars := by
  rw [isolate, pieces_of_readLiteral? h.1]
  obtain ⟨c, body, rfl, rfl | rfl⟩ := exists_quote h <;> rfl

theorem readLiteral?_string (last : Option Char) (rest : List Char) :
    readLiteral? last (raw ++ rest) = some (raw, rest) := by
  obtain ⟨c, body, rfl, hquote⟩ := exists_quote h
  have hc : (decide (c = '\x27') || decide (c = '"')) = true := by simpa using hquote
  have hflag : (c :: body).head? = some '/' → ∀ d ∈ rest.head?, d.isAlpha = false := by
    rintro ⟨⟩
    exact absurd hquote (by decide)
  have hread := readLiteral_append h.1 hflag
  rw [cons_append, readLiteral?, if_pos hc] at hread ⊢
  exact hread

end Strings

section Separation

variable {last last' : Option Char} {c : Char} {cs rest : List Char}

/-- Whether nothing outside literals could open one: there is no quote, and no slash where an operand can start, unless
it is one of two slashes next to each other. -/
def isSettled (last : Option Char) : List Piece → Bool
  | [] => true
  | .literal raw :: ps => isSettled raw.head? ps
  | .char c :: ps =>
    !(c = '\x27' || c = '"') && !(c = '/' && operandCanStart last && ps.head? ≠ some (.char '/')) &&
      isSettled (lastAfter last c) ps

/-- Of what comes before a text, only whether an operand can start there makes a difference to its literals. -/
theorem piecesFrom_congr (h : operandCanStart last = operandCanStart last') (cs : List Char) :
    piecesFrom last cs = piecesFrom last' cs := by
  induction cs generalizing last last' with
  | nil => rw [piecesFrom, piecesFrom]
  | cons c cs ih =>
    have hread : readLiteral? last (c :: cs) = readLiteral? last' (c :: cs) := readLiteral?_congr fun _ => h
    rcases hr : readLiteral? last (c :: cs) with _ | ⟨raw, after⟩
    · rw [piecesFrom_char hr, piecesFrom_char (hread ▸ hr), ih]
      unfold lastAfter
      split
      · exact h
      · rfl
    · rw [piecesFrom_literal hr, piecesFrom_literal (hread ▸ hr)]

theorem piecesFrom_sign (hc : isPunctuation c = true) (last : Option Char) (cs : List Char) :
    piecesFrom last (c :: cs) = .char c :: piecesFrom (some c) cs := by
  have hall : ∀ x ∈ [',', '(', ')', '[', ']', '\x7b', '\x7d', ':'], isBlank x = false ∧ isDelimiter x = false := by
    decide
  obtain ⟨hblank, hquote⟩ := hall c (contains_iff_mem.1 hc)
  rw [piecesFrom_char (readLiteral?_of_plain hquote), lastAfter, hblank]
  rfl

theorem head?_of_piecesFrom (h : (piecesFrom last cs).head? = some (.char c)) : cs.head? = some c := by
  rcases cs with _ | ⟨x, cs⟩
  · rw [piecesFrom] at h
    cases h
  · rcases hr : readLiteral? last (x :: cs) with _ | ⟨raw, after⟩
    · rw [piecesFrom_char hr] at h
      cases h
      rfl
    · rw [piecesFrom_literal hr] at h
      cases h

/-- What is settled has the same literals in front of punctuation. -/
theorem piecesFrom_settled (h : isSettled last (piecesFrom last cs) = true) (hc : isPunctuation c = true)
    (rest : List Char) : piecesFrom last (cs ++ c :: rest) =
      piecesFrom last cs ++ Piece.char c :: piecesFrom (some c) rest := by
  fun_induction piecesFrom last cs with
  | case1 last => exact piecesFrom_sign hc last rest
  | case2 last x xs raw after hr ih =>
    obtain ⟨happ, a, b, tail, rfl, -⟩ := readLiteral?_eq_some hr
    cases (List.cons.inj happ).1
    have hflag : (x :: b :: tail).head? = some '/' → ∀ d ∈ (after ++ c :: rest).head?, d.isAlpha = false := by
      intro hslash d hd
      rcases after with _ | ⟨y, after⟩
      · cases hd
        exact (isPunctuation_cases hc).2.2.2.2.2
      · exact not_isAlpha_of_readLiteral hr hslash d hd
    have hlong := readLiteral_append hr hflag
    rw [← append_assoc, happ, cons_append] at hlong
    rw [cons_append, piecesFrom_literal hlong, ih h, cons_append]
  | case3 last x xs hr ih =>
    rw [isSettled, Bool.and_eq_true, Bool.and_eq_true] at h
    obtain ⟨⟨hquote, hslash⟩, hrest⟩ := h
    have hlong : readLiteral? last (x :: (xs ++ c :: rest)) = none := by
      rw [Bool.not_eq_true'] at hquote
      rw [readLiteral?, hquote, if_neg Bool.false_ne_true, if_neg]
      intro hopen
      simp only [Bool.and_eq_true, bne_iff_ne] at hopen
      -- The slash is then the first of two, also in the longer text.
      have hnext : (piecesFrom (lastAfter last x) xs).head? = some (.char '/') := by
        simpa [hopen.1, lastAfter] using hslash
      refine hopen.2 ?_
      rw [head?_append, head?_of_piecesFrom hnext]
      rfl
    rw [cons_append, piecesFrom_char hlong, cons_append]
    exact congrArg (Piece.char x :: ·) (ih hrest)

theorem WrittenKey.piecesFrom_spell {k : WrittenKey} (hk : k.IsWritten) (last : Option Char) (rest : List Char) :
    ∃ last', piecesFrom last (k.spell List.singleton id ++ rest) =
      k.spell (fun c => [.char c]) pieces ++ piecesFrom last' rest := by
  have hplain : ∀ cs : List Char, Plain cs → ∃ last', piecesFrom last (cs.flatMap List.singleton ++ rest) =
      cs.flatMap (fun c => [Piece.char c]) ++ piecesFrom last' rest := by
    intro cs hcs
    obtain ⟨last', h⟩ := piecesFrom_plain_append hcs last rest
    exact ⟨last', by rw [flatMap_single, h, map_eq_flatMap]⟩
  cases k with
  | name cs => exact hplain cs (plain_of_kind (by decide) (by decide) (by decide) (all_eq_true.1 hk.1.2))
  | number digits => exact hplain digits (plain_readNumber hk.1)
  | string raw codes =>
    have hread := readLiteral?_string hk last rest
    obtain ⟨c, body, rfl, -⟩ := exists_quote hk
    refine ⟨some c, ?_⟩
    rw [spell, spell, id, pieces_of_readLiteral? hk.1]
    exact piecesFrom_literal hread

theorem Property.piecesFrom_spell {p : Property} (hvalue : isSettled none (pieces p.value) = true)
    (hc : isPunctuation c = true) (last : Option Char) (rest : List Char) :
    piecesFrom last (p.spell List.singleton id ++ c :: rest) =
      p.spell (fun c => [.char c]) pieces ++ Piece.char c :: piecesFrom (some c) rest := by
  obtain ⟨hbefore, hgap⟩ := forall_mem_append.1 p.blank
  obtain ⟨last₁, h₁⟩ := piecesFrom_plain_append (plain_of_isBlank hbefore) last
    (p.key.spell List.singleton id ++ (p.gap ++ ':' :: (p.value ++ c :: rest)))
  obtain ⟨last₂, h₂⟩ := p.key.piecesFrom_spell p.isWritten last₁ (p.gap ++ ':' :: (p.value ++ c :: rest))
  obtain ⟨last₃, h₃⟩ := piecesFrom_plain_append (plain_of_isBlank hgap) last₂ (':' :: (p.value ++ c :: rest))
  have hcolon : piecesFrom (some ':') (p.value ++ c :: rest) =
      pieces p.value ++ Piece.char c :: piecesFrom (some c) rest :=
    (piecesFrom_congr (show operandCanStart (some ':') = operandCanStart none from rfl) _).trans
      (piecesFrom_settled hvalue hc rest)
  rw [piecesFrom_sign rfl, hcolon] at h₃
  rw [h₃] at h₂
  rw [h₂] at h₁
  simpa [spell, flatMap_single, List.singleton, map_eq_flatMap] using h₁

theorem piecesFrom_properties {ps : List Property} (h : ∀ p ∈ ps, isSettled none (pieces p.value) = true)
    (hc : isPunctuation c = true) (last : Option Char) (rest : List Char) :
    piecesFrom last (List.intercalate [','] (ps.map (Property.spell List.singleton id)) ++ c :: rest) =
      List.intercalate [.char ','] (ps.map (Property.spell (fun c => [.char c]) pieces)) ++
        .char c :: piecesFrom (some c) rest := by
  induction ps generalizing last with
  | nil => exact piecesFrom_sign hc last rest
  | cons p ps ih =>
    obtain ⟨hp, hps⟩ := forall_mem_cons.1 h
    rcases ps with _ | ⟨q, ps⟩
    · rw [map_singleton, map_singleton, intercalate_singleton, intercalate_singleton]
      exact Property.piecesFrom_spell hp hc last rest
    · have hfirst := Property.piecesFrom_spell hp (c := ',') rfl last
        (List.intercalate [','] ((q :: ps).map (Property.spell List.singleton id)) ++ c :: rest)
      rw [ih hps] at hfirst
      simpa [intercalate_cons_cons] using hfirst

theorem WrittenKey.piecesFrom_spellLink {k : WrittenKey} (hk : k.IsWritten) (last : Option Char) :
    piecesFrom last (k.spellLink List.singleton id) = k.spellLink (fun c => [.char c]) pieces := by
  have hend : ∀ last, piecesFrom last [']'] = [.char ']'] := by
    intro last
    rw [piecesFrom_sign rfl, piecesFrom]
  have hindex : piecesFrom last ('[' :: (k.spell List.singleton id ++ [']'])) =
      .char '[' :: (k.spell (fun c => [.char c]) pieces ++ [Piece.char ']']) := by
    obtain ⟨last', h⟩ := k.piecesFrom_spell hk (some '[') [']']
    rw [piecesFrom_sign rfl, h, hend]
  cases k with
  | name cs =>
    have hdot : Plain ['.'] := by simp [Plain, isDelimiter]
    obtain ⟨last', h⟩ := piecesFrom_plain_append hdot last (cs.flatMap List.singleton)
    obtain ⟨last'', h'⟩ := WrittenKey.piecesFrom_spell hk last' []
    rw [piecesFrom, append_nil, append_nil] at h'
    exact h.trans (congrArg (Piece.char '.' :: ·) h')
  | string raw codes => exact hindex
  | number digits => exact hindex

/-- Where the values are settled, the literals of a read are those of its parts. -/
theorem ObjectRead.separate_of_isSettled {l : ObjectRead}
    (h : ∀ p ∈ l.properties, isSettled none (pieces p.value) = true) : l.Separate := by
  have hkey := l.key.piecesFrom_spellLink l.isWritten_key (some ')')
  have hproperties := piecesFrom_properties h (c := '\x7d') rfl (some '\x7b') (')' :: l.key.spellLink List.singleton id)
  rw [piecesFrom_sign rfl, hkey] at hproperties
  have hopen : pieces l.text = .char '(' :: .char '\x7b' :: _ :=
    (piecesFrom_sign rfl none _).trans (congrArg (Piece.char '(' :: ·) (piecesFrom_sign rfl (some '(') _))
  exact hopen.trans (congrArg (Piece.char '(' :: Piece.char '\x7b' :: ·) hproperties)

end Separation

section Words

variable {before : Option Char} {k : WrittenKey} {p : Property}

/-- Each part with its literals set aside and its word operators replaced. -/
def bare (cs : List Char) : List Char := replaceWords (isolate cs)

theorem replaceWordsFrom_quote (q : Quote) : replaceWordsFrom before q.chars = q.chars := by
  cases q <;> exact replaceWordsFrom_of_not_mem (by decide) (by decide)

theorem WrittenKey.replaceWords_spell (hk : k.IsWritten) :
    replaceWordsFrom before (k.spell List.singleton isolate) = k.spell List.singleton bare := by
  cases k with
  | name cs =>
    obtain ⟨hname, hand, hor⟩ := hk
    have hword : ∀ c ∈ cs, continuesWord c = true := fun c hc =>
      continuesWord_of_isNameRest (all_eq_true.1 hname.2 c hc)
    rw [spell, spell, flatMap_single, replaceWordsFrom_name hand hor hword]
  | string raw codes =>
    rw [spell, spell, bare, isolate_string hk, replaceWordsFrom_quote, replaceWords, replaceWordsFrom_quote]
  | number digits =>
    rw [spell, spell, flatMap_single, replaceWordsFrom_of_not_mem]
    · exact fun hmem => absurd (endsNumeral_of_mem hk.1 hmem) (by decide)
    · exact fun hmem => absurd (endsNumeral_of_mem hk.1 hmem) (by decide)

theorem replaceWordsFrom_sign {c : Char} {xs : List Char} (hc : continuesWord c = false) :
    replaceWordsFrom before (c :: xs) = c :: replaceWordsFrom (some c) xs :=
  replaceWordsFrom_cons (not_startsWord_of_ends hc)

theorem WrittenKey.replaceWords_spellLink (hk : k.IsWritten) :
    replaceWordsFrom before (k.spellLink List.singleton isolate) = k.spellLink List.singleton bare := by
  have hindex : ∀ cs cs' : List Char, replaceWordsFrom (some '[') cs = cs' →
      replaceWordsFrom before ('[' :: (cs ++ [']'])) = '[' :: (cs' ++ [']']) := by
    rintro cs _ rfl
    rw [replaceWordsFrom_sign (by decide), replaceWordsFrom_append_cons (by decide)]
    rfl
  have hspell : replaceWordsFrom (some '[') (k.spell List.singleton isolate) = k.spell List.singleton bare :=
    replaceWords_spell hk
  cases k with
  | name cs =>
    have hword : ∀ c ∈ cs, continuesWord c = true := fun c hc =>
      continuesWord_of_isNameRest (all_eq_true.1 hk.1.2 c hc)
    rw [spellLink, spellLink, flatMap_single]
    change replaceWordsFrom before ('.' :: cs) = '.' :: cs
    rw [replaceWordsFrom_sign (by decide), replaceWordsFrom_of_continues (by decide) hword]
  | string raw codes => exact hindex _ _ hspell
  | number digits => exact hindex _ _ hspell

theorem Property.spell_eq (part : List Char → List Char) (p : Property) :
    p.spell List.singleton part = (p.before ++ (p.key.spell List.singleton part ++ p.gap)) ++ ':' :: part p.value := by
  rw [spell, flatMap_single, flatMap_single, append_assoc, append_assoc]
  rfl

theorem Property.blanks (p : Property) : Blank p.before ∧ Blank p.gap :=
  forall_mem_append.1 p.blank

theorem Property.replaceWords_spell (hbefore : wordCanStart before = true) (p : Property) :
    replaceWordsFrom before (p.spell List.singleton isolate) = p.spell List.singleton bare := by
  rw [spell_eq, spell_eq, replaceWordsFrom_append_cons (by decide), replaceWordsFrom_blank p.blanks.1 hbefore,
    replaceWords, replaceWordsFrom_append_blank p.blanks.2, WrittenKey.replaceWords_spell p.isWritten,
    replaceWordsFrom_congr (show wordCanStart (some ':') = wordCanStart none by decide)]
  rfl

theorem replaceWords_properties (hbefore : wordCanStart before = true) (ps : List Property) :
    replaceWordsFrom before (List.intercalate [','] (ps.map (Property.spell List.singleton isolate))) =
      List.intercalate [','] (ps.map (Property.spell List.singleton bare)) := by
  induction ps generalizing before with
  | nil => rfl
  | cons p ps ih =>
    rcases ps with _ | ⟨q, ps⟩
    · simpa using p.replaceWords_spell hbefore
    · simp only [map_cons, intercalate_cons_cons, append_assoc, singleton_append] at ih ⊢
      rw [replaceWordsFrom_append_cons (by decide), p.replaceWords_spell hbefore, ih (by decide)]

end Words

theorem ObjectRead.Separate.bare_text {l : ObjectRead} (h : l.Separate) :
    bare l.text = l.spell List.singleton bare := by
  have hspell : ∀ part : List Char → List Char, l.spell List.singleton part = '(' :: '\x7b' ::
      (List.intercalate [','] (l.properties.map (Property.spell List.singleton part)) ++
        '\x7d' :: ')' :: l.key.spellLink List.singleton part) := fun _ => rfl
  rw [bare, h.isolate_text, hspell, hspell, replaceWords, replaceWordsFrom_sign (by decide),
    replaceWordsFrom_sign (by decide), replaceWordsFrom_append_cons (by decide), replaceWords_properties (by decide),
    replaceWordsFrom_sign (by decide), WrittenKey.replaceWords_spellLink l.isWritten_key]

section Sentences

variable {ι : Type} {k : WrittenKey} {p : Property} {rest : List Char} {ls : List Lexeme} {t₀ : Expr Placeholder}

def WrittenKey.lexeme : WrittenKey → Lexeme
  | name cs => .name cs
  | string raw _ => .string (quoteOf raw)
  | number digits => .number digits

def WrittenKey.derivation (value : Derivation .assign) : WrittenKey → Derivation .property
  | name cs => .named cs value
  | string raw _ => .quoted (quoteOf raw) value
  | number digits => .numbered digits value

theorem isBlank_of_readNumber? {digits : List Char} {c : Char} (h : readNumber? digits = some (digits, []))
    (hc : c ∈ digits) : isBlank c = false := by
  have hends := endsNumeral_of_mem h hc
  by_contra hblank
  have hcut : isCut c = true := by simp [isCut, Bool.not_eq_false _ ▸ hblank]
  rw [endsNumeral_of_isCut hcut] at hends
  cases hends

def endsKey (c : Char) : Bool := endsNumeral c && !isNameRest c

theorem endsKey_of_isBlank {c : Char} (h : isBlank c = true) : endsKey c = true := by
  have hcut : isCut c = true := by simp [isCut, h]
  simp [endsKey, endsNumeral_of_isCut hcut, isNameRest_of_isCut hcut]

theorem WrittenKey.lexes_spell (hk : k.IsWritten) (hrest : ∃ c tail, rest = c :: tail ∧ endsKey c = true)
    (h : Lexes rest ls) : Lexes (k.spell List.singleton bare ++ rest) (k.lexeme :: ls) := by
  obtain ⟨c, tail, rfl, hc⟩ := hrest
  rw [endsKey, Bool.and_eq_true, Bool.not_eq_true'] at hc
  cases k with
  | name cs =>
    rw [spell, flatMap_single]
    exact (lexes_name_iff hk.1 (by simpa using hc.2)).2 ⟨ls, h, rfl⟩
  | string raw codes =>
    rw [spell, bare, isolate_string hk, replaceWords, replaceWordsFrom_quote, lexeme]
    cases quoteOf raw <;> exact .read (by decide) rfl h
  | number digits =>
    have hread : readLexeme? (digits ++ c :: tail) = some (.number digits, c :: tail) := by
      rw [readLexeme?, readNumber?_append_cons hc.1, hk.1]
      rfl
    rw [spell, flatMap_single]
    rcases digits with _ | ⟨x, digits⟩
    · exact absurd hk.1 (by decide)
    · exact .read (isBlank_of_readNumber? hk.1 (.head _)) hread h

theorem WrittenKey.fits_lexeme (hk : k.IsWritten) : k.lexeme.fits = true := by
  cases k with
  | number digits => exact hk.2
  | _ => rfl

/-- A property has a derivation, and its tokens are those of its text. -/
theorem exists_property (p : Property) (hvalue : IsSkeleton p.value t₀) :
    ∃ e : Derivation .property, e.Valid ∧ Fit e.yield ∧ e.meaning = (p.key.key quoteLeaf, t₀) ∧
      ∀ {c rest ls}, isPunctuation c = true → Lexes (c :: rest) ls →
        Lexes (p.spell List.singleton bare ++ c :: rest) (e.yield ++ ls) := by
  obtain ⟨xs, hxs, hfit, d, hd, rfl, rfl⟩ := parse_eq_ok_iff.1 hvalue
  have hyield : (p.key.derivation d).yield = p.key.lexeme :: .symbol .colon :: d.yield := by
    cases p.key <;> rfl
  refine ⟨p.key.derivation d, ?_, ?_, ?_, ?_⟩
  · cases p.key <;> exact hd
  · rw [hyield]
    exact fit_cons.2 ⟨WrittenKey.fits_lexeme p.isWritten, fit_cons.2 ⟨rfl, hfit⟩⟩
  · cases p.key <;> rfl
  · intro c rest ls hc h
    rw [hyield, Property.spell_eq, append_assoc, append_assoc, append_assoc, lexes_blank_append_iff p.blanks.1]
    refine p.key.lexes_spell p.isWritten ?_ ?_
    · rcases hgap : p.gap with _ | ⟨x, gap⟩
      · exact ⟨':', _, rfl, by decide⟩
      · exact ⟨x, _, rfl, endsKey_of_isBlank (p.blanks.2 x (hgap ▸ .head _))⟩
    · rw [lexes_blank_append_iff p.blanks.2]
      exact lexes_punctuation (s := .colon) (by simp) (hxs.append_punctuation hc h)

/-- The entries of properties whose values have trees. -/
def Property.entries (leaf : List Char → List Nat → ι) (ps : List Property) (ts : List (Expr ι)) :
    List (Key ι × Expr ι) :=
  List.zipWith (fun p t => (p.key.key leaf, t)) ps ts

theorem exists_properties {ps : List Property} {ts₀ : List (Expr Placeholder)}
    (h : List.Forall₂ (fun p t₀ => IsSkeleton p.value t₀) ps ts₀) :
    ∃ d : Derivation .properties, d.Valid ∧ Fit d.yield ∧ d.meaning = Property.entries quoteLeaf ps ts₀ ∧
      ∀ {c rest ls}, isPunctuation c = true → Lexes (c :: rest) ls →
        Lexes (List.intercalate [','] (ps.map (Property.spell List.singleton bare)) ++ c :: rest) (d.yield ++ ls) := by
  induction h with
  | nil => exact ⟨.noProperty, trivial, fit_nil, rfl, fun _ h => h⟩
  | @cons p t₀ ps ts₀ hvalue hps ih =>
    obtain ⟨e, he, hefit, hemeaning, helexes⟩ := exists_property p hvalue
    rcases ps with _ | ⟨q, ps⟩
    · cases hps
      refine ⟨.lastProperty e, he, hefit, congrArg (fun x => [x]) hemeaning, fun hc h => ?_⟩
      rw [map_cons, map_nil, intercalate_singleton]
      exact helexes hc h
    · obtain ⟨d, hd, hdfit, hdmeaning, hdlexes⟩ := ih
      refine ⟨.property e d, ⟨he, hd⟩, ?_, ?_, fun hc h => ?_⟩
      · exact fit_append.2 ⟨hefit, fit_cons.2 ⟨rfl, hdfit⟩⟩
      · exact congrArg₂ List.cons hemeaning hdmeaning
      · rw [map_cons, map_cons, intercalate_cons_cons, append_assoc, append_assoc]
        simp only [Derivation.yield, append_assoc]
        exact helexes (by decide) (lexes_punctuation (s := .comma) (by simp) (hdlexes hc h))

/-- The link of a read has a derivation, and its tokens are those of its text. -/
theorem WrittenKey.exists_links (hk : k.IsWritten) (t₀ : Expr Placeholder) :
    ∃ d : Derivation .links, d.Valid ∧ Fit d.yield ∧ d.meaning t₀ = k.read quoteLeaf t₀ ∧
      Lexes (k.spellLink List.singleton bare) d.yield := by
  have hindex : ∀ {key₀}, Derives .assign [k.lexeme] key₀ → k.read quoteLeaf t₀ = .index t₀ key₀ →
      k.spellLink List.singleton bare = '[' :: (k.spell List.singleton bare ++ [']']) → ∃ d : Derivation .links,
        d.Valid ∧ Fit d.yield ∧ d.meaning t₀ = k.read quoteLeaf t₀ ∧
          Lexes (k.spellLink List.singleton bare) d.yield := by
    rintro key₀ ⟨d, hd, hyield, rfl⟩ hread hlink
    have hclose : Lexes [']'] [.symbol .closeBracket] := lexes_punctuation (s := .closeBracket) (by simp) .nil
    have hlexes := lexes_punctuation (s := .openBracket) (by simp) (k.lexes_spell hk ⟨']', [], rfl, by decide⟩ hclose)
    refine ⟨.index d .linked, ⟨hd, trivial⟩, ?_, hread.symm, ?_⟩
    · rw [Derivation.yield, hyield]
      exact fit_cons.2 ⟨rfl, fit_cons.2 ⟨fits_lexeme hk, fit_cons.2 ⟨rfl, fit_nil⟩⟩⟩
    · rw [Derivation.yield, hyield, hlink]
      exact hlexes
  cases k with
  | name cs =>
    have hname : Lexes cs [.name cs] := by
      have hname := (@lexes_name_iff [] cs [.name cs] hk.1 nofun).2 ⟨[], .nil, rfl⟩
      rwa [append_nil] at hname
    have hmember := @lexes_member_iff [] cs [.symbol .dot, .name cs] hk.1.1
    rw [append_nil] at hmember
    refine ⟨.member cs .linked, trivial, fit_cons.2 ⟨rfl, fit_cons.2 ⟨rfl, fit_nil⟩⟩, rfl, ?_⟩
    rw [spellLink, flatMap_single]
    exact hmember.2 ⟨_, hname, rfl⟩
  | string raw codes =>
    exact hindex (derives_primary ⟨.literal (.string (quoteOf raw)), trivial, rfl, rfl⟩) rfl rfl
  | number digits => exact hindex (derives_number digits) rfl rfl

/-- The text of a read has the tree of the literal with the key. -/
theorem ObjectRead.Separate.isSkeleton {l : ObjectRead} {ts₀ : List (Expr Placeholder)} (h : l.Separate)
    (hvalues : List.Forall₂ (fun p t₀ => IsSkeleton p.value t₀) l.properties ts₀) :
    IsSkeleton l.text (l.key.read quoteLeaf (.object (Property.entries quoteLeaf l.properties ts₀))) := by
  obtain ⟨d, hd, hfit, hmeaning, hlexes⟩ := exists_properties hvalues
  obtain ⟨links, hlinks, hlinksFit, hread, hlinksLexes⟩ :=
    l.key.exists_links l.isWritten_key (.object (Property.entries quoteLeaf l.properties ts₀))
  obtain ⟨inner, hinner, hyield, hobject⟩ := derives_primary
    (v := .object (Property.entries quoteLeaf l.properties ts₀)) ⟨.object d, hd, rfl, congrArg Expr.object hmeaning⟩
  have hsentence : Derives .unary (.symbol .openParen :: .symbol .openBrace ::
      (d.yield ++ Lexeme.symbol .closeBrace :: .symbol .closeParen :: links.yield))
      (l.key.read quoteLeaf (.object (Property.entries quoteLeaf l.properties ts₀))) := by
    refine ⟨.chain (.group inner) links, ⟨hinner, hlinks⟩, ?_, ?_⟩
    · simp only [Derivation.yield, hyield, append_assoc, cons_append, nil_append]
    · rw [← hread]
      exact congrArg links.meaning hobject
  refine parse_eq_ok_iff.2 ⟨_, ?_, ?_, derives_unary hsentence⟩
  · change Lexes (bare l.text) _
    rw [h.bare_text]
    refine lexes_punctuation (s := .openParen) (by simp) (lexes_punctuation (s := .openBrace) (by simp) ?_)
    refine hlexes (by decide) ?_
    exact lexes_punctuation (s := .closeBrace) (by simp) (lexes_punctuation (s := .closeParen) (by simp) hlinksLexes)
  · exact fit_cons.2 ⟨rfl, fit_cons.2 ⟨rfl, fit_append.2 ⟨hfit, fit_cons.2 ⟨rfl, fit_cons.2 ⟨rfl, hlinksFit⟩⟩⟩⟩⟩

end Sentences

end Surface

section Filling

open Filling

variable {ps : List (List Char)} {t₀ : Expr Placeholder} {t : Expr Leaf} {k : WrittenKey}

theorem Filling.Gives.map {α β : Type} {x : Filling α} {g : α → β} {a : α} (hx : Gives x ps a)
    (hg : ∀ a', g a' = g a → a' = a) : Gives (do return g (← x)) ps (g a) := by
  have hseq := hx.seq (f := fun a _ => g a) (Gives.pure ()) fun a' _ h => ⟨hg a' h, rfl⟩
  rwa [append_nil] at hseq

theorem gives_string {raw : List Char} {codes : List Nat} (h : (WrittenKey.string raw codes).IsWritten)
    (p : Placeholder) : Gives p.fill [raw] (.literal (.text codes)) := by
  obtain ⟨hread, hraw⟩ := h
  have hpieces := pieces_of_readLiteral? hread
  have hliterals : [raw].flatMap literals = [raw] := by simp [literals, hpieces, Piece.literal?]
  intro queue rest
  have hrun : p.fill.run (raw :: queue) = .ok (.literal (.text codes), queue) := by
    simp [Placeholder.fill, hraw]
  have happart : Apart (pieces raw) := by
    rw [hpieces]
    exact isChain_singleton _
  rw [hliterals]
  change p.fill.run (raw :: queue) = _ ↔ _
  rw [hrun, Except.ok.injEq, Prod.mk.injEq, and_iff_right rfl, eq_comm]
  simp [Undisturbed, happart]

theorem gives_key (hk : k.IsWritten) : Gives (k.key quoteLeaf).fill k.parts (k.key denotedLeaf) := by
  cases k with
  | name cs => exact Gives.pure _
  | string raw codes => exact (gives_string hk _).map fun _ h => Key.literal.inj h
  | number digits => exact Gives.pure _

theorem gives_read (hk : k.IsWritten) (ht : Gives t₀.fill ps t) :
    Gives (k.read quoteLeaf t₀).fill (ps ++ k.parts) (k.read denotedLeaf t) := by
  cases k with
  | name cs =>
    rw [show (WrittenKey.name cs).parts = [] from rfl, append_nil]
    exact ht.map fun _ h => (Expr.member.inj h).1
  | string raw codes =>
    have hkey : Gives (Expr.literal (quoteLeaf raw codes)).fill [raw] (.literal (denotedLeaf raw codes)) :=
      (gives_string hk _).map fun _ h => Expr.literal.inj h
    exact ht.seq hkey fun _ _ h => Expr.index.inj h
  | number digits =>
    have hkey : Gives (Expr.number (numeralText digits) : Expr Placeholder).fill [] (.number (numeralText digits)) :=
      Gives.pure _
    exact ht.seq hkey fun _ _ h => Expr.index.inj h

/-- The properties of a literal take the literals in the order in which they are written. -/
theorem exists_entries {properties : List Property} {ts : List (Expr Leaf)}
    (h : List.Forall₂ (fun p t => Reads p.value t) properties ts) :
    ∃ ts₀, List.Forall₂ (fun p t₀ => IsSkeleton p.value t₀) properties ts₀ ∧
      Gives (Expr.fillEntries (Property.entries quoteLeaf properties ts₀)) (properties.flatMap Property.parts)
        (Property.entries denotedLeaf properties ts) := by
  induction h with
  | nil => exact ⟨[], .nil, Gives.pure _⟩
  | @cons p t properties ts hvalue _ ih =>
    obtain ⟨t₀, ht₀, hfilled⟩ := hvalue
    obtain ⟨ts₀, hts₀, hgives⟩ := ih
    refine ⟨t₀ :: ts₀, .cons ht₀ hts₀, ?_⟩
    have hentry : Gives (do let k ← (p.key.key quoteLeaf).fill; let t ← t₀.fill; return (k, t)) p.parts
        (p.key.key denotedLeaf, t) := (gives_key p.isWritten).seq (gives_fill ht₀ hfilled) fun _ _ h => Prod.mk.inj h
    have hall := hentry.seq hgives (f := List.cons) fun _ _ h => List.cons.inj h
    simp only [bind_assoc, pure_bind] at hall
    exact hall

/-- A text has a tree as a request exactly if none of its parts takes a literal of another. -/
theorem isTree_iff_of_gives {cs : List Char} {parts : List (List Char)} (hskeleton : IsSkeleton cs t₀)
    (hliterals : literals cs = parts.flatMap literals) (hgives : Gives t₀.fill parts t) (names : List String)
    (setter : Bool) : (⟨String.ofList cs, names, setter⟩ : Request).IsTree t ↔ Undisturbed parts [] := by
  have hfilled : t₀.filled (literals cs) = .ok t ↔ Undisturbed parts [] := by
    have hrun := hgives []
    rw [append_nil, ← hliterals] at hrun
    rw [Expr.filled]
    constructor
    · intro h
      rcases hfill : t₀.fill.run (literals cs) with fault | ⟨t', rest⟩ <;> rw [hfill] at h <;> cases h
      exact ((hrun rest).1 hfill).1
    · intro h
      rw [(hrun []).2 ⟨h, rfl⟩]
      rfl
  have hdesugar := desugar_of_isExpression hskeleton.isExpression
  unfold Request.IsTree
  rw [String.toList_ofList, ← hfilled]
  constructor
  · rintro ⟨text, t₁, htext, ht₁, ht⟩
    rw [hdesugar] at htext
    cases htext
    rw [show parse (replaceWords (isolate cs)) = .ok t₀ from hskeleton] at ht₁
    cases ht₁
    exact ht
  · exact fun ht => ⟨_, t₀, hdesugar, hskeleton, ht⟩

def Surface.ObjectRead.tree (l : ObjectRead) (ts : List (Expr Leaf)) : Expr Leaf :=
  l.key.read denotedLeaf (.object (Property.entries denotedLeaf l.properties ts))

/-- A read has the tree of its keys and values exactly if none of its parts takes a literal of another. -/
theorem Surface.ObjectRead.Separate.isTree_iff {l : ObjectRead} {ts : List (Expr Leaf)} (h : l.Separate)
    (hvalues : List.Forall₂ (fun p t => NullSafe.Reads p.value t) l.properties ts) (names : List String)
    (setter : Bool) :
    (⟨String.ofList l.text, names, setter⟩ : Request).IsTree (l.tree ts) ↔ Undisturbed l.parts [] := by
  obtain ⟨ts₀, hts₀, hgives⟩ := exists_entries hvalues
  refine isTree_iff_of_gives (h.isSkeleton hts₀) h.literals_text ?_ names setter
  exact gives_read l.isWritten_key (hgives.map fun _ h => Expr.object.inj h)

end Filling

end NullSafe
