import NullSafe.Proofs.Numerals
import NullSafe.Proofs.Quoting

/-! # The names in the text of generated code

The bare names of a text are found by reading it: texts in quotes and numerals have none, and a few words of the
generated language are no names. The names in the text of generated code are those that the code is made of.
-/

namespace NullSafe

open Surface Text Literal List

/-- A bare name in a text of the generated language, and whether it is bound there. -/
structure Mention where
  name : String
  bound : Bool
  deriving DecidableEq, Repr

/-- Whether a word of the generated language is no name. Its constants count as names. -/
def isOperatorWord (s : String) : Bool := Name.keywords.contains s && !(["True", "False", "None"].contains s)

/-- The name of the token at the start of a text, if it is a name, and what comes after the token. -/
def readToken (c : Char) (rest : List Char) : Option (List Char) × List Char :=
  if c = '\x27' || c = '"' then
    match closeString c rest with
    | some (_, after) => (none, after)
    | none => (none, rest)
  else
    match readNumber? (c :: rest), readName? (c :: rest) with
    | some (_, after), _ => (none, after)
    | none, some (n, after) => (some n, after)
    | none, none => (none, rest)

theorem length_readToken (c : Char) (rest : List Char) : (readToken c rest).2.length < (c :: rest).length := by
  have hshorter : ∀ {n after : List Char}, n ++ after = c :: rest ∧ n ≠ [] → after.length < (c :: rest).length := by
    rintro n after ⟨happ, hne⟩
    have := length_pos_iff.2 hne
    rw [← happ, length_append]
    omega
  unfold readToken
  split
  · split
    · rename_i h
      exact Nat.lt_succ_of_lt (closeString_length h)
    · exact Nat.lt_succ_self _
  · split
    · rename_i h
      exact hshorter (readNumber?_eq_some h)
    · rename_i h
      exact hshorter (readName?_eq_some h)
    · exact Nat.lt_succ_self _

def mention (n : List Char) (after : List Char) : List Mention :=
  if isOperatorWord (String.ofList n) then [] else [⟨String.ofList n, " := ".toList.isPrefixOf after⟩]

/-- The bare names of a text of the generated language, in order. -/
def mentions (cs : List Char) : List Mention :=
  match cs with
  | [] => []
  | c :: rest =>
    (match (readToken c rest).1 with
      | some n => mention n (readToken c rest).2
      | none => []) ++ mentions (readToken c rest).2
termination_by cs.length
decreasing_by exact length_readToken c rest

section Reading

variable {c : Char} {n rest : List Char}

/-- Whether a character is a token that is no name, no numeral and no part of a quoted text, and ends no line. -/
def isSeparator (c : Char) : Bool :=
  !isNameStart c && !isDecimal c && !(['.', '\x27', '"', '\n'].contains c)

theorem mentions_skip (hc : isSeparator c = true) : mentions (c :: rest) = mentions rest := by
  simp only [isSeparator, Bool.and_eq_true, Bool.not_eq_true', contains_eq_mem, decide_eq_false_iff_not,
    mem_cons, not_mem_nil, or_false, not_or] at hc
  obtain ⟨⟨hstart, hdecimal⟩, hpoint, hsingle, hdouble, -⟩ := hc
  have hname : readName? (c :: rest) = none := if_neg (by simp [hstart])
  have htoken : readToken c rest = (none, rest) := by
    rw [readToken, if_neg (by simp [hsingle, hdouble]), readNumber?_eq_none hdecimal hpoint, hname]
  rw [mentions, htoken]
  rfl

theorem mentions_name (hn : IsName n) (hrest : ∀ c ∈ rest.head?, isNameRest c = false) :
    mentions (n ++ rest) = mention n rest ++ mentions rest := by
  have hname := readName?_name hn hrest
  rcases n with _ | ⟨x, n⟩
  · exact absurd hn.1 (by decide)
  have hx : isNameStart x = true := hn.1
  have hne := fun y => @ne_of_isNameStart y x hx
  have htoken : readToken x (n ++ rest) = (some (x :: n), rest) := by
    rw [readToken, if_neg (by simp [hne '\x27' (by decide), hne '"' (by decide)]),
      readNumber?_eq_none (isDecimal_eq_false_of_isNameStart hx) (hne '.' (by decide)), ← cons_append, hname]
  rw [cons_append, mentions, htoken]

theorem mentions_numeral (hn : IsNumeral n) (hrest : ∀ c ∈ rest.head?, endsNumeral c = true) :
    mentions (n ++ rest) = mentions rest := by
  have hread : readNumber? (n ++ rest) = some (n, rest) := by
    rcases rest with _ | ⟨c, rest⟩
    · rw [append_nil, hn.read]
    · rw [readNumber?_append_cons (hrest c rfl), hn.read]
      rfl
  rcases n with _ | ⟨x, n⟩
  · exact absurd rfl (readNumber?_eq_some hread).2
  have hquote : ¬ (decide (x = '\x27') || decide (x = '"')) = true := by
    have hchars : ∀ y ∈ ['\x27', '"'], ¬ (isDecimal y = true ∨ y ∈ ['.', 'e', 'E', '+', '-']) := by decide
    simp only [Bool.or_eq_true, decide_eq_true_eq]
    rintro (rfl | rfl) <;> exact hchars _ (by simp) (hn.chars _ (.head _))
  have htoken : readToken x (n ++ rest) = (none, rest) := by
    rw [readToken, if_neg hquote, ← cons_append, hread]
  rw [cons_append, mentions, htoken]
  rfl

theorem mentions_enclosed {quote : Char} {body : List Char} (hquote : quote = '\x27' ∨ quote = '"')
    (h : Enclosed quote body) : mentions (quote :: (body ++ [quote]) ++ rest) = mentions rest := by
  have hclose := h.closeString (by rcases hquote with rfl | rfl <;> decide) rest
  have htoken : readToken quote (body ++ [quote] ++ rest) = (none, rest) := by
    rw [readToken, if_pos (by simpa using hquote), append_assoc, singleton_append, hclose]
  rw [cons_append, mentions, htoken]
  rfl

end Reading

section Texts

variable {cs ds : List Char} {ms ns : List Mention} {n : String}

def valueEnds : List Char := [' ', ')', '(', ',', '[', ']', '\x7d', ':']

/-- A text that a value or a name can stand before: it does not continue a token and binds nothing. -/
structure Free (rest : List Char) : Prop where
  ends : ∀ c ∈ rest.head?, c ∈ valueEnds
  binds : " := ".toList.isPrefixOf rest = false

/-- A text on one line has the given names, in front of whatever can follow a value. -/
structure Says (cs : List Char) (ms : List Mention) : Prop where
  line : ∀ c ∈ cs, c ≠ '\n'
  reads : ∀ rest, Free rest → mentions (cs ++ rest) = ms ++ mentions rest

/-- A text on one line has the given names, in front of any text. -/
structure Closes (cs : List Char) (ms : List Mention) : Prop where
  line : ∀ c ∈ cs, c ≠ '\n'
  reads : ∀ rest, mentions (cs ++ rest) = ms ++ mentions rest

theorem free_nil : Free [] := ⟨nofun, rfl⟩

theorem Closes.toSays (h : Closes cs ms) : Says cs ms := ⟨h.line, fun rest _ => h.reads rest⟩

theorem Closes.append (h : Closes cs ms) (h' : Closes ds ns) : Closes (cs ++ ds) (ms ++ ns) where
  line := forall_mem_append.2 ⟨h.line, h'.line⟩
  reads rest := by rw [append_assoc, h.reads, h'.reads, append_assoc]

theorem Closes.says_append (h : Closes cs ms) (h' : Says ds ns) : Says (cs ++ ds) (ms ++ ns) where
  line := forall_mem_append.2 ⟨h.line, h'.line⟩
  reads rest hrest := by rw [append_assoc, h.reads, h'.reads rest hrest, append_assoc]

/-- A text that can follow a value, with the given names. -/
structure Separates (ds : List Char) (ns : List Mention) : Prop where
  free : ∀ rest, Free (ds ++ rest)
  closes : Closes ds ns

theorem Says.closes_append (h : Says cs ms) (h' : Separates ds ns) : Closes (cs ++ ds) (ms ++ ns) where
  line := forall_mem_append.2 ⟨h.line, h'.closes.line⟩
  reads rest := by rw [append_assoc, h.reads _ (h'.free rest), h'.closes.reads, append_assoc]

theorem Says.mentions_eq (h : Says cs ms) : mentions cs = ms := by
  have hnil := h.reads [] free_nil
  rwa [append_nil, mentions, append_nil] at hnil

theorem says_nil : Says [] [] := ⟨nofun, fun _ _ => rfl⟩

theorem closes_separators (h : ∀ c ∈ cs, isSeparator c = true) : Closes cs [] where
  line c hc := by
    rintro rfl
    exact absurd (h _ hc) (by decide)
  reads rest := by
    induction cs with
    | nil => rfl
    | cons c cs ih =>
      obtain ⟨hc, hcs⟩ := forall_mem_cons.1 h
      rw [cons_append, mentions_skip hc, ih hcs]

theorem isNameRest_of_free {rest : List Char} (h : Free rest) : ∀ c ∈ rest.head?, isNameRest c = false := by
  intro c hc
  have hkinds : ∀ x ∈ valueEnds, isNameRest x = false := by decide
  exact hkinds c (h.ends c hc)

theorem endsNumeral_of_free {rest : List Char} (h : Free rest) : ∀ c ∈ rest.head?, endsNumeral c = true := by
  intro c hc
  have hkinds : ∀ x ∈ valueEnds, endsNumeral x = true := by decide
  exact hkinds c (h.ends c hc)

def IsBareName (s : String) : Prop := IsName s.toList ∧ isOperatorWord s = false

instance (cs : List Char) : Decidable (IsName cs) := inferInstanceAs (Decidable (_ ∧ _))

instance (s : String) : Decidable (IsBareName s) := inferInstanceAs (Decidable (_ ∧ _))

theorem IsBareName.mention (h : IsBareName n) (after : List Char) :
    NullSafe.mention n.toList after = [⟨n, " := ".toList.isPrefixOf after⟩] := by
  rw [NullSafe.mention, String.ofList_toList, h.2]
  rfl

theorem ne_newline_of_isName {n : List Char} (h : IsName n) : ∀ c ∈ n, c ≠ '\n' := by
  rintro c hc rfl
  exact absurd (all_eq_true.1 h.2 _ hc) (by decide)

theorem IsBareName.toSays (h : IsBareName n) : Says n.toList [⟨n, false⟩] where
  line := ne_newline_of_isName h.1
  reads rest hrest := by rw [mentions_name h.1 (isNameRest_of_free hrest), h.mention, hrest.binds]

theorem IsBareName.closes_bound (h : IsBareName n) : Closes (n.toList ++ " := ".toList) [⟨n, true⟩] where
  line := forall_mem_append.2 ⟨ne_newline_of_isName h.1, by decide⟩
  reads rest := by
    have hskip : Closes " := ".toList [] := closes_separators (by decide)
    have hbinds : " := ".toList.isPrefixOf (" := ".toList ++ rest) = true := isPrefixOf_iff_prefix.2 (prefix_append _ _)
    rw [append_assoc, mentions_name h.1 (by rintro c ⟨⟩; decide), h.mention, hskip.reads, hbinds]
    rfl

theorem closes_operator (hn : IsName n.toList) (hword : isOperatorWord n = true) : Closes (n.toList ++ [' ']) [] where
  line := forall_mem_append.2 ⟨ne_newline_of_isName hn, by decide⟩
  reads rest := by
    have hmention : mention n.toList (' ' :: rest) = [] := by
      rw [mention, String.ofList_toList, hword]
      rfl
    rw [append_assoc, singleton_append, mentions_name hn (by rintro c ⟨⟩; decide), hmention, mentions_skip (by decide)]

theorem says_numeral (h : IsNumeral cs) : Says cs [] where
  line c hc := by
    have hnewline : ¬ (isDecimal '\n' = true ∨ '\n' ∈ ['.', 'e', 'E', '+', '-']) := by decide
    rintro rfl
    exact hnewline (h.chars _ hc)
  reads _ hrest := mentions_numeral h (endsNumeral_of_free hrest)

theorem closes_enclosed {quote : Char} {body : List Char} (hquote : quote = '\x27' ∨ quote = '"')
    (h : Enclosed quote body) (hline : ∀ c ∈ body, c ≠ '\n') : Closes (quote :: (body ++ [quote])) [] where
  line := by
    have hne : quote ≠ '\n' := by rcases hquote with rfl | rfl <;> decide
    exact forall_mem_cons.2 ⟨hne, forall_mem_append.2 ⟨hline, forall_mem_singleton.2 hne⟩⟩
  reads _ := mentions_enclosed hquote h

theorem closes_quotedCodes {codes : List Nat} (h : ∀ k ∈ codes, k < 0x110000) : Closes (quotedCodes codes) [] := by
  obtain ⟨quote, body, hquote, htext, hspells⟩ := denotes_quotedCodes h
  rw [htext]
  exact closes_enclosed hquote (hspells.enclosed hquote) hspells.ne_newline

theorem closes_quoted (s : String) : Closes (quoted s).toList [] := by
  rw [quoted, String.toList_ofList]
  exact closes_quotedCodes fun _ => lt_of_mem_codes

end Texts

def Leaf.mentions : Leaf → List Mention
  | .literal (.pattern _ _) => [⟨Operation.pattern.name, false⟩]
  | .literal (.text _) | .unfilled _ => []

/-- A leaf whose text has only code points. -/
def Leaf.IsWritten : Leaf → Prop
  | .literal (.text codes) => ∀ n ∈ codes, n < 0x110000
  | .literal (.pattern _ _) | .unfilled _ => True

namespace Code

def keptMention (n : Option Nat) : List Mention := (n.map fun n => ⟨temporaryName n, true⟩).toList

mutual

def mentions : Code Leaf → List Mention
  | number _ | key _ => []
  | literal x => x.mentions
  | constant c => [⟨c.text, false⟩]
  | this => [⟨"this", false⟩]
  | globals | global _ => [⟨"_globals_", false⟩]
  | formatters => [⟨"_formatters_", false⟩]
  | parameter name => [⟨name, false⟩]
  | temporary n => [⟨temporaryName n, false⟩]
  | setParameter name value => ⟨name, true⟩ :: mentions value
  | array items => mentionsAll items
  | object entries => mentionsEntries entries
  | operate op arguments => ⟨op.name, false⟩ :: mentionsAll arguments
  | apply callee arguments => mentions callee ++ mentionsAll arguments
  | not operand => mentions operand
  | logical _ left right | equal left right | differ left right => mentions left ++ mentions right
  | choose n test yes no =>
    ⟨temporaryName n, true⟩ :: (mentions test ++ (mentions yes ++ ⟨temporaryName n, false⟩ :: mentions no))
  | unlessNull n test body =>
    ⟨"None", false⟩ :: (keptMention n ++ (mentions test ++ ⟨"None", false⟩ :: mentions body))
  | whenCallable n test body =>
    ⟨"None", false⟩ :: ⟨Operation.callable.name, false⟩ :: (keptMention n ++ (mentions test ++ mentions body))

def mentionsAll : List (Code Leaf) → List Mention
  | [] => []
  | c :: rest => mentions c ++ mentionsAll rest

def mentionsEntries : List (Code Leaf × Code Leaf) → List Mention
  | [] => []
  | (k, v) :: rest => (mentions k ++ mentions v) ++ mentionsEntries rest

end

mutual

/-- Code whose numbers are numerals, whose parameters are names and whose texts have only code points. -/
def IsWritten : Code Leaf → Prop
  | number digits => IsNumeral digits.toList
  | literal x => x.IsWritten
  | constant _ | this | globals | formatters | key _ | global _ | temporary _ => True
  | parameter name => IsBareName name
  | setParameter name value => IsBareName name ∧ IsWritten value
  | array items => AreWritten items
  | object entries => EntriesWritten entries
  | operate _ arguments => AreWritten arguments
  | apply callee arguments => IsWritten callee ∧ AreWritten arguments
  | not operand => IsWritten operand
  | logical _ left right | equal left right | differ left right => IsWritten left ∧ IsWritten right
  | choose _ test yes no => IsWritten test ∧ IsWritten yes ∧ IsWritten no
  | unlessNull _ test body | whenCallable _ test body => IsWritten test ∧ IsWritten body

def AreWritten : List (Code Leaf) → Prop
  | [] => True
  | c :: rest => IsWritten c ∧ AreWritten rest

def EntriesWritten : List (Code Leaf × Code Leaf) → Prop
  | [] => True
  | (k, v) :: rest => IsWritten k ∧ IsWritten v ∧ EntriesWritten rest

end

end Code

section Printed

variable {cs ds es : List Char} {ks ms ns : List Mention} {p : String}

theorem flatMap_write (spell : Leaf → List Char) (s : String) :
    (Code.write s).flatMap (Glyph.chars spell) = s.toList := by
  rw [Code.write, flatMap_map]
  exact flatMap_singleton' s.toList

theorem isBareName_temporaryName (n : Nat) : IsBareName (temporaryName n) := by
  have hlist : (temporaryName n).toList = "_ref".toList ++ Nat.toDigits 10 n := by
    rw [temporaryName, String.toList_append, Name.toList_toString]
  constructor
  · rw [hlist]
    refine ⟨rfl, all_eq_true.2 (forall_mem_append.2 ⟨by decide, fun c hc => ?_⟩)⟩
    have hdigit := Nat.isDigit_of_mem_toDigits (by decide) (by decide) hc
    simp [isNameRest, Char.isAlphanum, hdigit]
  · -- no word of the generated language starts with an underscore
    have hstart : ∀ w ∈ Name.keywords, w.toList.head? ≠ some '_' := by decide
    have hno : temporaryName n ∉ Name.keywords := fun hmem => hstart _ hmem (by rw [hlist]; rfl)
    rw [isOperatorWord, contains_eq_mem, decide_eq_false hno]
    rfl

theorem isBareName_operation (op : Operation) : IsBareName op.name := by
  cases op <;> decide

theorem isBareName_constant (c : Constant) : IsBareName c.text := by
  cases c <;> decide

theorem says_none : Says "None".toList [⟨"None", false⟩] := (isBareName_constant .null).toSays

theorem separates_punctuation : ∀ p ∈ [")", ", ", "[", "]", "\x7d", ": ", " == ", " != ", "), (", "("],
    Separates p.toList [] := by
  simp only [forall_mem_cons, not_mem_nil, false_implies, implies_true, and_true]
  refine ⟨?_, ?_, ?_, ?_, ?_, ?_, ?_, ?_, ?_, ?_⟩ <;>
    exact ⟨fun _ => ⟨by rintro c ⟨⟩; decide, rfl⟩, closes_separators (by decide)⟩

theorem separates_word {w : String} (hp : p.toList = ' ' :: (w.toList ++ [' '])) (hw : IsName w.toList)
    (hword : isOperatorWord w = true) : Separates p.toList [] := by
  have hblank : Closes [' '] [] := closes_separators (by decide)
  rw [hp]
  refine ⟨fun rest => ⟨by rintro c ⟨⟩; decide, ?_⟩, hblank.append (closes_operator hw hword)⟩
  rcases hcs : w.toList with _ | ⟨x, cs⟩ <;> rw [hcs] at hw
  · exact absurd hw.1 (by decide)
  · have hx : ':' ≠ x := by
      rintro rfl
      exact absurd (show isNameStart ':' = true from hw.1) (by decide)
    simp [List.isPrefixOf, hx]

theorem Says.opened (hp : ∀ c ∈ p.toList, isSeparator c = true) (h : Says cs ms) : Says (p.toList ++ cs) ms :=
  (closes_separators hp).says_append h

theorem Says.ended (h : Says cs ms) (hp : Separates p.toList []) : Says (cs ++ p.toList) ms := by
  have hclosed := h.closes_append hp
  rw [append_nil] at hclosed
  exact hclosed.toSays

theorem Says.between (h : Says cs ms) (hp : Separates p.toList []) (h' : Says ds ns) :
    Says (cs ++ (p.toList ++ ds)) (ms ++ ns) := by
  have hclosed := (h.closes_append hp).says_append h'
  rwa [append_nil, append_assoc] at hclosed

/-- Texts with the given names, one text after another. -/
inductive SaysAll : List (List Char) → List Mention → Prop where
  | nil : SaysAll [] []
  | cons {cs texts ms ns} (h : Says cs ms) (h' : SaysAll texts ns) : SaysAll (cs :: texts) (ms ++ ns)

theorem SaysAll.intercalate (hp : Separates p.toList []) {texts : List (List Char)} (h : SaysAll texts ms) :
    Says (List.intercalate p.toList texts) ms := by
  induction h with
  | nil => exact says_nil
  | @cons cs texts ms ns h h' ih =>
    cases texts with
    | nil =>
      cases h'
      simpa using h
    | cons ds texts =>
      rw [intercalate_cons_cons, append_assoc]
      exact h.between hp ih

theorem flatMap_commaSeparated (texts : List (List (Glyph Leaf))) :
    (Code.commaSeparated texts).flatMap (Glyph.chars Leaf.chars) =
      List.intercalate ", ".toList (texts.map fun t => t.flatMap (Glyph.chars Leaf.chars)) := by
  induction texts with
  | nil => rfl
  | cons t texts ih =>
    cases texts with
    | nil => simp [Code.commaSeparated]
    | cons u texts =>
      rw [Code.commaSeparated_cons_cons, flatMap_append, flatMap_append, flatMap_write, ih, map_cons,
        map_cons, map_cons, intercalate_cons_cons]

theorem Says.call {texts : List (List Char)} (h : Says cs ms) (h' : SaysAll texts ns) :
    Says (cs ++ ("(".toList ++ (List.intercalate ", ".toList texts ++ ")".toList))) (ms ++ ns) := by
  have harguments := (h'.intercalate (separates_punctuation ", " (by simp))).ended (separates_punctuation ")" (by simp))
  exact h.between (separates_punctuation "(" (by simp)) harguments

theorem says_leaf {x : Leaf} (h : x.IsWritten) : Says x.chars x.mentions := by
  rcases x with (codes | ⟨body, flags⟩) | (_ | _) | _
  · rw [Leaf.chars, Literal.render, String.toList_ofList]
    exact (closes_quotedCodes h).toSays
  · have htext : (Leaf.literal (.pattern body flags)).chars = Operation.pattern.name.toList ++ ("(".toList ++
        (List.intercalate ", ".toList [(quoted body).toList, (quoted flags).toList] ++ ")".toList)) := by
      simp [Leaf.chars, Literal.render, Operation.name]
    rw [htext]
    exact (isBareName_operation .pattern).toSays.call
      (.cons (closes_quoted body).toSays (.cons (closes_quoted flags).toSays .nil))
  · exact (closes_enclosed (.inl rfl) .nil (by simp)).toSays
  · exact (closes_enclosed (.inr rfl) .nil (by simp)).toSays
  · exact (closes_separators (by decide)).toSays

namespace Code

variable {x y z : Code Leaf}

def Says (code : Code Leaf) : Prop := NullSafe.Says (code.chars Leaf.chars) code.mentions

theorem separates_close : Separates ")".toList [] := separates_punctuation ")" (by simp)

theorem separates_if : Separates " if ".toList [] :=
  separates_word (w := "if") (by decide) (by decide) (by decide)

theorem separates_else : Separates " else ".toList [] :=
  separates_word (w := "else") (by decide) (by decide) (by decide)

theorem separates_is : Separates " is ".toList [] :=
  separates_word (w := "is") (by decide) (by decide) (by decide)

theorem closes_not : Closes "not ".toList [] := closes_operator (n := "not") (by decide) (by decide)

variable (hx : x.Says)

include hx

theorem says_infix {p : String} (hp : Separates p.toList []) (hy : y.Says) :
    NullSafe.Says ((write "(" ++ x.print ++ write p ++ y.print ++ write ")").flatMap (Glyph.chars Leaf.chars))
      (x.mentions ++ y.mentions) := by
  simp only [append_assoc, flatMap_append, flatMap_write]
  exact .opened (by decide) (hx.between hp (.ended hy separates_close))

theorem says_logical (op : LogicalOp) (hy : y.Says) : (logical op x y).Says := by
  cases op <;> rw [Says, chars, print]
  · exact says_infix hx (separates_word (w := "and") (by decide) (by decide) (by decide)) hy
  · exact says_infix hx (separates_word (w := "or") (by decide) (by decide) (by decide)) hy

theorem says_not : (not x).Says := by
  have hparen : Closes "(".toList [] := closes_separators (by decide)
  have hopen : Closes "(not ".toList [] := hparen.append closes_not
  simp only [Says, chars, print, append_assoc, flatMap_append, flatMap_write]
  exact hopen.says_append (.ended hx separates_close)

theorem says_setParameter {s : String} (h : IsBareName s) : (setParameter s x).Says := by
  simp only [Says, chars, print, append_assoc, flatMap_append, flatMap_write]
  rw [← append_assoc s.toList]
  exact .opened (by decide) (h.closes_bound.says_append (.ended hx separates_close))

theorem says_choose (n : Nat) (hy : y.Says) (hz : z.Says) : (choose n x y z).Says := by
  have hsecond : Separates "))[1]".toList [] := by
    have hopen : Closes "))[".toList [] := closes_separators (by decide)
    have hone : IsNumeral ['1'] := isNumeral_of_decimal nofun (by decide)
    refine ⟨fun _ => ⟨by rintro c ⟨⟩; decide, rfl⟩, hopen.append ?_⟩
    exact (says_numeral hone).closes_append (separates_punctuation "]" (by simp))
  simp only [Says, chars, print, append_assoc, flatMap_append, flatMap_write]
  rw [← append_assoc (temporaryName n).toList]
  refine .opened (by decide) ((isBareName_temporaryName n).closes_bound.says_append ?_)
  exact hx.between (separates_punctuation "), (" (by simp)) (hy.between separates_if
    ((isBareName_temporaryName n).toSays.between separates_else (.ended hz hsecond)))

variable (n : Option Nat)

include n

theorem says_boundTest :
    NullSafe.Says ((boundTest n x.print).flatMap (Glyph.chars Leaf.chars)) (keptMention n ++ x.mentions) := by
  cases n with
  | none => exact hx
  | some n =>
    simp only [boundTest, append_assoc, flatMap_append, flatMap_write]
    rw [← append_assoc]
    exact (isBareName_temporaryName n).closes_bound.says_append hx

theorem says_nullTest :
    NullSafe.Says ((nullTest n x.print).flatMap (Glyph.chars Leaf.chars))
      (keptMention n ++ (x.mentions ++ [⟨"None", false⟩])) := by
  cases n with
  | none =>
    rw [nullTest, flatMap_append, flatMap_write]
    exact hx.between separates_is says_none
  | some n =>
    simp only [nullTest, append_assoc, flatMap_append, flatMap_write]
    rw [← append_assoc (keptMention _)]
    have hend : Separates ") is ".toList [] :=
      ⟨fun _ => ⟨by rintro c ⟨⟩; decide, rfl⟩, separates_close.closes.append separates_is.closes⟩
    exact .opened (by decide) ((says_boundTest hx (some n)).between hend says_none)

theorem says_unlessNull (hy : y.Says) : (unlessNull n x y).Says := by
  simp only [Says, chars, print, append_assoc, flatMap_append, flatMap_write]
  have htest := (says_nullTest hx n).between separates_else (.ended hy separates_close)
  have hcode := Says.opened (p := "(") (by decide) (says_none.between separates_if htest)
  simpa [mentions, chars] using hcode

theorem says_whenCallable (hy : y.Says) : (whenCallable n x y).Says := by
  simp only [Says, chars, print, append_assoc, flatMap_append, flatMap_write]
  have hclose : Separates ") else ".toList [] :=
    ⟨fun _ => ⟨by rintro c ⟨⟩; decide, rfl⟩, separates_close.closes.append separates_else.closes⟩
  have htest := (says_boundTest hx n).between hclose (.ended hy separates_close)
  have hcall := (isBareName_operation .callable).toSays.between (separates_punctuation "(" (by simp)) htest
  have hcode := Says.opened (p := "(") (by decide) (says_none.between separates_if (closes_not.says_append hcall))
  simpa [mentions, chars, Operation.name] using hcode

omit n hx

theorem says_call {cs : List Char} {ms ns : List Mention} {texts : List (List (Glyph Leaf))} (h : NullSafe.Says cs ms)
    (h' : SaysAll (texts.map fun t => t.flatMap (Glyph.chars Leaf.chars)) ns) :
    NullSafe.Says (cs ++ ("(".toList ++ ((commaSeparated texts).flatMap (Glyph.chars Leaf.chars) ++ ")".toList)))
      (ms ++ ns) := by
  rw [flatMap_commaSeparated]
  exact h.call h'

theorem says_items {p q : String} (hp : ∀ c ∈ p.toList, isSeparator c = true) (hq : Separates q.toList [])
    {texts : List (List (Glyph Leaf))} {ms : List Mention}
    (h : SaysAll (texts.map fun t => t.flatMap (Glyph.chars Leaf.chars)) ms) :
    NullSafe.Says ((write p ++ commaSeparated texts ++ write q).flatMap (Glyph.chars Leaf.chars)) ms := by
  simp only [append_assoc, flatMap_append, flatMap_write, flatMap_commaSeparated]
  exact .opened hp (.ended (h.intercalate (separates_punctuation ", " (by simp))) hq)

mutual

theorem says_of_isWritten : ∀ {code : Code Leaf}, code.IsWritten → code.Says
  | number digits, h => by
    rw [Says, chars, print, flatMap_write]
    exact says_numeral h
  | literal x, h => by
    rw [Says, chars, print, flatMap_singleton]
    exact says_leaf h
  | constant c, _ => by
    rw [Says, chars, print, flatMap_write]
    exact (isBareName_constant c).toSays
  | this, _ => by
    rw [Says, chars, print, flatMap_write]
    exact IsBareName.toSays (by decide)
  | globals, _ => by
    rw [Says, chars, print, flatMap_write]
    exact IsBareName.toSays (by decide)
  | formatters, _ => by
    rw [Says, chars, print, flatMap_write]
    exact IsBareName.toSays (by decide)
  | parameter name, h => by
    rw [Says, chars, print, flatMap_write]
    exact IsBareName.toSays h
  | key s, _ => by
    rw [Says, chars, print, flatMap_write]
    exact (closes_quoted s).toSays
  | global name, _ => by
    simp only [Says, chars, print, append_assoc, flatMap_append, flatMap_write]
    have hname := (closes_quoted name).toSays.ended (separates_punctuation "]" (by simp))
    have hglobals : IsBareName "_globals_" := by decide
    exact hglobals.toSays.between (separates_punctuation "[" (by simp)) hname
  | temporary n, _ => by
    rw [Says, chars, print, flatMap_write]
    exact (isBareName_temporaryName n).toSays
  | setParameter name value, h => says_setParameter (says_of_isWritten h.2) h.1
  | array items, h => by
    rw [Says, chars, print]
    exact says_items (by decide) (separates_punctuation "]" (by simp)) (saysAll_of_areWritten h)
  | object entries, h => by
    rw [Says, chars, print]
    exact says_items (by decide) (separates_punctuation "\x7d" (by simp)) (saysEntries_of_entriesWritten h)
  | operate op arguments, h => by
    simp only [Says, chars, print, append_assoc, flatMap_append, flatMap_write]
    exact says_call (isBareName_operation op).toSays (saysAll_of_areWritten h)
  | apply callee arguments, h => by
    simp only [Says, chars, print, append_assoc, flatMap_append, flatMap_write]
    exact says_call (says_of_isWritten h.1) (saysAll_of_areWritten h.2)
  | not operand, h => says_not (says_of_isWritten h)
  | logical op left right, h => says_logical (says_of_isWritten h.1) op (says_of_isWritten h.2)
  | equal left right, h => by
    rw [Says, chars, print]
    exact says_infix (says_of_isWritten h.1) (separates_punctuation " == " (by simp)) (says_of_isWritten h.2)
  | differ left right, h => by
    rw [Says, chars, print]
    exact says_infix (says_of_isWritten h.1) (separates_punctuation " != " (by simp)) (says_of_isWritten h.2)
  | choose n test yes no, h =>
    says_choose (says_of_isWritten h.1) n (says_of_isWritten h.2.1) (says_of_isWritten h.2.2)
  | unlessNull n test body, h => says_unlessNull (says_of_isWritten h.1) n (says_of_isWritten h.2)
  | whenCallable n test body, h => says_whenCallable (says_of_isWritten h.1) n (says_of_isWritten h.2)

theorem saysAll_of_areWritten : ∀ {items : List (Code Leaf)}, AreWritten items →
    SaysAll ((printAll items).map fun t => t.flatMap (Glyph.chars Leaf.chars)) (mentionsAll items)
  | [], _ => .nil
  | _ :: _, h => .cons (says_of_isWritten h.1) (saysAll_of_areWritten h.2)

theorem saysEntries_of_entriesWritten : ∀ {entries : List (Code Leaf × Code Leaf)}, EntriesWritten entries →
    SaysAll ((printEntries entries).map fun t => t.flatMap (Glyph.chars Leaf.chars)) (mentionsEntries entries)
  | [], _ => .nil
  | (k, v) :: rest, h => by
    refine .cons ?_ (saysEntries_of_entriesWritten h.2.2)
    simp only [append_assoc, flatMap_append, flatMap_write]
    exact Says.between (says_of_isWritten h.1) (separates_punctuation ": " (by simp)) (says_of_isWritten h.2.1)

end

end Code

end Printed

end NullSafe
