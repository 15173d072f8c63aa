import NullSafe.Surface.Fault
import NullSafe.Text.Blank
import NullSafe.Text.Digit

/-! # Tokens

The tokens of an expression text whose literals are set aside. A literal is an empty pair of its
delimiter here. Blanks only separate tokens.
-/

namespace NullSafe.Surface

open Text

inductive Quote where
  | single
  | double
  deriving DecidableEq, Repr

def Quote.chars : Quote → List Char
  | single => ['\x27', '\x27']
  | double => ['"', '"']

inductive Symbol where
  | strictEqual | strictDiffer | equal | differ | atMost | atLeast | both | either
  | minus | plus | times | slash | percent | below | above | bang | question | colon | dot | comma
  | openParen | closeParen | openBracket | closeBracket | openBrace | closeBrace | assign
  deriving DecidableEq, Repr

namespace Symbol

def chars : Symbol → List Char
  | strictEqual => ['=', '=', '=']
  | strictDiffer => ['!', '=', '=']
  | equal => ['=', '=']
  | differ => ['!', '=']
  | atMost => ['<', '=']
  | atLeast => ['>', '=']
  | both => ['&', '&']
  | either => ['|', '|']
  | minus => ['-']
  | plus => ['+']
  | times => ['*']
  | slash => ['/']
  | percent => ['%']
  | below => ['<']
  | above => ['>']
  | bang => ['!']
  | question => ['?']
  | colon => [':']
  | dot => ['.']
  | comma => [',']
  | openParen => ['(']
  | closeParen => [')']
  | openBracket => ['[']
  | closeBracket => [']']
  | openBrace => ['\x7b']
  | closeBrace => ['\x7d']
  | assign => ['=']

def read? : List Char → Option (Symbol × List Char)
  | '=' :: '=' :: '=' :: r => some (strictEqual, r)
  | '!' :: '=' :: '=' :: r => some (strictDiffer, r)
  | '=' :: '=' :: r => some (equal, r)
  | '!' :: '=' :: r => some (differ, r)
  | '<' :: '=' :: r => some (atMost, r)
  | '>' :: '=' :: r => some (atLeast, r)
  | '&' :: '&' :: r => some (both, r)
  | '|' :: '|' :: r => some (either, r)
  | '-' :: r => some (minus, r)
  | '+' :: r => some (plus, r)
  | '*' :: r => some (times, r)
  | '/' :: r => some (slash, r)
  | '%' :: r => some (percent, r)
  | '<' :: r => some (below, r)
  | '>' :: r => some (above, r)
  | '!' :: r => some (bang, r)
  | '?' :: r => some (question, r)
  | ':' :: r => some (colon, r)
  | '.' :: r => some (dot, r)
  | ',' :: r => some (comma, r)
  | '(' :: r => some (openParen, r)
  | ')' :: r => some (closeParen, r)
  | '[' :: r => some (openBracket, r)
  | ']' :: r => some (closeBracket, r)
  | '\x7b' :: r => some (openBrace, r)
  | '\x7d' :: r => some (closeBrace, r)
  | '=' :: r => some (assign, r)
  | _ => none

end Symbol

inductive Lexeme where
  | number (text : List Char)
  | string (quote : Quote)
  | pattern
  | name (text : List Char)
  | symbol (s : Symbol)
  deriving DecidableEq, Repr

namespace Lexeme

def chars : Lexeme → List Char
  | number cs => cs
  | string q => q.chars
  | pattern => ['/', '/']
  | name cs => cs
  | symbol s => s.chars

def text (l : Lexeme) : String := String.ofList l.chars

def kind : Lexeme → String
  | number _ => "NUMBER"
  | string _ => "STRING"
  | pattern => "PATTERN"
  | name _ => "IDENT"
  | symbol _ => "OP"

end Lexeme

structure Token where
  lexeme : Lexeme
  position : Nat
  deriving DecidableEq, Repr

/-- The exponent at the start of a text, and the rest; no exponent when no digit follows. -/
def readExponent (cs : List Char) : List Char × List Char :=
  match cs with
  | e :: rest =>
    if e = 'e' || e = 'E' then
      let sign := (rest.take 1).filter fun c => c = '+' || c = '-'
      let after := rest.drop sign.length
      let digits := after.takeWhile isDecimal
      if digits.isEmpty then ([], cs) else (e :: sign ++ digits, after.dropWhile isDecimal)
    else ([], cs)
  | [] => ([], [])

/-- The whole and fractional digits at the start of a text, with the point, and the rest. -/
def readMantissa? (cs : List Char) : Option (List Char × List Char) :=
  let whole := cs.takeWhile isDecimal
  match cs.dropWhile isDecimal with
  | '.' :: rest =>
    let fraction := rest.takeWhile isDecimal
    if whole.isEmpty && fraction.isEmpty then none
    else some (whole ++ '.' :: fraction, rest.dropWhile isDecimal)
  | rest => if whole.isEmpty then none else some (whole, rest)

def readDecimal? (cs : List Char) : Option (List Char × List Char) :=
  (readMantissa? cs).map fun (mantissa, rest) =>
    (mantissa ++ (readExponent rest).1, (readExponent rest).2)

def readNumber? (cs : List Char) : Option (List Char × List Char) :=
  match cs with
  | '0' :: x :: rest =>
    let digits := rest.takeWhile isHexDigit
    if (x = 'x' || x = 'X') && !digits.isEmpty then
      some ('0' :: x :: digits, rest.dropWhile isHexDigit)
    else readDecimal? cs
  | _ => readDecimal? cs

def isNameStart (c : Char) : Bool := c.isAlpha || c = '_' || c = '$'

def isNameRest (c : Char) : Bool := c.isAlphanum || c = '_' || c = '$'

def readPlaceholder? : List Char → Option (Lexeme × List Char)
  | '\x27' :: '\x27' :: r => some (.string .single, r)
  | '"' :: '"' :: r => some (.string .double, r)
  | '/' :: '/' :: r => some (.pattern, r)
  | _ => none

def readName? (cs : List Char) : Option (List Char × List Char) :=
  if cs.head?.any isNameStart then some (cs.takeWhile isNameRest, cs.dropWhile isNameRest) else none

/-- The lexeme at the start of a text that starts with no blank, and the rest. -/
def readLexeme? (cs : List Char) : Option (Lexeme × List Char) :=
  (readNumber? cs).map (fun (n, r) => (Lexeme.number n, r))
    <|> readPlaceholder? cs
    <|> (readName? cs).map (fun (n, r) => (Lexeme.name n, r))
    <|> (Symbol.read? cs).map (fun (s, r) => (Lexeme.symbol s, r))

theorem readExponent_append (cs : List Char) : (readExponent cs).1 ++ (readExponent cs).2 = cs := by
  unfold readExponent
  split
  · rename_i e rest
    split
    · dsimp only
      split
      · rfl
      · have hs : (rest.take 1).filter (fun c => c = '+' || c = '-') ++
            rest.drop ((rest.take 1).filter fun c => c = '+' || c = '-').length = rest := by
          cases rest with
          | nil => rfl
          | cons c cs =>
            by_cases hc : (decide (c = '+') || decide (c = '-')) = true
            · simp [hc]
            · simp [hc]
        simp only [List.cons_append, List.append_assoc, List.takeWhile_append_dropWhile]
        rw [hs]
    · rfl
  · rfl

theorem readMantissa?_eq_some {cs m r : List Char} (h : readMantissa? cs = some (m, r)) : m ++ r = cs ∧ m ≠ [] := by
  have hsplit : cs.takeWhile isDecimal ++ cs.dropWhile isDecimal = cs := List.takeWhile_append_dropWhile
  unfold readMantissa? at h
  dsimp only at h
  split at h
  · rename_i rest e
    split at h
    · simp at h
    · cases h
      rw [e] at hsplit
      refine ⟨?_, by simp⟩
      rw [List.append_assoc, List.cons_append, List.takeWhile_append_dropWhile, hsplit]
  · split at h
    · simp at h
    · rename_i hne
      cases h
      exact ⟨hsplit, by simpa using hne⟩

theorem readDecimal?_eq_some {cs n r : List Char} (h : readDecimal? cs = some (n, r)) : n ++ r = cs ∧ n ≠ [] := by
  obtain ⟨⟨m, rest⟩, hm, e⟩ := Option.map_eq_some_iff.1 h
  obtain ⟨happ, hne⟩ := readMantissa?_eq_some hm
  obtain ⟨rfl, rfl⟩ := Prod.mk.inj e
  refine ⟨?_, by simp [hne]⟩
  rw [List.append_assoc, readExponent_append, happ]

theorem readNumber?_eq_some {cs n r : List Char} (h : readNumber? cs = some (n, r)) : n ++ r = cs ∧ n ≠ [] := by
  unfold readNumber? at h
  split at h
  · dsimp only at h
    split at h
    · cases h
      simp
    · exact readDecimal?_eq_some h
  · exact readDecimal?_eq_some h

theorem readPlaceholder?_eq_some {cs r : List Char} {l : Lexeme}
    (h : readPlaceholder? cs = some (l, r)) : l.chars ++ r = cs ∧ l.chars ≠ [] := by
  unfold readPlaceholder? at h
  split at h <;> cases h <;> simp [Lexeme.chars, Quote.chars]

theorem readName?_eq_some {cs n r : List Char} (h : readName? cs = some (n, r)) : n ++ r = cs ∧ n ≠ [] := by
  unfold readName? at h
  split at h
  · rename_i hc
    cases h
    refine ⟨List.takeWhile_append_dropWhile, ?_⟩
    cases cs with
    | nil => simp at hc
    | cons c cs =>
      have : isNameRest c = true := by
        simp only [List.head?_cons, Option.any_some, isNameStart, Bool.or_eq_true,
          decide_eq_true_eq] at hc
        simp only [isNameRest, Char.isAlphanum, Bool.or_eq_true, decide_eq_true_eq]
        grind
      simp [this]
  · simp at h

theorem Symbol.read?_eq_some {cs r : List Char} {s : Symbol} (h : read? cs = some (s, r)) :
    s.chars ++ r = cs ∧ s.chars ≠ [] := by
  unfold read? at h
  split at h <;> cases h <;> simp [chars]

/-- Reading a lexeme splits the text into its spelling, which is never empty, and the rest. -/
theorem readLexeme?_eq_some {cs r : List Char} {l : Lexeme} (h : readLexeme? cs = some (l, r)) :
    l.chars ++ r = cs ∧ l.chars ≠ [] := by
  simp only [readLexeme?, Option.orElse_eq_orElse, Option.orElse_eq_or, Option.or_eq_some_iff,
    Option.map_eq_some_iff] at h
  rcases h with ⟨⟨n, r'⟩, hn, e⟩ | ⟨_, hp | ⟨_, ⟨⟨n, r'⟩, hn, e⟩ | ⟨_, ⟨s, r'⟩, hs, e⟩⟩⟩
  · cases e; exact readNumber?_eq_some hn
  · exact readPlaceholder?_eq_some hp
  · cases e; exact readName?_eq_some hn
  · cases e; exact Symbol.read?_eq_some hs

theorem readLexeme?_length {cs r : List Char} {l : Lexeme} (h : readLexeme? cs = some (l, r)) :
    r.length < cs.length := by
  obtain ⟨happ, hne⟩ := readLexeme?_eq_some h
  have := List.length_pos_iff.2 hne
  rw [← happ, List.length_append]
  omega

def tokensFrom (pos : Nat) (cs : List Char) : Except Fault (List Token) :=
  match cs with
  | [] => .ok []
  | c :: rest =>
    if isBlank c then tokensFrom (pos + 1) rest
    else
      match _h : readLexeme? (c :: rest) with
      | none => .error { cause := .unexpectedCharacter c, position := some pos }
      | some (l, after) => do
        let ts ← tokensFrom (pos + l.chars.length) after
        return ⟨l, pos⟩ :: ts
termination_by cs.length
decreasing_by
  · simp
  · exact readLexeme?_length ‹_›

theorem tokensFrom_of_read {pos : Nat} {c : Char} {rest after : List Char} {l : Lexeme}
    (hc : isBlank c = false) (h : readLexeme? (c :: rest) = some (l, after)) :
    tokensFrom pos (c :: rest) = (do
      let ts ← tokensFrom (pos + l.chars.length) after
      return ⟨l, pos⟩ :: ts) := by
  rw [tokensFrom, hc, if_neg Bool.false_ne_true]
  split
  · rename_i hn
    rw [h] at hn
    cases hn
  · rename_i hs
    rw [h] at hs
    cases hs
    rfl

def tokenize (cs : List Char) : Except Fault (List Token) := tokensFrom 0 cs

end NullSafe.Surface
