import NullSafe.Text.Blank

/-! # Literals in an expression text

An expression text is a sequence of literals and single characters. A string literal runs from a quote
to the next such quote that no backslash precedes. A slash opens a pattern literal only where an
operand can start; elsewhere it divides. A literal that is never closed is no literal.
-/

namespace NullSafe.Literal

/-- A part of an expression text: a whole literal or a character outside literals. -/
inductive Piece where
  | char (c : Char)
  | literal (raw : List Char)
  deriving DecidableEq, Repr

namespace Piece

def text : Piece → List Char
  | char c => [c]
  | literal raw => raw

end Piece

/-- Reads on to the quote that closes a string: the part up to and including it, and the rest. -/
def closeString (quote : Char) : List Char → Option (List Char × List Char)
  | [] => none
  | '\\' :: c :: rest => (closeString quote rest).map fun (s, r) => ('\\' :: c :: s, r)
  | c :: rest =>
    if c = quote then some ([c], rest)
    else if c = '\\' then none
    else (closeString quote rest).map fun (s, r) => (c :: s, r)

def closePattern : List Char → Option (List Char × List Char)
  | [] => none
  | '\\' :: c :: rest =>
    if c = '\n' then none
    else (closePattern rest).map fun (s, r) => ('\\' :: c :: s, r)
  | c :: rest =>
    if c = '/' then some ([c], rest)
    else if c = '\\' || c = '\n' then none
    else (closePattern rest).map fun (s, r) => (c :: s, r)

/-- Characters after which an operand can start, so that a slash opens a pattern. -/
def operandPreceders : List Char := "(,=:[!&|?\x7b\x7d;+-*%<>~^".toList

def operandCanStart : Option Char → Bool
  | none => true
  | some c => operandPreceders.contains c

/-- The literal at the start of a text, and the rest, given the last character that is not blank. -/
def readLiteral? (last : Option Char) : List Char → Option (List Char × List Char)
  | [] => none
  | c :: rest =>
    if c = '\x27' || c = '"' then
      (closeString c rest).map fun (s, r) => (c :: s, r)
    else if c = '/' && operandCanStart last && rest.head? != some '/' then
      (closePattern rest).map fun (s, r) =>
        (c :: s ++ r.takeWhile Char.isAlpha, r.dropWhile Char.isAlpha)
    else none

theorem closeString_length {quote : Char} {cs s r : List Char}
    (h : closeString quote cs = some (s, r)) : r.length < cs.length := by
  fun_induction closeString quote cs generalizing s r with
  | case1 => simp at h
  | case2 c rest ih =>
    obtain ⟨⟨s', r'⟩, h', e⟩ := Option.map_eq_some_iff.1 h
    cases e
    have := ih h'
    simp only [List.length_cons]; omega
  | case3 => cases h; simp
  | case4 => simp at h
  | case5 c rest _ _ _ ih =>
    obtain ⟨⟨s', r'⟩, h', e⟩ := Option.map_eq_some_iff.1 h
    cases e
    have := ih h'
    simp only [List.length_cons]; omega

theorem closePattern_length {cs s r : List Char} (h : closePattern cs = some (s, r)) : r.length < cs.length := by
  fun_induction closePattern cs generalizing s r with
  | case1 => simp at h
  | case2 => simp at h
  | case3 c rest _ ih =>
    obtain ⟨⟨s', r'⟩, h', e⟩ := Option.map_eq_some_iff.1 h
    cases e
    have := ih h'
    simp only [List.length_cons]; omega
  | case4 => cases h; simp
  | case5 => simp at h
  | case6 c rest _ _ _ ih =>
    obtain ⟨⟨s', r'⟩, h', e⟩ := Option.map_eq_some_iff.1 h
    cases e
    have := ih h'
    simp only [List.length_cons]; omega

theorem readLiteral?_length {last : Option Char} {cs raw rest : List Char}
    (h : readLiteral? last cs = some (raw, rest)) : rest.length < cs.length := by
  cases cs with
  | nil => simp [readLiteral?] at h
  | cons c cs =>
    simp only [readLiteral?] at h
    split at h
    · obtain ⟨⟨s', r'⟩, h', e⟩ := Option.map_eq_some_iff.1 h
      cases e
      have := closeString_length h'
      simp only [List.length_cons]; omega
    · split at h
      · obtain ⟨⟨s', r'⟩, h', e⟩ := Option.map_eq_some_iff.1 h
        cases e
        have := closePattern_length h'
        have := (List.dropWhile_sublist (l := r') Char.isAlpha).length_le
        simp only [List.length_cons]; omega
      · simp at h

/-- The pieces of a text that follows a part whose last character that is not blank is `last`. -/
def piecesFrom (last : Option Char) (cs : List Char) : List Piece :=
  match cs with
  | [] => []
  | c :: rest =>
    match _h : readLiteral? last (c :: rest) with
    | some (raw, after) => .literal raw :: piecesFrom (some c) after
    | none => .char c :: piecesFrom (if Text.isBlank c then last else some c) rest
termination_by cs.length
decreasing_by
  · exact readLiteral?_length (by assumption)
  · simp

def pieces (cs : List Char) : List Piece := piecesFrom none cs

/-- The first and the one-past-last position of each literal among pieces that start at `pos`. -/
def spansFrom (pos : Nat) : List Piece → List (Nat × Nat)
  | [] => []
  | .char _ :: rest => spansFrom (pos + 1) rest
  | .literal raw :: rest => (pos, pos + raw.length) :: spansFrom (pos + raw.length) rest

def spans (text : String) : List (Nat × Nat) := spansFrom 0 (pieces text.toList)

end NullSafe.Literal
