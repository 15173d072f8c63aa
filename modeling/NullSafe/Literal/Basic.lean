import NullSafe.Text.Digit
import NullSafe.Text.Quoted

/-! # What a literal denotes

A string literal denotes a list of code points, with its escapes resolved. A pattern literal denotes a
pattern body and its flags, both as written. The generated code spells the first as a quoted text and
the second as a call that compiles the pattern.
-/

namespace NullSafe

inductive Literal where
  | text (codes : List Nat)
  | pattern (body flags : String)
  deriving DecidableEq, Repr

namespace Literal

inductive EscapeFault where
  | outOfRange
  /-- The number does not fit a machine integer. -/
  | tooLarge
  deriving DecidableEq, Repr

def codePoint (n : Nat) : Except EscapeFault Nat :=
  if n < 0x110000 then .ok n
  else if n < 0x80000000 then .error .outOfRange
  else .error .tooLarge

def simpleEscape : Char → Nat
  | 'n' => 0x0A
  | 't' => 0x09
  | 'r' => 0x0D
  | 'b' => 0x08
  | 'f' => 0x0C
  | 'v' => 0x0B
  | '0' => 0x00
  | c => c.toNat

/-- Whether a character ends a line, so that a backslash before it continues the literal. -/
def isLineEnd (c : Char) : Bool :=
  c == '\n' || c == '\r' || c.toNat == 0x2028 || c.toNat == 0x2029

/-- The characters of a string literal's body with the numbers that escapes give. -/
inductive Unit where
  | code (n : Nat)
  | escape (hex : List Char)
  deriving DecidableEq, Repr

def bracedEscape? (cs : List Char) : Option (List Char × List Char) :=
  let hex := cs.takeWhile Text.isHexDigit
  match cs.dropWhile Text.isHexDigit with
  | '\x7d' :: rest => if hex.isEmpty then none else some (hex, rest)
  | _ => none

def fixedEscape? (n : Nat) (cs : List Char) : Option (List Char × List Char) :=
  let hex := cs.take n
  if hex.length = n && hex.all Text.isHexDigit then some (hex, cs.drop n) else none

def numericEscape? : List Char → Option (List Char × List Char)
  | 'u' :: '\x7b' :: rest => bracedEscape? rest
  | 'u' :: rest => fixedEscape? 4 rest
  | 'x' :: rest => fixedEscape? 2 rest
  | _ => none

theorem bracedEscape?_length {cs hex rest : List Char}
    (h : bracedEscape? cs = some (hex, rest)) : rest.length < cs.length := by
  simp only [bracedEscape?] at h
  split at h
  · rename_i r e
    split at h
    · simp at h
    · cases h
      have := (List.dropWhile_sublist (l := cs) Text.isHexDigit).length_le
      rw [e, List.length_cons] at this
      omega
  · simp at h

theorem fixedEscape?_length {n : Nat} {cs hex rest : List Char}
    (h : fixedEscape? n cs = some (hex, rest)) : rest.length ≤ cs.length := by
  simp only [fixedEscape?] at h
  split at h
  · cases h
    simp
  · simp at h

theorem numericEscape?_length {cs hex rest : List Char}
    (h : numericEscape? cs = some (hex, rest)) : rest.length < cs.length := by
  unfold numericEscape? at h
  split at h
  · have := bracedEscape?_length h
    simp only [List.length_cons]; omega
  · have := fixedEscape?_length h
    simp only [List.length_cons]; omega
  · have := fixedEscape?_length h
    simp only [List.length_cons]; omega
  · simp at h

/-- The units of a string literal's body. A backslash before a line end stands for nothing. -/
def units (cs : List Char) : List Unit :=
  match cs with
  | [] => []
  | '\\' :: c :: rest =>
    match _h : numericEscape? (c :: rest) with
    | some (hex, after) => .escape hex :: units after
    | none =>
      if c = '\r' && rest.head? = some '\n' then units rest.tail
      else if isLineEnd c then units rest
      else .code (simpleEscape c) :: units rest
  | c :: rest => .code c.toNat :: units rest
termination_by cs.length
decreasing_by
  · have := numericEscape?_length ‹_›
    simp only [List.length_cons] at *; omega
  · simp only [List.length_tail, List.length_cons]; omega
  all_goals simp only [List.length_cons]; omega

def Unit.codePoint : Unit → Except EscapeFault Nat
  | .code n => .ok n
  | .escape hex => Literal.codePoint (Text.ofHex hex)

def unescape (body : List Char) : Except EscapeFault (List Nat) :=
  (units body).mapM Unit.codePoint

/-- Splits a text at its last slash; without one, everything is after it. -/
def splitLastSlash (cs : List Char) : List Char × List Char :=
  let flags := (cs.reverse.takeWhile (· != '/')).reverse
  ((cs.take (cs.length - flags.length)).dropLast, flags)

def ofRaw (raw : List Char) : Except EscapeFault Literal :=
  match raw with
  | '/' :: rest =>
    let (body, flags) := splitLastSlash rest
    .ok (.pattern (String.ofList body) (String.ofList flags))
  | _ => (unescape (raw.drop 1).dropLast).map .text

def render : Literal → String
  | .text codes => String.ofList (Text.quotedCodes codes)
  | .pattern body flags => "_pattern_(" ++ quoted body ++ ", " ++ quoted flags ++ ")"

def renderRaw (raw : List Char) : Except EscapeFault String := (ofRaw raw).map render

end Literal

end NullSafe
