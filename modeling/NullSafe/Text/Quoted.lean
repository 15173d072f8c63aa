import NullSafe.Text.Printable

/-! # Quoted text

The quoted form shows a text between quotes on one line: the enclosing quote, the backslash and
unprintable characters are escaped. Texts are given by code points here, because a literal may denote
a code point that no character has.
-/

namespace NullSafe.Text

def codes (cs : List Char) : List Nat := cs.map Char.toNat

/-- The quote around a text: double where the text has single quotes and no double ones. -/
def quoteFor (ns : List Nat) : Char :=
  if ns.contains 0x27 && !ns.contains 0x22 then '"' else '\x27'

def hexDigits (width n : Nat) : List Char :=
  let ds := Nat.toDigits 16 n
  List.replicate (width - ds.length) '0' ++ ds

def escapeCode (quote : Char) (n : Nat) : List Char :=
  if n == quote.toNat || n == 0x5C then ['\\', Char.ofNat n]
  else if n == 0x09 then ['\\', 't']
  else if n == 0x0A then ['\\', 'n']
  else if n == 0x0D then ['\\', 'r']
  else if isPrintable n then [Char.ofNat n]
  else if n < 0x100 then '\\' :: 'x' :: hexDigits 2 n
  else if n < 0x10000 then '\\' :: 'u' :: hexDigits 4 n
  else '\\' :: 'U' :: hexDigits 8 n

def quotedCodes (ns : List Nat) : List Char :=
  let quote := quoteFor ns
  quote :: (ns.flatMap (escapeCode quote) ++ [quote])

end NullSafe.Text

namespace NullSafe

def quoted (s : String) : String := String.ofList (Text.quotedCodes (Text.codes s.toList))

end NullSafe
