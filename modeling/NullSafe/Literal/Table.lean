import NullSafe.Literal.Piece

/-! # Setting literals aside

Before an expression is analysed its literals are replaced by placeholders, an empty literal with the
same delimiter, and queued. Restoring a text replaces its placeholders by the queued literals, first
by first, whatever their delimiters are.
-/

namespace NullSafe.Literal

def Piece.isolated : Piece → List Char
  | .char c => [c]
  | .literal raw => (raw.take 1).flatMap fun c => [c, c]

def Piece.literal? : Piece → Option (List Char)
  | .char _ => none
  | .literal raw => some raw

/-- An expression text with its literals replaced by placeholders. -/
def isolate (cs : List Char) : List Char := (pieces cs).flatMap Piece.isolated

def literals (cs : List Char) : List (List Char) := (pieces cs).filterMap Piece.literal?

def isDelimiter (c : Char) : Bool := c == '\x27' || c == '"' || c == '/'

/-- Replaces the placeholders of a text by queued literals, as long as there are any. -/
def fill {ε : Type} (render : List Char → Except ε (List Char)) : List (List Char) → List Char → Except ε (List Char)
  | [], text => .ok text
  | raw :: queue, c :: d :: rest =>
    if c = d && isDelimiter c then do
      let shown ← render raw
      let after ← fill render queue rest
      return shown ++ after
    else do
      let after ← fill render (raw :: queue) (d :: rest)
      return c :: after
  | _ :: _, text => .ok text

def restoreRaw (queue : List (List Char)) (text : List Char) : List Char :=
  match fill (ε := Empty) .ok queue text with
  | .ok text => text

structure Table where
  pending : Option (List (List Char)) := none
  deriving DecidableEq, Repr

namespace Table

inductive StateFault where
  | alreadyIsolated
  | notIsolated
  deriving DecidableEq, Repr

def StateFault.message : StateFault → String
  | alreadyIsolated => "restore() must be called before isolating another expression"
  | notIsolated => "isolate() must be called before restoring literals"

def size (t : Table) : Nat := (t.pending.getD []).length

def isolate (t : Table) (cs : List Char) : Except StateFault (List Char × Table) :=
  match t.pending with
  | some _ => .error .alreadyIsolated
  | none => .ok (Literal.isolate cs, { pending := some (literals cs) })

/-- Restores a text. The table is empty afterwards, also when a literal could not be rendered. Renderers that use the
table themselves are left out. -/
def restore {ε : Type} (t : Table) (render : List Char → Except ε (List Char)) (cs : List Char) :
    Except StateFault (Except ε (List Char) × Table) :=
  match t.pending with
  | none => .error .notIsolated
  | some queue => .ok (fill render queue cs, {})

end Table

end NullSafe.Literal
