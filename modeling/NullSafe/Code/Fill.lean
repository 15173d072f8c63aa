import NullSafe.Code.Printer
import NullSafe.Literal.Basic

/-! # Putting literals into generated code

The leaves of generated code take the queued literals from left to right, as its text does. A string leaf
that finds the queue empty is an empty text; a pattern leaf that does is no code at all.
-/

namespace NullSafe

/-- A leaf after the literals are put in. -/
inductive Leaf where
  | literal (l : Literal)
  | unfilled (p : Placeholder)
  deriving DecidableEq, Repr

def Leaf.chars : Leaf → List Char
  | literal l => l.render.toList
  | unfilled p => p.chars

/-- Filling takes literals from a queue and may meet one that denotes nothing. -/
abbrev Filling := StateT (List (List Char)) (Except Literal.EscapeFault)

def Placeholder.fill (p : Placeholder) : Filling Leaf := do
  match ← get with
  | [] => return .unfilled p
  | raw :: queue =>
    set queue
    return .literal (← Literal.ofRaw raw)

namespace Code

mutual

def fill : Code Placeholder → Filling (Code Leaf)
  | number text => return number text
  | literal p => do return literal (← p.fill)
  | constant c => return constant c
  | this => return this
  | globals => return globals
  | formatters => return formatters
  | parameter name => return parameter name
  | key text => return key text
  | global name => return global name
  | temporary n => return temporary n
  | setParameter name value => do return setParameter name (← fill value)
  | array items => do return array (← fillAll items)
  | object entries => do return object (← fillEntries entries)
  | operate op arguments => do return operate op (← fillAll arguments)
  | apply callee arguments => do
    let callee ← fill callee
    return apply callee (← fillAll arguments)
  | not operand => do return not (← fill operand)
  | logical op left right => do
    let left ← fill left
    return logical op left (← fill right)
  | equal left right => do
    let left ← fill left
    return equal left (← fill right)
  | differ left right => do
    let left ← fill left
    return differ left (← fill right)
  | choose n test yes no => do
    let test ← fill test
    let yes ← fill yes
    return choose n test yes (← fill no)
  | unlessNull n test body => do
    let test ← fill test
    return unlessNull n test (← fill body)
  | whenCallable n test body => do
    let test ← fill test
    return whenCallable n test (← fill body)

def fillAll : List (Code Placeholder) → Filling (List (Code Leaf))
  | [] => return []
  | c :: rest => do
    let c ← fill c
    return c :: (← fillAll rest)

def fillEntries : List (Code Placeholder × Code Placeholder) → Filling (List (Code Leaf × Code Leaf))
  | [] => return []
  | (k, v) :: rest => do
    let k ← fill k
    let v ← fill v
    return (k, v) :: (← fillEntries rest)

end

end Code

def Body.fill (body : Body Placeholder) (queue : List (List Char)) :
    Except Literal.EscapeFault (Body Leaf) := do
  let (code, _) ← body.code.fill.run queue
  return ⟨body.temporaries, code⟩

end NullSafe
