import NullSafe.Surface.Parser

/-! # One step of each parsing function

What the parsing functions do, without the proofs that their results carry along.
-/

namespace NullSafe.Surface.Parser

variable {α : Type} {ts : List Token} (stop : Nat)

def Parsed.result (x : Except Failure (Parsed α ts)) : Except Failure (α × List Token) :=
  x.map fun p => (p.value, p.rest)

def Continued.result (x : Except Failure (Continued α ts)) : Except Failure (α × List Token) :=
  x.map fun p => (p.value, p.rest)

section Binding

variable {β γ : Type} {g : β → γ} {l : α × List Token → Except Failure γ}

theorem Parsed.map_bind {x : Except Failure (Parsed α ts)} {k : Parsed α ts → Except Failure β}
    (h : ∀ p, (k p).map g = l (p.value, p.rest)) : (x >>= k).map g = Parsed.result x >>= l := by
  rcases x with f | p
  · rfl
  · exact h p

theorem Continued.map_bind {x : Except Failure (Continued α ts)} {k : Continued α ts → Except Failure β}
    (h : ∀ p, (k p).map g = l (p.value, p.rest)) : (x >>= k).map g = Continued.result x >>= l := by
  rcases x with f | p
  · rfl
  · exact h p

theorem Continued.map_eq {g : β → α × List Token} {x : Except Failure (Continued α ts)}
    {k : Continued α ts → Except Failure β} (h : ∀ p, (k p).map g = .ok (p.value, p.rest)) :
    (x >>= k).map g = Continued.result x := by
  rcases x with f | p
  · rfl
  · exact h p

end Binding

def passSymbol (s : Symbol) (ts : List Token) : Except Failure (Unit × List Token) :=
  Parsed.result (expect stop s ts)

theorem passSymbol_cons {s : Symbol} {t : Token} (ht : t.lexeme = .symbol s) (after : List Token) :
    passSymbol stop s (t :: after) = .ok ((), after) := by
  rw [passSymbol, expect, if_pos ht]
  rfl

theorem startsWith_cons {s : Symbol} {t : Token} (ht : t.lexeme = .symbol s) (after : List Token) :
    startsWith s (t :: after) = true :=
  decide_eq_true ht

def passName (ts : List Token) : Except Failure (String × List Token) :=
  Parsed.result (expectName stop ts)

theorem assign_result (ts : List Token) :
    Parsed.result (assign stop ts) = do
      let (node, rest) ← Parsed.result (conditional stop ts)
      match rest with
      | [] => return (node, [])
      | t :: after =>
        if t.lexeme = .symbol .assign then
          if node.isTarget then do
            let (value, rest) ← Parsed.result (assign stop after)
            return (.assign node value, rest)
          else refuse .invalidTarget t.position
        else return (node, t :: after) := by
  rw [assign]
  refine Parsed.map_bind fun ⟨node, rest, h⟩ => ?_
  cases rest with
  | nil => rfl
  | cons t after =>
    dsimp only
    split
    · split
      · exact Parsed.map_bind fun _ => rfl
      · rfl
    · rfl

theorem conditional_result (ts : List Token) :
    Parsed.result (conditional stop ts) = do
      let (node, rest) ← Parsed.result (operation stop 6 ts)
      match rest with
      | [] => return (node, [])
      | t :: after =>
        if t.lexeme = .symbol .question then do
          let (yes, rest) ← Parsed.result (assign stop after)
          let (_, rest) ← passSymbol stop .colon rest
          let (no, rest) ← Parsed.result (assign stop rest)
          return (.conditional node yes no, rest)
        else return (node, t :: after) := by
  rw [conditional]
  refine Parsed.map_bind fun ⟨node, rest, h⟩ => ?_
  cases rest with
  | nil => rfl
  | cons t after =>
    dsimp only
    split
    · exact Parsed.map_bind fun yes => Parsed.map_bind fun colon => Parsed.map_bind fun no => rfl
    · rfl

theorem operation_result_zero (ts : List Token) :
    Parsed.result (operation stop 0 ts) = Parsed.result (unary stop ts) := by
  rw [operation]

theorem operation_result_succ (level : Nat) (ts : List Token) :
    Parsed.result (operation stop (level + 1) ts) = (do
      let (left, rest) ← Parsed.result (operation stop level ts)
      Continued.result (joined stop level left rest)) := by
  rw [operation]
  exact Parsed.map_bind fun left => Continued.map_eq fun _ => rfl

theorem joined_result_nil (level : Nat) (left : Expr Placeholder) :
    Continued.result (joined stop level left []) = .ok (left, []) := by
  rw [joined]; rfl

theorem joined_result_cons (level : Nat) (left : Expr Placeholder) (t : Token) (after : List Token) :
    Continued.result (joined stop level left (t :: after)) =
      match joinOf (level + 1) t with
      | none => .ok (left, t :: after)
      | some join => (do
        let (right, rest) ← Parsed.result (operation stop level after)
        Continued.result (joined stop level (join left right) rest)) := by
  rw [joined]
  cases joinOf (level + 1) t with
  | none => rfl
  | some join => exact Parsed.map_bind fun right => Continued.map_eq fun _ => rfl

theorem unary_result_nil : Parsed.result (unary stop []) = refuse .unexpectedEnd stop := by
  rw [unary]; rfl

theorem unary_result_cons (t : Token) (after : List Token) :
    Parsed.result (unary stop (t :: after)) =
      match unaryOf t with
      | some op => do
        let (operand, rest) ← Parsed.result (unary stop after)
        return (.unary op operand, rest)
      | none => (do
        let (root, rest) ← Parsed.result (primary stop (t :: after))
        Continued.result (links stop root rest)) := by
  rw [unary]
  cases unaryOf t with
  | some op => exact Parsed.map_bind fun _ => rfl
  | none => exact Parsed.map_bind fun root => Continued.map_eq fun _ => rfl

theorem links_result_nil (node : Expr Placeholder) : Continued.result (links stop node []) = .ok (node, []) := by
  rw [links]; rfl

theorem links_result_cons (node : Expr Placeholder) (t : Token) (after : List Token) :
    Continued.result (links stop node (t :: after)) =
      match t.lexeme with
      | .symbol .dot => do
        let (name, rest) ← passName stop after
        Continued.result (links stop (.member node name) rest)
      | .symbol .openBracket => do
        let (key, rest) ← Parsed.result (assign stop after)
        let (_, rest) ← passSymbol stop .closeBracket rest
        Continued.result (links stop (.index node key) rest)
      | .symbol .openParen => do
        let (arguments, rest) ← Parsed.result (items stop .closeParen after)
        Continued.result (links stop (.call node arguments) rest)
      | _ => .ok (node, t :: after) := by
  rw [links]
  rcases t with ⟨l, pos⟩
  cases l
  case symbol s =>
    cases s
    case dot => exact Parsed.map_bind fun name => Continued.map_eq fun _ => rfl
    case openBracket => exact Parsed.map_bind fun key => Parsed.map_bind fun close => Continued.map_eq fun _ => rfl
    case openParen => exact Parsed.map_bind fun arguments => Continued.map_eq fun _ => rfl
    all_goals rfl
  all_goals rfl

theorem primary_result_cons (t : Token) (after : List Token) :
    Parsed.result (primary stop (t :: after)) =
      match t.lexeme with
      | .number cs => do
        let text ← numberText cs
        return (.number text, after)
      | .string q => .ok (.literal (.string q), after)
      | .pattern => .ok (.literal .pattern, after)
      | .name cs => .ok (nameTree cs, after)
      | .symbol .openParen => do
        let (node, rest) ← Parsed.result (assign stop after)
        let (_, rest) ← passSymbol stop .closeParen rest
        return (node, rest)
      | .symbol .openBracket => do
        let (elements, rest) ← Parsed.result (items stop .closeBracket after)
        return (.array elements, rest)
      | .symbol .openBrace => do
        let (entries, rest) ← Parsed.result (properties stop after)
        return (.object entries, rest)
      | .symbol s => refuse (.unexpected (String.ofList s.chars)) t.position := by
  rw [primary]
  rcases t with ⟨l, pos⟩
  cases l
  case number cs => dsimp only; rcases numberText cs with f | text <;> rfl
  case symbol s =>
    cases s
    case openParen => exact Parsed.map_bind fun node => Parsed.map_bind fun close => rfl
    case openBracket => exact Parsed.map_bind fun elements => rfl
    case openBrace => exact Parsed.map_bind fun entries => rfl
    all_goals rfl
  all_goals rfl

/-- What comes after an element of a list: the closing symbol, or a comma and the other elements. -/
def listRest (close : Symbol) (more : List Token → Except Failure (List α × List Token))
    (x : α × List Token) : Except Failure (List α × List Token) :=
  if startsWith close x.2 then do
    let (_, rest) ← passSymbol stop close x.2
    return ([x.1], rest)
  else do
    let (_, rest) ← passSymbol stop .comma x.2
    let (xs, rest) ← more rest
    return (x.1 :: xs, rest)

theorem items_result_nil (close : Symbol) : Parsed.result (items stop close []) = refuse .unexpectedEnd stop := by
  rw [items]; rfl

theorem items_result_cons (close : Symbol) (t : Token) (after : List Token) :
    Parsed.result (items stop close (t :: after)) =
      if t.lexeme = .symbol close then .ok ([], after)
      else Parsed.result (assign stop (t :: after)) >>=
        listRest stop close fun ts => Parsed.result (items stop close ts) := by
  rw [items]
  split
  · rfl
  · refine Parsed.map_bind fun item => ?_
    dsimp only [listRest]
    split
    · exact Parsed.map_bind fun close => rfl
    · exact Parsed.map_bind fun comma => Parsed.map_bind fun more => rfl

def entryValue (key : Key Placeholder) (shorthand : Option (Expr Placeholder)) (ts : List Token) :
    Except Failure ((Key Placeholder × Expr Placeholder) × List Token) := do
  let (value, rest) ← Continued.result (property stop shorthand ts)
  return ((key, value), rest)

def entry : List Token → Except Failure ((Key Placeholder × Expr Placeholder) × List Token)
  | [] => refuse (.invalidKey "EOF") stop
  | t :: after => do
    let (key, shorthand) ← keyOf t
    entryValue stop key shorthand after

theorem properties_result_nil : Parsed.result (properties stop []) = refuse (.invalidKey "EOF") stop := by
  rw [properties]; rfl

theorem properties_result_cons (t : Token) (after : List Token) :
    Parsed.result (properties stop (t :: after)) =
      if t.lexeme = .symbol .closeBrace then .ok ([], after)
      else entry stop (t :: after) >>= listRest stop .closeBrace fun ts => Parsed.result (properties stop ts) := by
  rw [properties]
  split
  · rfl
  · rw [entry]
    rcases keyOf t with f | ⟨key, shorthand⟩
    · rfl
    · change _ = (Continued.result (property stop shorthand after) >>= _) >>= _
      rw [bind_assoc]
      refine Continued.map_bind fun value => ?_
      simp only [pure_bind, listRest]
      split
      · exact Parsed.map_bind fun close => rfl
      · exact Parsed.map_bind fun comma => Parsed.map_bind fun more => rfl

theorem property_result (shorthand : Option (Expr Placeholder)) (ts : List Token) :
    Continued.result (property stop shorthand ts) =
      if startsWith .colon ts then do
        let (_, rest) ← passSymbol stop .colon ts
        let (value, rest) ← Parsed.result (assign stop rest)
        return (value, rest)
      else
        match shorthand with
        | some value => .ok (value, ts)
        | none => refuse .missingColon (next stop ts).2 := by
  rw [property.eq_def]
  split
  · exact Parsed.map_bind fun colon => Parsed.map_bind fun value => rfl
  · cases shorthand <;> rfl

theorem assign_result_error {f : Failure} (h : Parsed.result (unary stop ts) = .error f) :
    Parsed.result (assign stop ts) = .error f := by
  rw [assign_result, conditional_result]
  iterate 6 rw [operation_result_succ]
  rw [operation_result_zero, h]
  rfl

end NullSafe.Surface.Parser
