import NullSafe.Number.Reading
import NullSafe.Pattern.Matcher

/-! # Replacement templates

The text that replaces a match may refer to the groups of the match.
-/

namespace NullSafe.Pattern

open Text

inductive Part where
  | char (c : Char)
  | group (n : Nat)
  deriving DecidableEq, Repr

inductive TemplateFault where
  | malformed
  | unknownName
  deriving DecidableEq, Repr

def Compiled.groupNamed (p : Compiled) (name : List Char) : Except TemplateFault Nat :=
  if isIdentifier name then
    match p.names.lookup (String.ofList name) with
    | some n => .ok n
    | none => .error .unknownName
  else
    match Number.readInt? name with
    | some i => if 0 ≤ i && i ≤ p.groups then .ok i.toNat else .error .malformed
    | none => .error .malformed

def Compiled.groupNumbered (p : Compiled) (ds : List Char) : Except TemplateFault Part :=
  let n := numberOf 10 ds
  if n ≤ p.groups then .ok (.group n) else .error .malformed

def Compiled.template (p : Compiled) (fuel : Nat) (cs : List Char) :
    Except TemplateFault (List Part) := do
  match fuel, cs with
  | 0, _ | _, [] => return []
  | fuel + 1, '\\' :: rest =>
    match rest with
    | [] => throw .malformed
    | 'g' :: '<' :: after =>
      let name := after.takeWhile (· != '>')
      match after.dropWhile (· != '>') with
      | [] => throw .malformed
      | _ :: after =>
        if after = ['\\'] then throw .malformed
        let n ← p.groupNamed name
        return .group n :: (← p.template fuel after)
    | 'g' :: _ => throw .malformed
    | '0' :: after =>
      let more := (after.take 2).takeWhile isOctal
      return .char (Char.ofNat (numberOf 8 more)) :: (← p.template fuel (after.drop more.length))
    | c :: after =>
      if isAsciiDigit c then
        match after with
        | d :: e :: after' =>
          if isOctal c && isOctal d && isOctal e then
            let n := numberOf 8 [c, d, e]
            if n > 0o377 then throw .malformed
            return .char (Char.ofNat n) :: (← p.template fuel after')
          else if isAsciiDigit d then
            return (← p.groupNumbered [c, d]) :: (← p.template fuel (e :: after'))
          else return (← p.groupNumbered [c]) :: (← p.template fuel after)
        | [d] =>
          if isAsciiDigit d then return [← p.groupNumbered [c, d]]
          else return (← p.groupNumbered [c]) :: (← p.template fuel after)
        | [] => return [← p.groupNumbered [c]]
      else if c = 'b' then return .char '\x08' :: (← p.template fuel after)
      else
        match letterEscape? c with
        | some d => return .char d :: (← p.template fuel after)
        | none =>
          if c.isAlpha then throw .malformed
          else return .char '\\' :: .char c :: (← p.template fuel after)
  | fuel + 1, c :: rest => return .char c :: (← p.template fuel rest)

def Match.groupText (m : Match) (text : List Char) (n : Nat) : List Char :=
  if n = 0 then slice text m.start m.stop
  else
    match (m.groups[n - 1]?).join with
    | some (a, b) => slice text a b
    | none => []

def expand (parts : List Part) (text : List Char) (m : Match) : List Char :=
  parts.flatMap fun
    | .char c => [c]
    | .group n => m.groupText text n

end NullSafe.Pattern
