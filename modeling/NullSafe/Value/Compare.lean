import NullSafe.Value.Basic

/-! # Truth, equality and order of values

Numbers compare by value whatever their type, texts by code points, lists and tuples item by item.
Containers compare their contents, where an item always equals itself.
-/

namespace NullSafe

/-- The number that a value is; the truth values are one and zero. -/
def Value.number? : Value → Option Number
  | .bool b => some (.int (if b then 1 else 0))
  | .int i => some (.int i)
  | .float x => some (.float x)
  | .nan _ => some .nan
  | _ => none

namespace World

def isTrue (w : World) : Value → Bool
  | .null => false
  | .bool b => b
  | .int i => i != 0
  | .float x => !(x == 0)
  | .str s => !s.isEmpty
  | .bytes bs => !bs.isEmpty
  | .list r => !(w.list r).isEmpty
  | .tuple r => !(w.tuple r).isEmpty
  | .dict r => !(w.dict r).isEmpty
  | _ => true

def allEqual (eq : Value → Value → Option Bool) : List Value → List Value → Option Bool
  | [], [] => some true
  | a :: as, b :: bs => do
    if a = b || (← eq a b) then allEqual eq as bs else return false
  | _, _ => some false

def lookupBy (eq : Value → Value → Option Bool) (key : Value) : List (Value × Value) → Option (Option Value)
  | [] => some none
  | (k, v) :: rest => do
    if k = key || (← eq k key) then return some v else lookupBy eq key rest

def allFound (eq : Value → Value → Option Bool) (other : List (Value × Value)) : List (Value × Value) → Option Bool
  | [] => some true
  | (k, v) :: rest => do
    match ← lookupBy eq k other with
    | none => return false
    | some v' => if v = v' || (← eq v v') then allFound eq other rest else return false

def entriesEqual (eq : Value → Value → Option Bool) (a b : List (Value × Value)) : Option Bool :=
  if a.length = b.length then allFound eq b a else some false

def comparesAttributes (k : ObjectKind) : Bool := k = .plain || k = .math

def attributeEntries (o : Object) : List (Value × Value) := o.attributes.map fun (n, v) => (.str n, v)

/-- Whether two values are equal, if that can be told within the given number of levels. -/
def equalWithin (w : World) : Nat → Value → Value → Option Bool
  | 0, _, _ => none
  | fuel + 1, a, b =>
    match a.number?, b.number? with
    | some m, some n => some (m.equal n)
    | _, _ =>
      match a, b with
      | .list r, .list s =>
        if r = s then some true
        else if (w.list r).length ≠ (w.list s).length then some false
        else allEqual (w.equalWithin fuel) (w.list r) (w.list s)
      | .tuple r, .tuple s =>
        if r = s then some true else allEqual (w.equalWithin fuel) (w.tuple r) (w.tuple s)
      | .dict r, .dict s =>
        if r = s then some true else entriesEqual (w.equalWithin fuel) (w.dict r) (w.dict s)
      | .object r, .object s =>
        if r = s then some true
        else if comparesAttributes (w.object r).kind && comparesAttributes (w.object s).kind then
          entriesEqual (w.equalWithin fuel) (attributeEntries (w.object r)) (attributeEntries (w.object s))
        else some false
      | a, b => some (a = b)

/-- The number of levels after which a comparison goes round in circles. -/
def depth (w : World) : Nat := (w.size + 1) * (w.size + 1) + 1

def equal (w : World) (a b : Value) : Except Raised Bool :=
  match w.equalWithin w.depth a b with
  | some r => .ok r
  | none => .error .tooDeep

def equalEntries (w : World) (a b : List (Value × Value)) : Except Raised Bool :=
  match entriesEqual (w.equalWithin w.depth) a b with
  | some r => .ok r
  | none => .error .tooDeep

def sameItem (w : World) (a b : Value) : Except Raised Bool :=
  if a = b then .ok true else w.equal a b

inductive Relation where
  | below | above | atMost | atLeast
  deriving DecidableEq, Repr

def Relation.holds : Relation → Ordering → Bool
  | below, o => o = .lt
  | above, o => o = .gt
  | atMost, o => o ≠ .gt
  | atLeast, o => o ≠ .lt

def compareCodes : List Nat → List Nat → Ordering
  | [], [] => .eq
  | [], _ :: _ => .lt
  | _ :: _, [] => .gt
  | a :: as, b :: bs => if a < b then .lt else if b < a then .gt else compareCodes as bs

/-- The first two items at one position that differ, or how the lengths compare. -/
def firstDifference (w : World) : List Value → List Value → Except Raised (Sum Ordering (Value × Value))
  | [], [] => .ok (.inl .eq)
  | [], _ :: _ => .ok (.inl .lt)
  | _ :: _, [] => .ok (.inl .gt)
  | a :: as, b :: bs => do
    if ← w.sameItem a b then w.firstDifference as bs else return .inr (a, b)

/-- Whether a relation holds between the first items that differ, or between the lengths. -/
def relateItems (w : World) (rel : Relation) (related : Value → Value → Except Raised Bool) (as bs : List Value) :
    Except Raised Bool := do
  match ← w.firstDifference as bs with
  | .inl o => return rel.holds o
  | .inr (a, b) => related a b

/-- Whether a relation holds between two values; values that have no order are refused. Values nested at any depth are
compared: the limit that recursion has is left out. -/
def relateWithin (w : World) (rel : Relation) : Nat → Value → Value → Except Raised Bool
  | 0, _, _ => .error .tooDeep
  | fuel + 1, a, b =>
    match a.number?, b.number? with
    | some m, some n => .ok ((m.compare? n).any rel.holds)
    | _, _ =>
      match a, b with
      | .str s, .str t =>
        .ok (rel.holds (compareCodes (s.toList.map Char.toNat) (t.toList.map Char.toNat)))
      | .bytes s, .bytes t => .ok (rel.holds (compareCodes (s.map UInt8.toNat) (t.map UInt8.toNat)))
      | .list r, .list s => w.relateItems rel (w.relateWithin rel fuel) (w.list r) (w.list s)
      | .tuple r, .tuple s => w.relateItems rel (w.relateWithin rel fuel) (w.tuple r) (w.tuple s)
      | _, _ => .error .mistyped

def relate (w : World) (rel : Relation) (a b : Value) : Except Raised Bool :=
  w.relateWithin rel w.depth a b

/-- Whether a value can be a key, if that can be told within the given number of levels. -/
def hashableWithin (w : World) : Nat → Value → Bool
  | 0, _ => false
  | fuel + 1, v =>
    match v with
    | .list _ | .dict _ => false
    | .object r => !comparesAttributes (w.object r).kind
    | .tuple r => (w.tuple r).all (w.hashableWithin fuel)
    | _ => true

def hashable (w : World) (v : Value) : Bool := w.hashableWithin (w.tuples.size + 2) v

/-- Whether values of this type can be keys; a tuple may still hold one that cannot. -/
def hashableType (w : World) : Value → Bool
  | .list _ | .dict _ => false
  | .object r => !comparesAttributes (w.object r).kind
  | _ => true

def lookup (w : World) (entries : List (Value × Value)) (key : Value) : Except Raised (Option Value) :=
  if !w.hashable key then .error .mistyped
  else
    match lookupBy (w.equalWithin w.depth) key entries with
    | some r => .ok r
    | none => .error .tooDeep

/-- Entries with another value for a key, which keeps its place and spelling; a new key goes last. -/
def insertBy (eq : Value → Value → Option Bool) (key v : Value) : List (Value × Value) → Option (List (Value × Value))
  | [] => some [(key, v)]
  | (k, old) :: rest => do
    if k = key || (← eq k key) then return (k, v) :: rest
    else return (k, old) :: (← insertBy eq key v rest)

def insert (w : World) (entries : List (Value × Value)) (key v : Value) : Except Raised (List (Value × Value)) :=
  if !w.hashable key then .error .mistyped
  else
    match insertBy (w.equalWithin w.depth) key v entries with
    | some r => .ok r
    | none => .error .tooDeep

end World

namespace Run

def ofExcept {α : Type} (f : World → Except Raised α) : Run α := do
  match f (← get) with
  | .ok a => return a
  | .error e => throw e

end Run

end NullSafe
