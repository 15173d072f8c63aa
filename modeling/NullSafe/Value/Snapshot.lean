/-! # Snapshots

A snapshot is the finite picture of a value at one moment: containers are shown with their contents, and
a container inside itself is shown by how many levels up it is.
-/

namespace NullSafe

inductive Snapshot where
  | null
  | bool (b : Bool)
  | int (i : Int)
  | float (text : String)
  | str (s : String)
  | bytes (bs : List UInt8)
  | list (items : List Snapshot)
  | tuple (items : List Snapshot)
  | dict (entries : List (Snapshot × Snapshot))
  | object (attributes : List (String × Snapshot))
  | instanceOf (cls : String) (attributes : List (String × Snapshot))
  | bound (callee : Snapshot)
  | host (name : String)
  | native (name : String)
  | library (name : String)
  | method (name : String)
  | pattern (body flags : String)
  | found (text : String) (start stop : Nat) (groups : List (Option String))
  | cycle (levels : Nat)
  deriving Repr, Inhabited, BEq

end NullSafe
