/-! # Sets of characters given by ranges

A character class is a short list of closed ranges of code points.
-/

namespace NullSafe

abbrev Ranges := List (Nat × Nat)

namespace Ranges

def mem (rs : Ranges) (n : Nat) : Bool :=
  rs.any fun r => r.1 ≤ n && n ≤ r.2

/-- The ranges of a set behind a code point, written as the sizes of a gap, of a range, of the next gap and so on. -/
def ofSizes : Nat → List Nat → Ranges
  | start, gap :: size :: sizes =>
    (start + gap, start + gap + size - 1) :: ofSizes (start + gap + size) sizes
  | _, _ => []

end Ranges

/-- What is stated of all characters of a list is decided by going through the list. -/
instance (priority := 1100) decidableForallMem (p : Char → Prop) [DecidablePred p] (cs : List Char) :
    Decidable (∀ c ∈ cs, p c) :=
  List.decidableBAll p cs

end NullSafe
