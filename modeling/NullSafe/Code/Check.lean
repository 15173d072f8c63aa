import NullSafe.Code.Fill

/-! # Code that can be built

Filled code is an expression of the generated language unless a pattern is left open or a decimal
numeral has digits that are not those of ASCII.
-/

namespace NullSafe

def Leaf.isBuildable : Leaf → Bool
  | .unfilled .pattern => false
  | _ => true

namespace Code

mutual

def isBuildable : Code Leaf → Bool
  | number text => text.toList.all (·.toNat < 0x80)
  | literal x => x.isBuildable
  | constant _ | this | globals | formatters | parameter _ | key _ | global _ | temporary _ => true
  | setParameter _ value => isBuildable value
  | array items => areBuildable items
  | object entries => entriesBuildable entries
  | operate _ arguments => areBuildable arguments
  | apply callee arguments => isBuildable callee && areBuildable arguments
  | not operand => isBuildable operand
  | logical _ left right | equal left right | differ left right => isBuildable left && isBuildable right
  | choose _ test yes no => isBuildable test && isBuildable yes && isBuildable no
  | unlessNull _ test body | whenCallable _ test body => isBuildable test && isBuildable body

def areBuildable : List (Code Leaf) → Bool
  | [] => true
  | c :: rest => isBuildable c && areBuildable rest

def entriesBuildable : List (Code Leaf × Code Leaf) → Bool
  | [] => true
  | (k, v) :: rest => isBuildable k && isBuildable v && entriesBuildable rest

end

end Code

end NullSafe
