import NullSafe.Surface.Tree

/-! # The operations that generated code calls

Generated code reads, writes, computes and compares only through these operations, by name.
-/

namespace NullSafe

inductive Operation where
  | get | set
  | add | subtract | multiply | divide | remainder | negate | plus
  | below | above | atMost | atLeast
  | callable | typeof | pattern
  deriving DecidableEq, Repr

namespace Operation

def name : Operation → String
  | get => "_get_"
  | set => "_set_"
  | add => "_add_"
  | subtract => "_sub_"
  | multiply => "_mul_"
  | divide => "_div_"
  | remainder => "_mod_"
  | negate => "_neg_"
  | plus => "_pos_"
  | below => "_lt_"
  | above => "_gt_"
  | atMost => "_le_"
  | atLeast => "_ge_"
  | callable => "_callable_"
  | typeof => "_typeof_"
  | pattern => "_pattern_"

def all : List Operation :=
  [get, set, add, subtract, multiply, divide, remainder, negate, plus,
    below, above, atMost, atLeast, callable, typeof, pattern]

def ofName? (s : String) : Option Operation := all.find? (·.name = s)

end Operation

end NullSafe
