import NullSafe.Operation
import NullSafe.Text.Quoted

/-! # Generated code

The code generated for an expression is one expression over the parameters of the generated function and
its temporaries, with guards that turn a missing value into the missing value. Its leaves for literals are
left open: placeholders while literals are set aside, then the literals themselves.
-/

namespace NullSafe

open Surface

/-- Generated code with literals of type `ι`. -/
inductive Code (ι : Type) where
  | number (text : String)
  | literal (x : ι)
  | constant (c : Constant)
  | this
  | globals
  | formatters
  | parameter (name : String)
  | key (text : String)
  | global (name : String)
  | temporary (n : Nat)
  | setParameter (name : String) (value : Code ι)
  | array (items : List (Code ι))
  | object (entries : List (Code ι × Code ι))
  | operate (op : Operation) (arguments : List (Code ι))
  | apply (callee : Code ι) (arguments : List (Code ι))
  | not (operand : Code ι)
  | logical (op : LogicalOp) (left right : Code ι)
  | equal (left right : Code ι)
  | differ (left right : Code ι)
  /-- Keeps the test in a temporary, then evaluates one of two branches. -/
  | choose (n : Nat) (test yes no : Code ι)
  /-- Missing when the tested value is missing, else the body. The value may be kept in a temporary. -/
  | unlessNull (n : Option Nat) (test body : Code ι)
  /-- Missing when the tested value cannot be called, else the body. -/
  | whenCallable (n : Option Nat) (test body : Code ι)
  deriving Repr, Inhabited, BEq

/-- Generated code and the number of its temporaries, which are numbered from one. -/
structure Body (ι : Type) where
  temporaries : Nat
  code : Code ι
  deriving Repr, BEq

end NullSafe
