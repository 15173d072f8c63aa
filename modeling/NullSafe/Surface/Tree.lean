import NullSafe.Surface.Token

/-! # Expression trees

The tree of an expression text. What stands for a literal is left open: a placeholder while literals are
set aside, then the literal itself.
-/

namespace NullSafe

/-- A literal that is set aside. -/
inductive Placeholder where
  | string (quote : Surface.Quote)
  | pattern
  deriving DecidableEq, Repr

def Placeholder.chars : Placeholder → List Char
  | string q => q.chars
  | pattern => ['/', '/']

end NullSafe

namespace NullSafe.Surface

/-- The constants of the expression language; `null` and `undefined` are one. -/
inductive Constant where
  | yes
  | no
  | null
  deriving DecidableEq, Repr

inductive UnaryOp where
  | not
  | negate
  | plus
  | typeof
  deriving DecidableEq, Repr

inductive BinaryOp where
  | equal | differ | strictEqual | strictDiffer
  | below | above | atMost | atLeast
  | add | subtract | multiply | divide | remainder
  deriving DecidableEq, Repr

/-- The operators that may skip their right operand. -/
inductive LogicalOp where
  | both
  | either
  deriving DecidableEq, Repr

inductive Key (ι : Type) where
  | name (text : String)
  | literal (x : ι)
  | number (text : String)
  deriving DecidableEq, Repr, BEq

inductive Expr (ι : Type) where
  | number (text : String)
  | literal (x : ι)
  | constant (c : Constant)
  | this
  | name (text : String)
  | array (items : List (Expr ι))
  | object (entries : List (Key ι × Expr ι))
  | member (target : Expr ι) (name : String)
  | index (target key : Expr ι)
  | call (callee : Expr ι) (arguments : List (Expr ι))
  | unary (op : UnaryOp) (operand : Expr ι)
  | binary (op : BinaryOp) (left right : Expr ι)
  | logical (op : LogicalOp) (left right : Expr ι)
  | conditional (test yes no : Expr ι)
  | assign (target value : Expr ι)
  deriving Repr, Inhabited, BEq

def Expr.isTarget {ι : Type} : Expr ι → Bool
  | name _ | member _ _ | index _ _ => true
  | _ => false

def UnaryOp.text : UnaryOp → String
  | not => "!"
  | negate => "-"
  | plus => "+"
  | typeof => "typeof"

def BinaryOp.symbol : BinaryOp → Symbol
  | equal => .equal
  | differ => .differ
  | strictEqual => .strictEqual
  | strictDiffer => .strictDiffer
  | below => .below
  | above => .above
  | atMost => .atMost
  | atLeast => .atLeast
  | add => .plus
  | subtract => .minus
  | multiply => .times
  | divide => .slash
  | remainder => .percent

def LogicalOp.symbol : LogicalOp → Symbol
  | both => .both
  | either => .either

end NullSafe.Surface
