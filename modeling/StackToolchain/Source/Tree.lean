import StackToolchain.Alu

/-! Syntax trees. Names and declarations carry the byte offset at which they stand in the source. -/
namespace StackToolchain.Source

inductive Expr where
  | int (n : UInt16)
  | var (name : String) (offset : Nat)
  | call (name : String) (args : List Expr) (offset : Nat)
  | paren (inner : Expr)
  | binary (left : Expr) (op : AluOp) (right : Expr)
  deriving Repr

inductive Stmt where
  | scope (body : List Stmt)
  | var (name : String) (init : Option Expr) (offset : Nat)
  | assign (name : String) (value : Expr) (offset : Nat)
  | write (addr value : Expr)
  | ret (value : Option Expr)
  | cond (test : Expr) (body : Stmt)
  | loop (test : Expr) (body : Stmt)
  | expr (value : Expr)
  deriving Repr

inductive Decl where
  | func (name : String) (params : List String) (body : List Stmt) (offset : Nat)
  | global (name : String)
  deriving Repr

abbrev Tree := List Decl

end StackToolchain.Source
