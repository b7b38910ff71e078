import StackToolchain.Source.Tree
import StackToolchain.Text.Basic

/-! Syntax trees as indented text, a node to a line. -/
namespace StackToolchain.Source

def outlineRow (depth : Nat) (text : String) : String :=
  Text.repeated (4 * depth) ' ' ++ text

mutual

def Expr.outline (depth : Nat) : Expr → List String
  | .int n => [outlineRow depth (toString n.toNat)]
  | .var name _ => [outlineRow depth name]
  | .call name args _ => outlineRow depth ("call " ++ name) :: Expr.outlineAll (depth + 1) args
  | .paren inner => outlineRow depth "()" :: inner.outline (depth + 1)
  | .binary left op right =>
    outlineRow depth op.sign :: (left.outline (depth + 1) ++ right.outline (depth + 1))

def Expr.outlineAll (depth : Nat) : List Expr → List String
  | [] => []
  | e :: rest => e.outline depth ++ Expr.outlineAll depth rest

end

def outlineOption (depth : Nat) : Option Expr → List String
  | none => []
  | some e => e.outline depth

mutual

def Stmt.outline (depth : Nat) : Stmt → List String
  | .scope body => outlineRow depth "scope" :: Stmt.outlineAll (depth + 1) body
  | .var name init _ => outlineRow depth ("var " ++ name) :: outlineOption (depth + 1) init
  | .assign name value _ => outlineRow depth ("assign " ++ name) :: value.outline (depth + 1)
  | .write addr value =>
    outlineRow depth "write" :: (addr.outline (depth + 1) ++ value.outline (depth + 1))
  | .ret value => outlineRow depth "return" :: outlineOption (depth + 1) value
  | .cond test body => outlineRow depth "if" :: (test.outline (depth + 1) ++ body.outline (depth + 1))
  | .loop test body => outlineRow depth "while" :: (test.outline (depth + 1) ++ body.outline (depth + 1))
  | .expr value => outlineRow depth "expr" :: value.outline (depth + 1)

def Stmt.outlineAll (depth : Nat) : List Stmt → List String
  | [] => []
  | s :: rest => s.outline depth ++ Stmt.outlineAll depth rest

end

def Decl.outline : Decl → List String
  | .func name params body _ =>
    ("func " ++ name ++ "(" ++ ", ".intercalate params ++ ")") :: (Stmt.scope body).outline 1
  | .global name => ["global " ++ name]

def Tree.outline (tree : Tree) : String :=
  Text.unlines (tree.flatMap Decl.outline)

end StackToolchain.Source
