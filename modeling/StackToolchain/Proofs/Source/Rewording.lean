import Mathlib
import StackToolchain.Source.Tree

/-! Sources that differ in their names and offsets only.
Two syntax trees are of one shape if one becomes the other when names are replaced and offsets are moved. What is
computed from such trees is compared outcome by outcome: both succeed, or both fail. -/
namespace StackToolchain

inductive Alike {ε ε' α β : Type} (E : ε → ε' → Prop) (V : α → β → Prop) : Except ε α → Except ε' β → Prop
  | ok {a b} : V a b → Alike E V (.ok a) (.ok b)
  | error {e e'} : E e e' → Alike E V (.error e) (.error e')

namespace Alike

variable {ε ε' α β γ δ : Type} {E : ε → ε' → Prop} {V : α → β → Prop} {W : γ → δ → Prop}
  {x : Except ε α} {y : Except ε' β}

theorem bind {f : α → Except ε γ} {g : β → Except ε' δ} (h : Alike E V x y)
    (hf : ∀ a b, V a b → Alike E W (f a) (g b)) : Alike E W (x >>= f) (y >>= g) := by
  cases h with
  | ok hv => exact hf _ _ hv
  | error he => exact .error he

/-- A last step that always succeeds. -/
theorem map {f : α → γ} {g : β → δ} (h : Alike E V x y) (hf : ∀ a b, V a b → W (f a) (g b)) :
    Alike E W (x >>= fun a => pure (f a)) (y >>= fun b => pure (g b)) :=
  h.bind fun a b hv => .ok (hf a b hv)

theorem mapError {F : γ → δ → Prop} {f : ε → γ} {g : ε' → δ} (h : Alike E V x y)
    (hf : ∀ e e', E e e' → F (f e) (g e')) : Alike F V (x.mapError f) (y.mapError g) := by
  cases h with
  | ok hv => exact .ok hv
  | error he => exact .error (hf _ _ he)

end Alike

namespace Source

/-- How two sources may differ: a name stands in the place of every name, and the offsets at which a name stands in
the two are related. -/
structure Rewording where
  name : String → String
  offset : String → Nat → Nat → Prop

variable {w : Rewording}

inductive Expr.Reworded (w : Rewording) : Expr → Expr → Prop
  | int {n} : Expr.Reworded w (.int n) (.int n)
  | var {name o o'} : w.offset name o o' → Expr.Reworded w (.var name o) (.var (w.name name) o')
  | call {name args args' o o'} : w.offset name o o' → List.Forall₂ (Expr.Reworded w) args args' →
      Expr.Reworded w (.call name args o) (.call (w.name name) args' o')
  | paren {inner inner'} : Expr.Reworded w inner inner' → Expr.Reworded w (.paren inner) (.paren inner')
  | binary {left left' op right right'} : Expr.Reworded w left left' → Expr.Reworded w right right' →
      Expr.Reworded w (.binary left op right) (.binary left' op right')

inductive Stmt.Reworded (w : Rewording) : Stmt → Stmt → Prop
  | scope {body body'} : List.Forall₂ (Stmt.Reworded w) body body' → Stmt.Reworded w (.scope body) (.scope body')
  | var {name init init' o o'} : w.offset name o o' → Option.Rel (Expr.Reworded w) init init' →
      Stmt.Reworded w (.var name init o) (.var (w.name name) init' o')
  | assign {name value value' o o'} : w.offset name o o' → Expr.Reworded w value value' →
      Stmt.Reworded w (.assign name value o) (.assign (w.name name) value' o')
  | write {addr addr' value value'} : Expr.Reworded w addr addr' → Expr.Reworded w value value' →
      Stmt.Reworded w (.write addr value) (.write addr' value')
  | ret {value value'} : Option.Rel (Expr.Reworded w) value value' → Stmt.Reworded w (.ret value) (.ret value')
  | cond {test test' body body'} : Expr.Reworded w test test' → Stmt.Reworded w body body' →
      Stmt.Reworded w (.cond test body) (.cond test' body')
  | loop {test test' body body'} : Expr.Reworded w test test' → Stmt.Reworded w body body' →
      Stmt.Reworded w (.loop test body) (.loop test' body')
  | expr {value value'} : Expr.Reworded w value value' → Stmt.Reworded w (.expr value) (.expr value')

inductive Decl.Reworded (w : Rewording) : Decl → Decl → Prop
  | func {name params body body' o o'} : w.offset name o o' → List.Forall₂ (Stmt.Reworded w) body body' →
      Decl.Reworded w (.func name params body o) (.func (w.name name) (params.map w.name) body' o')
  | global {name} : Decl.Reworded w (.global name) (.global (w.name name))

def Tree.Reworded (w : Rewording) : Tree → Tree → Prop :=
  List.Forall₂ (Decl.Reworded w)

mutual

def Expr.rename (m : String → String) : Expr → Expr
  | .int n => .int n
  | .var name o => .var (m name) o
  | .call name args o => .call (m name) (Expr.renameAll m args) o
  | .paren inner => .paren (inner.rename m)
  | .binary left op right => .binary (left.rename m) op (right.rename m)

def Expr.renameAll (m : String → String) : List Expr → List Expr
  | [] => []
  | e :: rest => e.rename m :: Expr.renameAll m rest

end

mutual

def Stmt.rename (m : String → String) : Stmt → Stmt
  | .scope body => .scope (Stmt.renameAll m body)
  | .var name init o => .var (m name) (init.map (Expr.rename m)) o
  | .assign name value o => .assign (m name) (value.rename m) o
  | .write addr value => .write (addr.rename m) (value.rename m)
  | .ret value => .ret (value.map (Expr.rename m))
  | .cond test body => .cond (test.rename m) (body.rename m)
  | .loop test body => .loop (test.rename m) (body.rename m)
  | .expr value => .expr (value.rename m)

def Stmt.renameAll (m : String → String) : List Stmt → List Stmt
  | [] => []
  | s :: rest => s.rename m :: Stmt.renameAll m rest

end

def Decl.rename (m : String → String) : Decl → Decl
  | .func name params body o => .func (m name) (params.map m) (Stmt.renameAll m body) o
  | .global name => .global (m name)

def Tree.rename (m : String → String) (tree : Tree) : Tree :=
  tree.map (Decl.rename m)

def Rewording.renaming (m : String → String) : Rewording where
  name := m
  offset _ o o' := o' = o

section
variable (m : String → String)

mutual

private theorem Expr.reworded_rename : (e : Expr) → e.Reworded (.renaming m) (e.rename m)
  | .int _ => .int
  | .var _ _ => .var rfl
  | .call _ args _ => .call rfl (Expr.reworded_renameAll args)
  | .paren inner => .paren inner.reworded_rename
  | .binary left _ right => .binary left.reworded_rename right.reworded_rename

private theorem Expr.reworded_renameAll : (es : List Expr) →
    List.Forall₂ (Expr.Reworded (.renaming m)) es (Expr.renameAll m es)
  | [] => .nil
  | e :: rest => .cons e.reworded_rename (Expr.reworded_renameAll rest)

end

private theorem reworded_option_rename (e : Option Expr) :
    Option.Rel (Expr.Reworded (.renaming m)) e (e.map (Expr.rename m)) := by
  cases e with
  | none => exact .none
  | some e => exact .some (e.reworded_rename m)

mutual

private theorem Stmt.reworded_rename : (s : Stmt) → s.Reworded (.renaming m) (s.rename m)
  | .scope body => .scope (Stmt.reworded_renameAll body)
  | .var _ init _ => .var rfl (reworded_option_rename m init)
  | .assign _ value _ => .assign rfl (value.reworded_rename m)
  | .write addr value => .write (addr.reworded_rename m) (value.reworded_rename m)
  | .ret value => .ret (reworded_option_rename m value)
  | .cond test body => .cond (test.reworded_rename m) body.reworded_rename
  | .loop test body => .loop (test.reworded_rename m) body.reworded_rename
  | .expr value => .expr (value.reworded_rename m)

private theorem Stmt.reworded_renameAll : (body : List Stmt) →
    List.Forall₂ (Stmt.Reworded (.renaming m)) body (Stmt.renameAll m body)
  | [] => .nil
  | s :: rest => .cons s.reworded_rename (Stmt.reworded_renameAll rest)

end

theorem Tree.reworded_rename (tree : Tree) : Tree.Reworded (.renaming m) tree (Tree.rename m tree) := by
  induction tree with
  | nil => exact .nil
  | cons decl rest ih =>
    refine .cons ?_ ih
    cases decl with
    | func name params body o => exact .func rfl (Stmt.reworded_renameAll m body)
    | global name => exact .global

end

end Source

end StackToolchain
