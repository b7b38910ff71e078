import Mathlib.Logic.Function.Basic
import StackToolchain.Machine.Memory
import StackToolchain.Source.Tree

/-! The meaning of a source.
Names stand for what the text says at their place. Expressions and statements are evaluated on words, with fuel
that bounds the depth of the evaluation. Where the language gives no meaning, there is no result: for a division
by zero, and for a local variable that was never given a value. -/
namespace StackToolchain.Source

inductive LocalVar where
  | param (i : Nat)
  | var (k : Nat)
  deriving DecidableEq, Repr

inductive Referent where
  | function (index : Nat)
  | own (v : LocalVar)
  | global (name : String)
  deriving DecidableEq, Repr

structure Names where
  find : String → Option Referent
  vars : Nat

def rebind (find : String → Option Referent) (name : String) (r : Referent) : String → Option Referent :=
  fun other => if other = name then some r else find other

/-- What a name stands for after a number of declarations: the last of them that declares it. -/
def declared (tree : Tree) : Nat → String → Option Referent
  | 0 => fun _ => none
  | n + 1 =>
    match tree[n]? with
    | some (.func name _ _ _) => rebind (declared tree n) name (.function n)
    | some (.global name) => rebind (declared tree n) name (.global name)
    | none => declared tree n

def bindFrom (i : Nat) : List String → (String → Option Referent) → String → Option Referent
  | [], find => find
  | name :: rest, find => bindFrom (i + 1) rest (rebind find name (.own (.param i)))

/-- What names stand for where the body of a function begins. A function may call itself and what was declared
before it. -/
def Names.enter (tree : Tree) (index : Nat) (params : List String) : Names :=
  ⟨bindFrom 0 params (declared tree (index + 1)), 0⟩

mutual

/-- What names stand for after a statement. Bindings end with the braces around them, but their variables are
not used again. -/
def Names.after (names : Names) : Stmt → Names
  | .scope body => ⟨names.find, (names.afterAll body).vars⟩
  | .var name _ _ => ⟨rebind names.find name (.own (.var names.vars)), names.vars + 1⟩
  | .cond _ body => names.after body
  | .loop _ body => names.after body
  | .assign _ _ _ => names
  | .write _ _ => names
  | .ret _ => names
  | .expr _ => names

def Names.afterAll (names : Names) : List Stmt → Names
  | [] => names
  | s :: rest => (names.after s).afterAll rest

end

abbrev Activation := LocalVar → Option UInt16

def Activation.ofArgs (args : List UInt16) : Activation
  | .param i => args[i]?
  | .var _ => none

structure Store where
  globals : String → UInt16
  /-- the words of memory that were written, the last one first -/
  writes : List (UInt16 × UInt16)
  last : UInt16

def Store.initial : Store := ⟨fun _ => 0, [], 0⟩

def Store.heap (κ : Store) : Memory :=
  κ.writes.foldr (fun (a, v) m => m.store a v) .zero

inductive Flow where
  | next
  | leave
  deriving DecidableEq, Repr

mutual

def evalExpr (tree : Tree) : Nat → Names → Activation → Store → Expr → Option Store
  | 0, _, _, _, _ => none
  | fuel + 1, names, locals, κ, e =>
    match e with
    | .int n => some { κ with last := n }
    | .var name _ =>
      match names.find name with
      | some (.own v) => (locals v).map fun w => { κ with last := w }
      | some (.global g) => some { κ with last := κ.globals g }
      | _ => none
    | .paren inner => evalExpr tree fuel names locals κ inner
    | .binary left op right => do
      let κ₁ ← evalExpr tree fuel names locals κ left
      let κ₂ ← evalExpr tree fuel names locals κ₁ right
      let v ← op.eval κ₁.last κ₂.last
      some { κ₂ with last := v }
    | .call name args _ =>
      match names.find name with
      | some (.function index) => do
        let (values, κ₁) ← evalArgs tree fuel names locals κ args
        evalCall tree fuel index values κ₁
      | _ => none

def evalArgs (tree : Tree) : Nat → Names → Activation → Store → List Expr → Option (List UInt16 × Store)
  | 0, _, _, _, _ => none
  | fuel + 1, names, locals, κ, args =>
    match args with
    | [] => some ([], κ)
    | arg :: rest => do
      let κ₁ ← evalExpr tree fuel names locals κ arg
      let (values, κ₂) ← evalArgs tree fuel names locals κ₁ rest
      some (κ₁.last :: values, κ₂)

/-- Evaluate the body of a function. A function that does not return a value leaves the last one. -/
def evalCall (tree : Tree) : Nat → Nat → List UInt16 → Store → Option Store
  | 0, _, _, _ => none
  | fuel + 1, index, values, κ =>
    match tree[index]? with
    | some (.func _ params body _) =>
      if values.length = params.length then do
        let (_, _, κ₁) ← evalStmts tree fuel (.enter tree index params) (.ofArgs values) κ body
        some κ₁
      else none
    | _ => none

/-- Evaluate a statement. A variable keeps its value when its statement is reached again. -/
def evalStmt (tree : Tree) : Nat → Names → Activation → Store → Stmt → Option (Flow × Activation × Store)
  | 0, _, _, _, _ => none
  | fuel + 1, names, locals, κ, s =>
    match s with
    | .scope body => evalStmts tree fuel names locals κ body
    | .var _ none _ => some (.next, locals, κ)
    | .var name (some value) offset => do
      let κ₁ ← evalExpr tree fuel (names.after (.var name (some value) offset)) locals κ value
      some (.next, Function.update locals (.var names.vars) (some κ₁.last), κ₁)
    | .assign name value _ => do
      let κ₁ ← evalExpr tree fuel names locals κ value
      match names.find name with
      | some (.own v) => some (.next, Function.update locals v (some κ₁.last), κ₁)
      | some (.global g) => some (.next, locals, { κ₁ with globals := Function.update κ₁.globals g κ₁.last })
      | _ => none
    | .write addr value => do
      let κ₁ ← evalExpr tree fuel names locals κ addr
      let κ₂ ← evalExpr tree fuel names locals κ₁ value
      some (.next, locals, { κ₂ with writes := (κ₁.last, κ₂.last) :: κ₂.writes })
    | .ret none => some (.leave, locals, κ)
    | .ret (some value) => do
      let κ₁ ← evalExpr tree fuel names locals κ value
      some (.leave, locals, κ₁)
    | .cond test body => do
      let κ₁ ← evalExpr tree fuel names locals κ test
      if κ₁.last = 0 then some (.next, locals, κ₁) else evalStmt tree fuel names locals κ₁ body
    | .loop test body => do
      let κ₁ ← evalExpr tree fuel names locals κ test
      if κ₁.last = 0 then some (.next, locals, κ₁)
      else
        match ← evalStmt tree fuel names locals κ₁ body with
        | (.next, locals, κ₂) => evalStmt tree fuel names locals κ₂ (.loop test body)
        | (.leave, locals, κ₂) => some (.leave, locals, κ₂)
    | .expr value => do
      let κ₁ ← evalExpr tree fuel names locals κ value
      some (.next, locals, κ₁)

def evalStmts (tree : Tree) : Nat → Names → Activation → Store → List Stmt → Option (Flow × Activation × Store)
  | 0, _, _, _, _ => none
  | fuel + 1, names, locals, κ, body =>
    match body with
    | [] => some (.next, locals, κ)
    | s :: rest => do
      match ← evalStmt tree fuel names locals κ s with
      | (.next, locals, κ₁) => evalStmts tree fuel (names.after s) locals κ₁ rest
      | (.leave, locals, κ₁) => some (.leave, locals, κ₁)

end

def evalMain (tree : Tree) (fuel : Nat) : Option Store :=
  match declared tree tree.length "main" with
  | some (.function index) => evalCall tree fuel index [] .initial
  | _ => none

def Extends {α : Type} (a b : Option α) : Prop :=
  ∀ r, a = some r → b = some r

private theorem Extends.refl {α : Type} (a : Option α) : Extends a a := fun _ => id

private theorem Extends.bind {α β : Type} {a b : Option α} {f g : α → Option β} (h : Extends a b)
    (hf : ∀ x, Extends (f x) (g x)) : Extends (a >>= f) (b >>= g) := by
  intro r hr
  obtain ⟨x, hx, hr⟩ := Option.bind_eq_some_iff.mp hr
  exact Option.bind_eq_some_iff.mpr ⟨x, h x hx, hf x r hr⟩

variable {tree : Tree}

structure Stable (tree : Tree) (fuel : Nat) : Prop where
  expr {names locals κ e} : Extends (evalExpr tree fuel names locals κ e) (evalExpr tree (fuel + 1) names locals κ e)
  args {names locals κ es} : Extends (evalArgs tree fuel names locals κ es) (evalArgs tree (fuel + 1) names locals κ es)
  call {index values κ} : Extends (evalCall tree fuel index values κ) (evalCall tree (fuel + 1) index values κ)
  stmt {names locals κ s} : Extends (evalStmt tree fuel names locals κ s) (evalStmt tree (fuel + 1) names locals κ s)
  stmts {names locals κ body} :
    Extends (evalStmts tree fuel names locals κ body) (evalStmts tree (fuel + 1) names locals κ body)

private theorem Stable.zero : Stable tree 0 where
  expr := nofun
  args := nofun
  call := nofun
  stmt := nofun
  stmts := nofun

variable {fuel : Nat}

private theorem Stable.expr_succ (h : Stable tree fuel) {names : Names} {locals : Activation} {κ : Store} {e : Expr} :
    Extends (evalExpr tree (fuel + 1) names locals κ e) (evalExpr tree (fuel + 2) names locals κ e) := by
  cases e with
  | int n => exact .refl _
  | var name => exact .refl _
  | paren inner => exact h.expr
  | binary left op right => exact .bind h.expr fun _ => .bind h.expr fun _ => .refl _
  | call name args =>
    rw [evalExpr, evalExpr]
    split
    · exact .bind h.args fun (_, _) => h.call
    · exact .refl _

private theorem Stable.stmt_succ (h : Stable tree fuel) {names : Names} {locals : Activation} {κ : Store} {s : Stmt} :
    Extends (evalStmt tree (fuel + 1) names locals κ s) (evalStmt tree (fuel + 2) names locals κ s) := by
  cases s with
  | scope body => exact h.stmts
  | var name value =>
    cases value with
    | none => exact .refl _
    | some value => exact .bind h.expr fun _ => .refl _
  | assign name value => exact .bind h.expr fun _ => .refl _
  | write addr value => exact .bind h.expr fun _ => .bind h.expr fun _ => .refl _
  | ret value =>
    cases value with
    | none => exact .refl _
    | some value => exact .bind h.expr fun _ => .refl _
  | cond test body =>
    refine .bind h.expr fun κ₁ => ?_
    split
    · exact .refl _
    · exact h.stmt
  | loop test body =>
    refine .bind h.expr fun κ₁ => ?_
    split
    · exact .refl _
    · refine .bind h.stmt fun (flow, locals, κ₂) => ?_
      cases flow with
      | next => exact h.stmt
      | leave => exact .refl _
  | expr value => exact .bind h.expr fun _ => .refl _

private theorem Stable.succ (h : Stable tree fuel) : Stable tree (fuel + 1) where
  expr := h.expr_succ
  args {_ _ _ es} := by
    cases es with
    | nil => exact .refl _
    | cons e es => exact .bind h.expr fun _ => .bind h.args fun _ => .refl _
  call {_ _ _} := by
    simp only [evalCall]
    split
    · split
      · exact .bind h.stmts fun _ => .refl _
      · exact .refl _
    · exact .refl _
  stmt := h.stmt_succ
  stmts {_ _ _ body} := by
    cases body with
    | nil => exact .refl _
    | cons s rest =>
      refine .bind h.stmt fun (flow, locals, κ₁) => ?_
      cases flow with
      | next => exact h.stmts
      | leave => exact .refl _

private theorem stable (tree : Tree) (fuel : Nat) : Stable tree fuel := by
  induction fuel with
  | zero => exact .zero
  | succ fuel ih => exact ih.succ

private theorem evalMain_mono {fuel' : Nat} (h : fuel ≤ fuel') :
    Extends (evalMain tree fuel) (evalMain tree fuel') := by
  induction h with
  | refl => exact .refl _
  | step _ ih =>
    intro κ hκ
    have hκ := ih κ hκ
    rw [evalMain] at hκ ⊢
    split at hκ
    · exact (stable tree _).call _ hκ
    · cases hκ

/-- Fuel only decides whether there is a result, not which one. -/
theorem evalMain_unique {fuel' : Nat} {κ κ' : Store} (h : evalMain tree fuel = some κ)
    (h' : evalMain tree fuel' = some κ') : κ = κ' := by
  rcases Nat.le_total fuel fuel' with hle | hle
  · cases (evalMain_mono hle κ h).symm.trans h'
    rfl
  · cases (evalMain_mono hle κ' h').symm.trans h
    rfl

end StackToolchain.Source
