import StackToolchain.Compiler.Error

/-! Scopes: what names are bound to. An inner scope begins as a copy of the outer one, and its own bindings end
with it. -/
namespace StackToolchain

inductive Binding where
  | function (arity : Nat)
  | slot (offset : Int8)
  | global (label : String)
  deriving DecidableEq, Repr

inductive Cell where
  | frame (offset : Int8)
  | record (label : String)
  deriving DecidableEq, Repr

abbrev Scope := Table Binding

namespace Scope

def binding (scope : Scope) (name : String) (offset : Option Nat) : Except CompileError Binding :=
  match scope.get? name with
  | some b => .ok b
  | none => .error (.undefinedSymbol name offset)

def arity (scope : Scope) (name : String) (offset : Option Nat) : Except CompileError Nat := do
  match ← scope.binding name offset with
  | .function arity => return arity
  | _ => throw (.wrongKind name .callee offset)

def cell (scope : Scope) (name : String) (offset : Option Nat) : Except CompileError Cell := do
  match ← scope.binding name offset with
  | .slot offset => return .frame offset
  | .global label => return .record label
  | .function _ => throw (.wrongKind name .cell offset)

end Scope

end StackToolchain
