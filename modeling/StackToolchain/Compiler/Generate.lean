import StackToolchain.Compiler.Statement

/-! Code for functions and whole sources. -/
namespace StackToolchain

open Source (Stmt Decl Tree)

/-- The offset of a parameter with a number of parameters from it to the last one. Parameters stand below the
return address and the saved base, the last one on top. -/
def paramOffset (function : String) (left : Nat) : Except CompileError Int8 :=
  match frameOffset? (-4 - 2 * left) with
  | none => .error (.frameOverflow function)
  | some offset => .ok offset

def bindParams (function : String) (scope : Scope) : List String → Except CompileError (List FrameSlot × Scope)
  | [] => .ok ([], scope)
  | name :: rest => do
    let offset ← paramOffset function (rest.length + 1)
    let (slots, scope) ← bindParams function (scope.insert name (.slot offset)) rest
    return (⟨name, offset⟩ :: slots, scope)

def prologue (name : String) (size : UInt16) : Program :=
  [ .label (functionLabel name), .inst (.push .rsb), .inst (.mov .rsp .rsb), .inst (.imm .r2 size),
    .inst (.alu .add .rsb .r2 .rsp) ]

/-- The last instructions of a function: restore the base, go back. They leave `RRET` alone. -/
def epilogue (name : String) : Program :=
  [ .label (returnLabel name), .inst (.mov .rsb .rsp), .inst (.pop .rsb), .inst (.pop .raddr),
    .inst (.jmpr .raddr) ]

def compileFunction (name : String) (params : List String) (body : List Stmt) (scope : Scope)
    (ids : LabelSupply) : Except CompileError (Program × Frame × LabelSupply) := do
  let (args, scope) ← bindParams name scope params
  let (code, st) ← compileStmts name [] body scope ⟨ids, {}, []⟩
  let size := st.slots.size
  return (prologue name size ++ (code ++ epilogue name), ⟨size, args, st.locals⟩, st.ids)

structure UnitState where
  ids : LabelSupply := {}
  scope : Scope := .empty
  frames : Table Frame := .empty
  /-- the code so far, in reverse -/
  code : List Line := []
  /-- the offset of the last function with the name `main` -/
  entry : Option Nat := none

/-- Compile a declaration. A function is bound before its own body is compiled. -/
def UnitState.declare (st : UnitState) : Decl → Except CompileError UnitState
  | .func name params body offset => do
    let scope := st.scope.insert name (.function params.length)
    let (code, frame, ids) ← compileFunction name params body scope st.ids
    return { ids, scope
             frames := st.frames.insert name frame
             code := code.reverse ++ st.code
             entry := if name = "main" then some offset else st.entry }
  | .global name =>
    let label := globalLabel name
    .ok { st with scope := st.scope.insert name (.global label), code := .inst (.word 0) :: .label label :: st.code }

def UnitState.declareAll (st : UnitState) : List Decl → Except CompileError UnitState
  | [] => .ok st
  | decl :: rest => do (← st.declare decl).declareAll rest

structure Generated where
  /-- the code -/
  code : Program
  frames : Table Frame

/-- Compile a source. The code begins with a call of `main`, which must have no parameters, and a stop. -/
def generate (tree : Tree) : Except CompileError Generated := do
  let st ← UnitState.declareAll {} tree
  -- a source without `main` has no place for the error
  let arity ← st.scope.arity "main" none
  if arity = 0 then
    let (entry, _) := callCode "main" [] st.ids
    return ⟨entry ++ .inst .halt :: st.code.reverse, st.frames⟩
  else throw (.arityMismatch "main" arity 0 st.entry)

end StackToolchain
