import StackToolchain.Compiler.Expression

/-! Code for statements. -/
namespace StackToolchain

open Source (Expr Stmt)

structure BodyState where
  ids : LabelSupply
  slots : SlotSupply
  locals : List FrameSlot
  deriving DecidableEq, Repr

namespace BodyState

def fresh (st : BodyState) (stem : String) : String × BodyState :=
  let (label, ids) := st.ids.fresh stem
  (label, { st with ids })

def addLocal (st : BodyState) (function name : String) : Except CompileError (Int8 × BodyState) :=
  let (slot, slots) := st.slots.allocate
  match frameOffset? slot with
  | none => .error (.frameOverflow function)
  | some offset => .ok (offset, { st with slots, locals := st.locals ++ [⟨name, offset⟩] })

def expr (st : BodyState) (scope : Scope) (e : Expr) : Except CompileError (Program × BodyState) := do
  let (code, ids) ← compileExpr scope e st.ids
  return (code, { st with ids })

end BodyState

def condCode (yes done : String) (test body : Program) : Program :=
  test ++ (.inst (.jmpif .rret yes) :: .inst (.jmp done) :: .label yes :: (body ++ [.label done]))

def loopCode (head yes done : String) (test body : Program) : Program :=
  .label head :: (test ++ (.inst (.jmpif .rret yes) :: .inst (.jmp done) :: .label yes ::
    (body ++ [.inst (.jmp head), .label done])))

def writeCode (addr value : Program) : Program :=
  addr ++ (.inst (.push .rret) :: (value ++ [.inst (.pop .rexpr), .inst (.memw .rexpr .rret 0)]))

mutual

/-- Code for a statement of a function. A variable is bound in the scope that is given back, before its first
value is compiled. -/
def compileStmt (function : String) :
    Stmt → Scope → BodyState → Except CompileError (Program × Scope × BodyState)
  | .scope body, scope, st => do
    let (code, st) ← compileStmts function [] body scope st
    return (code, scope, st)
  | .var name init _, scope, st => do
    let (offset, st) ← st.addLocal function name
    let scope := scope.insert name (.slot offset)
    match init with
    | none => return ([], scope, st)
    | some value =>
      let (code, st) ← st.expr scope value
      return (code ++ (Cell.frame offset).store, scope, st)
  | .assign name value offset, scope, st => do
    let cell ← scope.cell name (some offset)
    let (code, st) ← st.expr scope value
    return (code ++ cell.store, scope, st)
  | .write addr value, scope, st => do
    let (addr, st) ← st.expr scope addr
    let (value, st) ← st.expr scope value
    return (writeCode addr value, scope, st)
  | .ret none, scope, st => .ok ([.inst (.jmp (returnLabel function))], scope, st)
  | .ret (some value), scope, st => do
    let (code, st) ← st.expr scope value
    return (code ++ [.inst (.jmp (returnLabel function))], scope, st)
  | .cond test body, scope, st => do
    let (test, st) ← st.expr scope test
    let (yes, st) := st.fresh "if_begin"
    let (done, st) := st.fresh "if_end"
    let (body, scope, st) ← compileStmt function body scope st
    return (condCode yes done test body, scope, st)
  | .loop test body, scope, st => do
    let (head, st) := st.fresh "while_head"
    let (test, st) ← st.expr scope test
    let (yes, st) := st.fresh "while_body"
    let (done, st) := st.fresh "while_end"
    let (body, scope, st) ← compileStmt function body scope st
    return (loopCode head yes done test body, scope, st)
  | .expr value, scope, st => do
    let (code, st) ← st.expr scope value
    return (code, scope, st)

/-- Code for the statements of a scope, after code held in reverse. The bindings end with the scope. -/
def compileStmts (function : String) (done : List Line) :
    List Stmt → Scope → BodyState → Except CompileError (Program × BodyState)
  | [], _, st => .ok (done.reverse, st)
  | s :: rest, scope, st => do
    let (code, scope, st) ← compileStmt function s scope st
    compileStmts function (code.reverse ++ done) rest scope st

end

end StackToolchain
