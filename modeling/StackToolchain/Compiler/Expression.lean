import StackToolchain.Compiler.Frame
import StackToolchain.Compiler.Scope
import StackToolchain.Source.Tree

/-! Code for expressions. The value of an expression is left in `RRET`; a pending left operand waits on the
stack. -/
namespace StackToolchain

open Source (Expr)

def Cell.load : Cell → Program
  | .frame offset => [.inst (.memr .rsb offset .rret)]
  | .record label => [.inst (.immLabel .raddr label), .inst (.memr .raddr cellOffset .rret)]

def Cell.store : Cell → Program
  | .frame offset => [.inst (.memw .rsb .rret offset)]
  | .record label => [.inst (.immLabel .raddr label), .inst (.memw .raddr .rret cellOffset)]

/-- Code that calls a function on arguments given by their code. The arguments go on the stack from left to
right, then the return address; after the call the arguments are taken off again. -/
def callCode (name : String) (args : List Program) (ids : LabelSupply) : Program × LabelSupply :=
  let (back, ids) := ids.fresh "call_ret"
  let code :=
    args.flatMap (· ++ [.inst (.push .rret)]) ++
      [.inst (.immLabel .raddr back), .inst (.push .raddr), .inst (.jmp (functionLabel name)), .label back] ++
      List.replicate args.length (.inst (.pop .raddr))
  (code, ids)

def binaryCode (op : AluOp) (left right : Program) : Program :=
  left ++ (.inst (.mov .rret .rexpr) :: .inst (.push .rexpr) ::
    (right ++ [.inst (.pop .rexpr), .inst (.alu op .rexpr .rret .rret)]))

mutual

def compileExpr (scope : Scope) : Expr → LabelSupply → Except CompileError (Program × LabelSupply)
  | .int n, ids => .ok ([.inst (.imm .rret n)], ids)
  | .var name offset, ids => do
    let cell ← scope.cell name (some offset)
    return (cell.load, ids)
  | .paren inner, ids => compileExpr scope inner ids
  | .binary left op right, ids => do
    let (left, ids) ← compileExpr scope left ids
    let (right, ids) ← compileExpr scope right ids
    return (binaryCode op left right, ids)
  | .call name args offset, ids => do
    let arity ← scope.arity name (some offset)
    if arity = args.length then
      let (args, ids) ← compileArgs scope args ids
      return callCode name args ids
    else throw (.arityMismatch name arity args.length (some offset))

def compileArgs (scope : Scope) : List Expr → LabelSupply → Except CompileError (List Program × LabelSupply)
  | [], ids => .ok ([], ids)
  | arg :: rest, ids => do
    let (arg, ids) ← compileExpr scope arg ids
    let (rest, ids) ← compileArgs scope rest ids
    return (arg :: rest, ids)

end

end StackToolchain
