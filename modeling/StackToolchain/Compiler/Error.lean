import StackToolchain.Assembly.Labels
import StackToolchain.Source.Comment
import StackToolchain.Source.Lexer

/-! Why a source was not compiled. -/
namespace StackToolchain

inductive NameUse where
  | callee
  | cell
  deriving DecidableEq, Repr

def NameUse.text : NameUse → String
  | .callee => "function"
  | .cell => "variable"

/-- Why a source was not compiled. Errors about names carry the offset of the use, where there is one. -/
inductive CompileError where
  | comment (e : Source.CommentError)
  | source (e : Source.SyntaxError)
  | undefinedSymbol (name : String) (offset : Option Nat)
  | wrongKind (name : String) (use : NameUse) (offset : Option Nat)
  | arityMismatch (name : String) (expected got : Nat) (offset : Option Nat)
  | frameOverflow (function : String)
  | assembly (e : AssemblyError)
  deriving DecidableEq, Repr

namespace CompileError

def message : CompileError → String
  | comment e => e.message
  | source e => e.message
  | undefinedSymbol name _ => "undefined symbol '" ++ name ++ "'"
  | wrongKind name use _ => "symbol '" ++ name ++ "' is not a " ++ use.text
  | arityMismatch name expected got _ =>
    "incorrect number of arguments in call to '" ++ name ++ "' (expected " ++ toString expected ++ ", got " ++
      toString got ++ ")"
  | frameOverflow function => "stack frame of '" ++ function ++ "' does not fit in 8-bit offsets"
  | assembly e => e.message

def offset? : CompileError → Option Nat
  | comment e => some e.offset
  | source e => some e.offset
  | undefinedSymbol _ offset => offset
  | wrongKind _ _ offset => offset
  | arityMismatch _ _ _ offset => offset
  | frameOverflow _ => none
  | assembly _ => none

end CompileError

end StackToolchain
