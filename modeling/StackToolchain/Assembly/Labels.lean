import StackToolchain.Assembly.Program
import StackToolchain.Table

/-! Label tables and the first pass of assembly, which gives every label the address of its line. -/
namespace StackToolchain

inductive AssemblyError where
  | undefinedLabel (name : String)
  | redefinedLabel (name : String)
  | lengthMismatch (i : Instruction) (actual : Nat)
  | programTooLarge (bytes : Nat)
  deriving DecidableEq, Repr

def AssemblyError.message : AssemblyError → String
  | .undefinedLabel name => "undefined symbol '" ++ name ++ "'"
  | .redefinedLabel name => "Re-defined label: `" ++ name ++ "`"
  | .lengthMismatch i actual =>
    "internal error: `" ++ i.text ++ "` encoded to " ++ toString actual ++ " bytes but declares " ++
      toString i.size
  | .programTooLarge bytes => "Program does not fit in the address space (" ++ toString bytes ++ " bytes)"

abbrev Labels := Table UInt16

namespace Labels

def define (labels : Labels) (name : String) (addr : UInt16) : Except AssemblyError Labels :=
  if labels.contains name then .error (.redefinedLabel name) else .ok (labels.push name addr)

def resolve (labels : Labels) (name : String) : Except AssemblyError UInt16 :=
  match labels.get? name with
  | some addr => .ok addr
  | none => .error (.undefinedLabel name)

/-- Enter the labels of lines that begin at an address. Every line must begin below the end of the address
space, and the last may end there. -/
def collectFrom (addr : Nat) (labels : Labels) : Program → Except AssemblyError Labels
  | [] => if addr ≤ 0x10000 then .ok labels else .error (.programTooLarge addr)
  | line :: rest =>
    if addr < 0x10000 then
      match line with
      | .label name => do
        let labels ← labels.define name addr.toUInt16
        collectFrom addr labels rest
      | .inst i => collectFrom (addr + i.size) labels rest
    else .error (.programTooLarge addr)

def collect (p : Program) : Except AssemblyError Labels :=
  collectFrom 0 .empty p

end Labels

end StackToolchain
