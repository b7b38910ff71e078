import StackToolchain.Command.Assemble
import StackToolchain.Command.Emulate

/-! The commands by name. -/
namespace StackToolchain.Command

def named? (name : String) (args : List String) : Option (Script Nat) :=
  match name with
  | "tinc" => some (compile args)
  | "tinasm" => some (assemble args)
  | "tinemu" => some (emulate args)
  | _ => none

end StackToolchain.Command
