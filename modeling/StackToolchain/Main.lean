import StackToolchain.Command.Dispatch

/-! The commands at a terminal: the first argument names the command. -/
namespace StackToolchain

def Script.perform {α : Type} : Script α → IO α
  | .done result => return result
  | .print text next => do
    IO.print text
    (next ()).perform
  | .complain text next => do
    IO.eprint text
    (next ()).perform
  | .read file next => do
    let content ← (some <$> IO.FS.readBinFile file) <|> pure none
    (next content).perform
  | .write file content next => do
    let written ← (do IO.FS.writeBinFile file content; return true) <|> pure false
    (next written).perform

end StackToolchain

open StackToolchain in
def main : List String → IO UInt32
  | name :: args =>
    match Command.named? name args with
    | some script => do return (← script.perform).toUInt32
    | none => do
      IO.eprintln ("unknown command: " ++ name)
      return 2
  | [] => do
    IO.eprintln "usage: (tinc | tinasm | tinemu) arguments"
    return 2
