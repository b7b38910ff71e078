import StackToolchain.Assembly.Labels

/-! The layout table of a program: for every line its address, its bytes and its text. -/
namespace StackToolchain

namespace Layout

def ruler : String :=
  "-------------------+-----------------------------------------------------"

def byteColumn (bytes : List UInt8) : String :=
  " ".intercalate (bytes.map fun b => Text.hex 2 b.toNat)

def unresolved : String :=
  Style.alert "!! !! !! !!"

def labelRow (name : String) : String :=
  Text.repeated 19 ' ' ++ "| " ++ Style.green (name ++ ":")

def instRow (labels : Labels) (addr : UInt16) (i : Instruction) : String :=
  let column :=
    match i.encode labels.get? with
    | .ok bytes => byteColumn bytes
    | .error _ => unresolved
  "[" ++ Text.hex 4 addr.toNat ++ "] " ++ Text.padRight 11 column ++ " |     " ++ i.colouredText

/-- The rows of lines that begin at an address; addresses wrap. -/
def rows (labels : Labels) (addr : UInt16) : Program → List String
  | [] => []
  | .label name :: rest => labelRow name :: rows labels addr rest
  | .inst i :: rest => instRow labels addr i :: rows labels (addr + i.size.toUInt16) rest

end Layout

def Program.layout (p : Program) (labels : Labels) : String :=
  Text.unlines (Layout.ruler :: Layout.rows labels 0 p ++ [Layout.ruler])

end StackToolchain
