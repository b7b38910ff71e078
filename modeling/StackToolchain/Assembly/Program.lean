import StackToolchain.Instruction.Printer

/-! Programs: lines that are labels or instructions, and their listing. -/
namespace StackToolchain

inductive Line where
  | label (name : String)
  | inst (i : Instruction)
  deriving DecidableEq, Repr

abbrev Program := List Line

def Line.size : Line → Nat
  | .label _ => 0
  | .inst i => i.size

def Line.text : Line → String
  | .label name => name ++ ":"
  | .inst i => "    " ++ i.text

def Line.colouredText : Line → String
  | .label name => Style.magenta name ++ ":"
  | .inst i => "    " ++ i.colouredText

def Program.listing (p : Program) : String :=
  Text.unlines (p.map Line.text)

end StackToolchain
