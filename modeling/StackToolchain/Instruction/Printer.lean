import StackToolchain.Instruction.Basic
import StackToolchain.Text.Numeral
import StackToolchain.Text.Style

/-! Instructions as text, plain and coloured, and the wording of decoding errors. -/
namespace StackToolchain

open Text (hex padRight)

def Operand.text : Operand → String
  | .reg r => r.name
  | .imm8 v => toString v.toInt
  | .imm16 v => toString v.toNat
  | .ref label => label
  | .pad => ""

def Operand.colouredText : Operand → String
  | .reg r => Style.yellow r.name
  | .imm8 v => Style.cyan (toString v.toInt)
  | .imm16 v => Style.cyan ("0x" ++ hex 4 v.toNat)
  | .ref label => Style.magenta label
  | .pad => ""

def Instruction.text (i : Instruction) : String :=
  i.op.name ++ String.join (i.operands.map (" " ++ ·.text))

def Instruction.colouredText (i : Instruction) : String :=
  Style.red (padRight 5 i.op.name) ++ " " ++ " ".intercalate (i.operands.map Operand.colouredText)

def DecodeError.message : DecodeError → String
  | .unknownOpcode code addr => "Unknown opcode 0x" ++ hex 2 code.toNat ++ " at 0x" ++ hex 4 addr
  | .unknownRegister code addr =>
    "Unknown register 0x" ++ hex 2 code.toNat ++ " in instruction at 0x" ++ hex 4 addr
  | .missingOpcode addr => "Truncated instruction at 0x" ++ hex 4 addr ++ ": opcode needs 1 bytes"
  | .truncated addr op =>
    "Truncated instruction at 0x" ++ hex 4 addr ++ ": " ++ op.name ++ " needs " ++ toString op.size ++ " bytes"

end StackToolchain
