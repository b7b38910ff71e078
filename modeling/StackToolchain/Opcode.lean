import StackToolchain.Alu

/-! Opcodes, their codes and mnemonics, and the layout of the bytes that follow them. -/
namespace StackToolchain

inductive Opcode where
  | halt
  | alu (op : AluOp)
  | mov
  | imm
  | memr
  | memw
  | push
  | pop
  | jmp
  | jmpif
  | jmpr
  | word
  deriving DecidableEq, Repr

inductive Slot where
  | reg
  | imm8
  | imm16
  | pad
  deriving DecidableEq, Repr

def Slot.size : Slot → Nat
  | .imm16 => 2
  | _ => 1

namespace Opcode

def all : List Opcode :=
  halt :: AluOp.all.map alu ++ [mov, imm, memr, memw, push, pop, jmp, jmpif, jmpr, word]

def code : Opcode → UInt8
  | halt => 0x00
  | alu .add => 0x01
  | alu .sub => 0x02
  | alu .mul => 0x03
  | alu .div => 0x04
  | alu .mod => 0x05
  | alu .and => 0x06
  | alu .or => 0x07
  | alu .xor => 0x08
  | alu .shl => 0x09
  | alu .shr => 0x0A
  | alu .eq => 0x0B
  | alu .neq => 0x0C
  | alu .lt => 0x0D
  | alu .gt => 0x0E
  | alu .le => 0x0F
  | alu .ge => 0x10
  | mov => 0x11
  | imm => 0x12
  | memr => 0x13
  | memw => 0x14
  | push => 0x15
  | pop => 0x16
  | jmp => 0x17
  | jmpif => 0x18
  | jmpr => 0x19
  | word => 0x1A

def ofCode? (b : UInt8) : Option Opcode :=
  all[b.toNat]?

def name : Opcode → String
  | halt => "HALT"
  | alu op => op.name
  | mov => "MOV"
  | imm => "IMM"
  | memr => "MEMR"
  | memw => "MEMW"
  | push => "PUSH"
  | pop => "POP"
  | jmp => "JMP"
  | jmpif => "JMPIF"
  | jmpr => "JMPR"
  | word => "WORD"

/-- The upper-case form of a character of a mnemonic. Two characters outside ASCII have a single ASCII letter
as their upper-case form: the long s and the dotless i. -/
def upperLetter (c : Char) : Char :=
  if c = 'ſ' then 'S' else if c = 'ı' then 'I' else c.toUpper

def ofName? (word : String) : Option Opcode :=
  all.find? fun op => op.name.toList == word.toList.map upperLetter

@[simp] theorem ofCode?_code (op : Opcode) : ofCode? op.code = some op := by
  cases op with
  | alu op => cases op <;> rfl
  | _ => rfl

@[simp] theorem ofName?_name (op : Opcode) : ofName? op.name = some op := by
  cases op with
  | alu op => cases op <;> decide
  | _ => decide

def undefinedMessage (word : String) : String :=
  "Undefined Op: " ++ word

def isAlu : Opcode → Bool
  | alu _ => true
  | _ => false

def layout : Opcode → List Slot
  | halt => [.pad]
  | alu _ => [.reg, .reg, .reg]
  | mov => [.reg, .pad, .reg]
  | imm => [.reg, .imm16]
  | memr => [.reg, .imm8, .reg]
  | memw => [.reg, .reg, .imm8]
  | push => [.pad, .reg, .pad]
  | pop => [.pad, .pad, .reg]
  | jmp => [.imm16, .pad]
  | jmpif => [.reg, .imm16]
  | jmpr => [.reg, .pad, .pad]
  | word => [.pad, .imm16]

def size : Opcode → Nat
  | halt => 2
  | _ => 4

def eval (op : Opcode) (a b : UInt16) : Option UInt16 :=
  match op with
  | alu op => op.eval a b
  | _ => none

end Opcode

end StackToolchain
