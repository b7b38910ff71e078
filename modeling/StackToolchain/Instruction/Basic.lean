import StackToolchain.Opcode
import StackToolchain.Register
import StackToolchain.Word

/-! Instructions: an opcode with its operands, their encoding in bytes and the decoding of bytes.
An instruction may hold operands that do not fit its opcode; `WellFormed` says when they do. -/
namespace StackToolchain

inductive Operand where
  | reg (r : Register)
  | imm8 (v : Int8)
  | imm16 (v : UInt16)
  | ref (label : String)
  | pad
  deriving DecidableEq, Repr

def Operand.slot : Operand → Slot
  | .reg _ => .reg
  | .imm8 _ => .imm8
  | .imm16 _ => .imm16
  | .ref _ => .imm16
  | .pad => .pad

structure Instruction where
  op : Opcode
  args : List Operand
  deriving DecidableEq, Repr

namespace Instruction

/-- Every operand fills the field that the opcode's layout has in its place. -/
def WellFormed (i : Instruction) : Prop :=
  i.args.map Operand.slot = i.op.layout

instance (i : Instruction) : Decidable i.WellFormed :=
  inferInstanceAs (Decidable (_ = _))

def size (i : Instruction) : Nat :=
  i.op.size

def operands (i : Instruction) : List Operand :=
  i.args.filter (· ≠ .pad)

def halt : Instruction := ⟨.halt, [.pad]⟩

def alu (op : AluOp) (a b save : Register) : Instruction := ⟨.alu op, [.reg a, .reg b, .reg save]⟩

def mov (src save : Register) : Instruction := ⟨.mov, [.reg src, .pad, .reg save]⟩

def imm (save : Register) (v : UInt16) : Instruction := ⟨.imm, [.reg save, .imm16 v]⟩

def immLabel (save : Register) (label : String) : Instruction := ⟨.imm, [.reg save, .ref label]⟩

def memr (addr : Register) (offset : Int8) (save : Register) : Instruction :=
  ⟨.memr, [.reg addr, .imm8 offset, .reg save]⟩

def memw (addr value : Register) (offset : Int8) : Instruction :=
  ⟨.memw, [.reg addr, .reg value, .imm8 offset]⟩

def push (src : Register) : Instruction := ⟨.push, [.pad, .reg src, .pad]⟩

def pop (save : Register) : Instruction := ⟨.pop, [.pad, .pad, .reg save]⟩

def jmp (label : String) : Instruction := ⟨.jmp, [.ref label, .pad]⟩

def jmpif (cond : Register) (label : String) : Instruction := ⟨.jmpif, [.reg cond, .ref label]⟩

def jmpr (target : Register) : Instruction := ⟨.jmpr, [.reg target, .pad, .pad]⟩

def word (v : UInt16) : Instruction := ⟨.word, [.pad, .imm16 v]⟩

end Instruction

/-- Where the word of a data record stands, from the record's address. -/
def cellOffset : Int8 := 2

def Operand.encode (address : String → Option UInt16) : Operand → Except String (List UInt8)
  | .reg r => .ok [r.code]
  | .imm8 v => .ok [v.toUInt8]
  | .imm16 v => .ok (wordBytes v)
  | .ref label =>
    match address label with
    | some v => .ok (wordBytes v)
    | none => .error label
  | .pad => .ok [0]

def Operand.encodeAll (address : String → Option UInt16) : List Operand → Except String (List UInt8)
  | [] => .ok []
  | arg :: rest => do
    let bytes ← arg.encode address
    let others ← encodeAll address rest
    return bytes ++ others

/-- The bytes of an instruction: its opcode, then its operands. Their number need not be the declared one. -/
def Instruction.encode (address : String → Option UInt16) (i : Instruction) : Except String (List UInt8) := do
  let body ← Operand.encodeAll address i.args
  return i.op.code :: body

inductive DecodeError where
  | unknownOpcode (code : UInt8) (addr : Nat)
  | unknownRegister (code : UInt8) (addr : Nat)
  | missingOpcode (addr : Nat)
  | truncated (addr : Nat) (op : Opcode)
  deriving DecidableEq, Repr

def Operand.decodeAll (addr : Nat) (op : Opcode) : List Slot → List UInt8 → Except DecodeError (List Operand)
  | [], _ => .ok []
  | .reg :: slots, b :: rest =>
    match Register.ofCode? b with
    | none => .error (.unknownRegister b addr)
    | some r => do return .reg r :: (← decodeAll addr op slots rest)
  | .imm8 :: slots, b :: rest => do return .imm8 b.toInt8 :: (← decodeAll addr op slots rest)
  | .imm16 :: slots, lo :: hi :: rest => do
    return .imm16 (wordOfBytes lo hi) :: (← decodeAll addr op slots rest)
  | .pad :: slots, _ :: rest => do return .pad :: (← decodeAll addr op slots rest)
  | _ :: _, _ => .error (.truncated addr op)

/-- Read the instruction at the front of the bytes that begin at an address. The opcode is judged first, then
whether all bytes are there, then the registers from left to right. -/
def Instruction.decode (addr : Nat) : List UInt8 → Except DecodeError Instruction
  | [] => .error (.missingOpcode addr)
  | code :: rest =>
    match Opcode.ofCode? code with
    | none => .error (.unknownOpcode code addr)
    | some op =>
      let body := rest.take (op.size - 1)
      if body.length < op.size - 1 then .error (.truncated addr op)
      else do return ⟨op, ← Operand.decodeAll addr op op.layout body⟩

end StackToolchain
