import StackToolchain.Machine.Memory
import StackToolchain.Instruction.Printer

/-! The machine: registers, memory and program counter, and the effect of one instruction.
What an instruction does is first worked out as an `Effect` and then applied, so that an instruction that
faults changes nothing. -/
namespace StackToolchain

structure Machine where
  regs : Vector UInt16 8
  mem : Memory
  pc : UInt16
  halted : Bool

inductive Fault where
  | decode (e : DecodeError)
  | divisionByZero (pc : UInt16)
  | executedData (pc : UInt16)
  | malformed (pc : UInt16)
  deriving DecidableEq, Repr

def Fault.message : Fault → String
  | .decode e => e.message
  | .divisionByZero pc => "Division by zero at 0x" ++ Text.hex 4 pc.toNat
  | .executedData pc => "Executed data word at 0x" ++ Text.hex 4 pc.toNat
  | .malformed pc => "Malformed instruction at 0x" ++ Text.hex 4 pc.toNat

structure Effect where
  next : UInt16
  store : Option (UInt16 × UInt16) := none
  /-- registers to set, in this order -/
  sets : List (Register × UInt16) := []
  halts : Bool := false

namespace Machine

def stackBase : UInt16 := 0x8000

def reg (m : Machine) (r : Register) : UInt16 :=
  m.regs[r.index]

def setReg (m : Machine) (r : Register) (v : UInt16) : Machine :=
  { m with regs := m.regs.set r.index v }

theorem reg_setReg (m : Machine) (r s : Register) (v : UInt16) :
    (m.setReg r v).reg s = if r = s then v else m.reg s := by
  simp only [setReg, reg, Fin.getElem_fin, Vector.getElem_set]
  cases r <;> cases s <;> rfl

@[simp] theorem pc_setReg (m : Machine) (r : Register) (v : UInt16) : (m.setReg r v).pc = m.pc := rfl

@[simp] theorem mem_setReg (m : Machine) (r : Register) (v : UInt16) : (m.setReg r v).mem = m.mem := rfl

@[simp] theorem halted_setReg (m : Machine) (r : Register) (v : UInt16) : (m.setReg r v).halted = m.halted := rfl

def start (mem : Memory) : Machine :=
  let idle : Machine := ⟨Vector.replicate 8 0, mem, 0, false⟩
  (idle.setReg .rsp stackBase).setReg .rsb stackBase

def blank : Machine := start .zero

def effect (m : Machine) (i : Instruction) : Except Fault Effect :=
  let next := m.pc + i.size.toUInt16
  match i.op, i.args with
  | .halt, _ => .ok { next := m.pc, halts := true }
  | .alu op, [.reg a, .reg b, .reg save] =>
    match op.eval (m.reg a) (m.reg b) with
    | some v => .ok { next, sets := [(save, v)] }
    | none => .error (.divisionByZero m.pc)
  | .mov, [.reg src, .pad, .reg save] => .ok { next, sets := [(save, m.reg src)] }
  | .imm, [.reg save, .imm16 v] => .ok { next, sets := [(save, v)] }
  | .memr, [.reg addr, .imm8 off, .reg save] =>
    .ok { next, sets := [(save, m.mem.load (m.reg addr + signedOffset off))] }
  | .memw, [.reg addr, .reg value, .imm8 off] =>
    .ok { next, store := some (m.reg addr + signedOffset off, m.reg value) }
  | .push, [.pad, .reg src, .pad] =>
    let top := m.reg .rsp
    .ok { next, store := some (top, m.reg src), sets := [(.rsp, top + 2)] }
  | .pop, [.pad, .pad, .reg save] =>
    let top := m.reg .rsp - 2
    .ok { next, sets := [(.rsp, top), (save, m.mem.load top)] }
  | .jmp, [.imm16 target, .pad] => .ok { next := target }
  | .jmpif, [.reg cond, .imm16 target] => .ok { next := if m.reg cond = 0 then next else target }
  | .jmpr, [.reg target, .pad, .pad] => .ok { next := m.reg target }
  | .word, _ => .error (.executedData m.pc)
  | _, _ => .error (.malformed m.pc)

def apply (m : Machine) (e : Effect) : Machine :=
  let stored : Machine :=
    match e.store with
    | none => m
    | some (addr, v) => { m with mem := m.mem.store addr v }
  let set := e.sets.foldl (fun m (r, v) => m.setReg r v) stored
  { set with pc := e.next, halted := set.halted || e.halts }

def fetch (m : Machine) : Except DecodeError Instruction :=
  Instruction.decode m.pc.toNat (m.mem.window m.pc)

def exec (m : Machine) : Except Fault Instruction × Machine :=
  match m.fetch with
  | .error e => (.error (.decode e), m)
  | .ok i =>
    match m.effect i with
    | .error fault => (.error fault, m)
    | .ok e => (.ok i, m.apply e)

inductive Exit where
  | halted
  | timeout
  deriving DecidableEq, Repr

/-- Execute until the machine stops, an instruction faults, or a number of steps is used up. -/
def run : Nat → Machine → Except Fault Exit × Machine
  | 0, m => (.ok (if m.halted then .halted else .timeout), m)
  | steps + 1, m =>
    if m.halted then (.ok .halted, m)
    else
      match m.exec with
      | (.ok _, m) => run steps m
      | (.error fault, m) => (.error fault, m)

end Machine

end StackToolchain
