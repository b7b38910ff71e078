/-! The eight registers of the machine. -/
namespace StackToolchain

/-- `RRET` holds the last value, `RADDR` the addresses of global variables and of returns, and `REXPR` a left operand.
`RSB` is the base of the current frame and `RSP` the first free address of the stack. -/
inductive Register where
  | rret
  | raddr
  | r2
  | r3
  | r4
  | rexpr
  | rsb
  | rsp
  deriving DecidableEq, Repr

namespace Register

def all : List Register :=
  [rret, raddr, r2, r3, r4, rexpr, rsb, rsp]

def index : Register → Fin 8
  | rret => 0
  | raddr => 1
  | r2 => 2
  | r3 => 3
  | r4 => 4
  | rexpr => 5
  | rsb => 6
  | rsp => 7

def code (r : Register) : UInt8 :=
  UInt8.ofNat r.index

def ofCode? (b : UInt8) : Option Register :=
  all[b.toNat]?

def name : Register → String
  | rret => "RRET"
  | raddr => "RADDR"
  | r2 => "R2"
  | r3 => "R3"
  | r4 => "R4"
  | rexpr => "REXPR"
  | rsb => "RSB"
  | rsp => "RSP"

def ofName? (word : String) : Option Register :=
  all.find? fun r => r.name.toList == word.toList.map Char.toUpper

@[simp] theorem ofCode?_code (r : Register) : ofCode? r.code = some r := by
  cases r <;> rfl

@[simp] theorem ofName?_name (r : Register) : ofName? r.name = some r := by
  cases r <;> decide

def unknownMessage (word : String) : String :=
  "Unknown reg name: " ++ word

end Register

end StackToolchain
