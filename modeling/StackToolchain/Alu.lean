/-! The two-operand operations of the machine. Words wrap at sixteen bits; division, remainder and the order
comparisons read their operands as signed. -/
namespace StackToolchain

inductive AluOp where
  | add
  | sub
  | mul
  | div
  | mod
  | and
  | or
  | xor
  | shl
  | shr
  | eq
  | neq
  | lt
  | gt
  | le
  | ge
  deriving DecidableEq, Repr

namespace AluOp

def all : List AluOp :=
  [add, sub, mul, div, mod, and, or, xor, shl, shr, eq, neq, lt, gt, le, ge]

/-- The result of a signed division, unless the divisor is zero or the quotient is no signed word. -/
def checked (a b result : Int16) : Option Int16 :=
  if b = 0 ∨ (a = Int16.minValue ∧ b = -1) then none else some result

/-- The value of an operation, and nothing for a division or remainder by zero. -/
def eval (op : AluOp) (a b : UInt16) : Option UInt16 :=
  let sa := a.toInt16
  let sb := b.toInt16
  match op with
  | add => some (a + b)
  | sub => some (a - b)
  | mul => some (a * b)
  -- the one quotient that overflows is by minus one, and wraps to its dividend
  | div => (checked sa sb (sa / sb) <|> if sb = -1 then some (-sa) else none).map Int16.toUInt16
  | mod => (checked sa sb (sa % sb) <|> if sb = -1 then some 0 else none).map Int16.toUInt16
  | and => some (a &&& b)
  | or => some (a ||| b)
  | xor => some (a ^^^ b)
  | shl => some (a <<< (b % 16))
  | shr => some (a >>> (b % 16))
  | eq => some (a == b).toUInt16
  | neq => some (a != b).toUInt16
  | lt => some (decide (sa < sb)).toUInt16
  | gt => some (decide (sa > sb)).toUInt16
  | le => some (decide (sa ≤ sb)).toUInt16
  | ge => some (decide (sa ≥ sb)).toUInt16

def name : AluOp → String
  | add => "ADD"
  | sub => "SUB"
  | mul => "MUL"
  | div => "DIV"
  | mod => "MOD"
  | and => "AND"
  | or => "OR"
  | xor => "XOR"
  | shl => "SHL"
  | shr => "SHR"
  | eq => "EQ"
  | neq => "NEQ"
  | lt => "LT"
  | gt => "GT"
  | le => "LE"
  | ge => "GE"

def sign : AluOp → String
  | add => "+"
  | sub => "-"
  | mul => "*"
  | div => "/"
  | mod => "%"
  | and => "&"
  | or => "|"
  | xor => "^"
  | shl => "<<"
  | shr => ">>"
  | eq => "=="
  | neq => "!="
  | lt => "<"
  | gt => ">"
  | le => "<="
  | ge => ">="

end AluOp

end StackToolchain
