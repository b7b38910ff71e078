import StackToolchain.Table

/-! Stack frames, and the supplies of frame slots and label names that code generation draws on. -/
namespace StackToolchain

structure FrameSlot where
  name : String
  offset : Int8
  deriving DecidableEq, Repr

structure Frame where
  size : UInt16
  args : List FrameSlot
  locals : List FrameSlot
  deriving DecidableEq, Repr

/-- The supply of local slots of a function: 0, 2, 4 and so on. -/
structure SlotSupply where
  next : Nat := 0
  deriving DecidableEq, Repr

def SlotSupply.allocate (slots : SlotSupply) : Nat × SlotSupply :=
  (slots.next, ⟨slots.next + 2⟩)

def SlotSupply.size (slots : SlotSupply) : UInt16 :=
  slots.next.toUInt16

def frameOffset? (offset : Int) : Option Int8 :=
  if -128 ≤ offset ∧ offset ≤ 127 then some (Int8.ofInt offset) else none

structure LabelSupply where
  next : Nat := 0
  deriving DecidableEq, Repr

def LabelSupply.request (ids : LabelSupply) : Nat × LabelSupply :=
  (ids.next, ⟨ids.next + 1⟩)

def LabelSupply.fresh (ids : LabelSupply) (stem : String) : String × LabelSupply :=
  let (id, ids) := ids.request
  (stem ++ "_" ++ toString id, ids)

def functionLabel (name : String) : String :=
  "func_" ++ name

def returnLabel (name : String) : String :=
  "return_" ++ name

def globalLabel (name : String) : String :=
  "var_" ++ name

end StackToolchain
