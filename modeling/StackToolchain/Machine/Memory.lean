import StackToolchain.Word

/-! The memory of the machine: every 16-bit address holds a byte, and addresses wrap. -/
namespace StackToolchain

structure Memory where
  bytes : Vector UInt8 0x10000

namespace Memory

def zero : Memory := ⟨Vector.replicate 0x10000 0⟩

def byte (m : Memory) (addr : UInt16) : UInt8 :=
  m.bytes[addr.toFin]

def setByte (m : Memory) (addr : UInt16) (b : UInt8) : Memory :=
  ⟨m.bytes.set addr.toNat b addr.toNat_lt⟩

@[simp] theorem byte_zero (addr : UInt16) : zero.byte addr = 0 := by
  simp [zero, byte]

theorem byte_setByte (m : Memory) (a b : UInt16) (v : UInt8) :
    (m.setByte a v).byte b = if a = b then v else m.byte b := by
  simp [setByte, byte, Vector.getElem_set, UInt16.toNat_inj]

def load (m : Memory) (addr : UInt16) : UInt16 :=
  wordOfBytes (m.byte addr) (m.byte (addr + 1))

def store (m : Memory) (addr : UInt16) (w : UInt16) : Memory :=
  (m.setByte addr w.toUInt8).setByte (addr + 1) (w >>> 8).toUInt8

theorem byte_store (m : Memory) (a b w : UInt16) :
    (m.store a w).byte b =
      if a + 1 = b then (w >>> 8).toUInt8 else if a = b then w.toUInt8 else m.byte b := by
  simp only [store, byte_setByte]

@[simp] theorem load_store (m : Memory) (a w : UInt16) : (m.store a w).load a = w := by
  have apart : a + 1 ≠ a := by
    intro h
    simp at h
  simp [load, byte_store, apart]

/-- The bytes from an address on: at most four, the length of the longest instruction, and none past the last
address. -/
def window (m : Memory) (addr : UInt16) : List UInt8 :=
  (List.range 4).filterMap fun k => m.bytes[addr.toNat + k]?

def ofImage (image : List UInt8) (fits : image.length ≤ 0x10000) : Memory :=
  ⟨⟨(image ++ List.replicate (0x10000 - image.length) 0).toArray, by simp; omega⟩⟩

end Memory

end StackToolchain
