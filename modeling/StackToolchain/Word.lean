/-! Sixteen-bit words as pairs of bytes, the low byte first. -/
namespace StackToolchain

/-- The two bytes of a word, the low one first. -/
def wordBytes (w : UInt16) : List UInt8 :=
  [w.toUInt8, (w >>> 8).toUInt8]

def wordOfBytes (lo hi : UInt8) : UInt16 :=
  lo.toUInt16 ||| hi.toUInt16 <<< 8

@[simp] theorem length_wordBytes (w : UInt16) : (wordBytes w).length = 2 := rfl

@[simp] theorem toUInt8_wordOfBytes (lo hi : UInt8) : (wordOfBytes lo hi).toUInt8 = lo := by
  apply UInt8.toBitVec_inj.1
  ext i h
  simp [wordOfBytes]

@[simp] theorem toUInt8_shift_wordOfBytes (lo hi : UInt8) : (wordOfBytes lo hi >>> 8).toUInt8 = hi := by
  apply UInt8.toBitVec_inj.1
  ext i h
  simp [wordOfBytes]
  grind

@[simp] theorem wordOfBytes_toUInt8 (w : UInt16) : wordOfBytes w.toUInt8 (w >>> 8).toUInt8 = w := by
  apply UInt16.toBitVec_inj.1
  simp only [wordOfBytes, UInt16.toBitVec_or, UInt16.toBitVec_shiftLeft, UInt16.toBitVec_shiftRight,
    UInt8.toBitVec_toUInt16, UInt16.toBitVec_toUInt8]
  ext i h
  simp
  grind

def signedOffset (v : Int8) : UInt16 :=
  v.toInt16.toUInt16

end StackToolchain
