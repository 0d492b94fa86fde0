import Ceblar.Lib.Word

/-! # Bytes of words

The little-endian layout in which a packed structure keeps its 32-bit fields.
-/

namespace Ceblar

def byteOf (w : Word) (k : Nat) : Byte := w.extractLsb' (8 * k) 8

def le32 (b0 b1 b2 b3 : Byte) : Word := b3 ++ b2 ++ b1 ++ b0

theorem le32_byteOf (w : Word) : le32 (byteOf w 0) (byteOf w 1) (byteOf w 2) (byteOf w 3) = w := by
  apply BitVec.eq_of_getLsbD_eq
  intro i hi
  simp only [le32, byteOf, BitVec.getLsbD_append, BitVec.getLsbD_extractLsb']
  interval_cases i <;> simp

end Ceblar
