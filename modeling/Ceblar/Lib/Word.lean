import Mathlib.Data.Nat.Bitwise
import Mathlib.Tactic.IntervalCases

/-! # 32-bit words

The masks and shifts that page-table code is made of, read as arithmetic on `toNat`,
so that `omega` can finish from there.
-/

namespace Ceblar

abbrev Word := BitVec 32

abbrev Byte := BitVec 8

/-! ## Parts of an address -/

def pageNumber (v : Word) : Nat := (v >>> 12).toNat

def pageBase (v : Word) : Word := v &&& ~~~0xfff#32

def offset (v : Word) : Nat := (v &&& 0xfff#32).toNat

theorem toNat_shiftRight (v : Word) (n : Nat) : (v >>> n).toNat = v.toNat / 2 ^ n := by
  rw [BitVec.toNat_ushiftRight, Nat.shiftRight_eq_div_pow]

theorem pageNumber_eq (v : Word) : pageNumber v = v.toNat / 4096 := toNat_shiftRight v 12

theorem toNat_and_mask (v : Word) (n : Nat) (m : Word) (hm : m.toNat = 2 ^ n - 1) :
    (v &&& m).toNat = v.toNat % 2 ^ n := by
  rw [BitVec.toNat_and, hm, Nat.and_two_pow_sub_one_eq_mod]

theorem offset_eq (v : Word) : offset v = v.toNat % 4096 := toNat_and_mask v 12 0xfff#32 rfl

theorem offset_lt (v : Word) : offset v < 4096 := by
  rw [offset_eq]
  exact Nat.mod_lt _ (by omega)

theorem pageBase_eq_shift (v : Word) : pageBase v = (v >>> 12) <<< 12 := by
  unfold pageBase
  ext i hi
  simp only [BitVec.getElem_and, BitVec.getElem_not, BitVec.getElem_shiftLeft]
  interval_cases i <;> simp

theorem toNat_pageBase (v : Word) : (pageBase v).toNat = pageNumber v * 4096 := by
  have := v.isLt
  rw [pageBase_eq_shift, BitVec.toNat_shiftLeft, toNat_shiftRight, pageNumber_eq,
    Nat.shiftLeft_eq]
  exact Nat.mod_eq_of_lt (by omega)

@[simp] theorem pageNumber_pageBase (v : Word) : pageNumber (pageBase v) = pageNumber v := by
  rw [pageNumber_eq, toNat_pageBase]
  omega

@[simp] theorem pageBase_pageBase (v : Word) : pageBase (pageBase v) = pageBase v := by
  apply BitVec.eq_of_toNat_eq
  rw [toNat_pageBase, pageNumber_pageBase, toNat_pageBase]

theorem pageBase_eq_zero (v : Word) : pageBase v = 0 ↔ pageNumber v = 0 := by
  rw [← BitVec.toNat_inj, toNat_pageBase]
  simp

theorem pageNumber_ofNat (f : Nat) (h : f < 1048576) :
    pageNumber (BitVec.ofNat 32 (f * 4096)) = f := by
  rw [pageNumber_eq, BitVec.toNat_ofNat]
  omega

/-! ## One bit -/

def bit (v : Word) (k : Nat) : Bool := v.getLsbD k

@[simp] theorem bit_or (v w : Word) (k : Nat) : bit (v ||| w) k = (bit v k || bit w k) :=
  BitVec.getLsbD_or

@[simp] theorem bit_and (v w : Word) (k : Nat) : bit (v &&& w) k = (bit v k && bit w k) :=
  BitVec.getLsbD_and

theorem bit_not (v : Word) (k : Nat) : bit (~~~v) k = (decide (k < 32) && !bit v k) :=
  BitVec.getLsbD_not

@[simp] theorem bit_zero (k : Nat) : bit 0#32 k = false := BitVec.getLsbD_zero

theorem and_twoPow_ne_zero (v : Word) (k : Nat) (hk : k < 32) :
    v &&& BitVec.twoPow 32 k ≠ 0 ↔ bit v k = true := by
  rw [BitVec.and_twoPow, bit]
  split <;> rename_i h
  · simp only [h, iff_true]
    intro h0
    have := congrArg (fun w : Word => w.getLsbD k) h0
    simp [hk] at this
  · simp [h]

theorem or_twoPow_of_bit {v : Word} (k : Nat) (h : bit v k = true) : v ||| BitVec.twoPow 32 k = v := by
  apply BitVec.eq_of_getLsbD_eq
  intro i _
  rw [BitVec.getLsbD_or, BitVec.getLsbD_twoPow]
  by_cases hi : k = i
  · subst hi
    simp only [bit] at h
    simp [h]
  · simp [hi]

theorem bit_twoPow (j k : Nat) (hj : j < 32) : bit (BitVec.twoPow 32 j) k = decide (k = j) := by
  rw [bit, BitVec.getLsbD_twoPow]
  simp [hj, eq_comm]

@[simp] theorem bit_pageBase (v : Word) (k : Nat) :
    bit (pageBase v) k = (decide (12 ≤ k) && bit v k) := by
  rw [pageBase_eq_shift]
  unfold bit
  by_cases hk : k < 32
  · by_cases h12 : 12 ≤ k
    · simp [h12, hk, show ¬ k < 12 by omega, show 12 + (k - 12) = k by omega]
    · simp [h12, show k < 12 by omega]
  · simp [hk, BitVec.getLsbD_of_ge v k (by omega)]

@[simp] theorem bit_mask (k : Nat) : bit 0xfff#32 k = decide (k < 12) := by
  unfold bit
  by_cases hk : k < 32
  · interval_cases k <;> rfl
  · rw [BitVec.getLsbD_of_ge _ k (by omega)]
    simp
    omega

theorem pageNumber_or (v w : Word) : pageNumber (v ||| w) = pageNumber v ||| pageNumber w := by
  simp only [pageNumber, BitVec.ushiftRight_or_distrib, BitVec.toNat_or]

theorem pageNumber_of_lt (w : Word) (h : w.toNat < 4096) : pageNumber w = 0 := by
  rw [pageNumber_eq]
  omega

theorem pageNumber_base_or (v w : Word) (h : w.toNat < 4096) :
    pageNumber (pageBase v ||| w) = pageNumber v := by
  rw [pageNumber_or, pageNumber_pageBase, pageNumber_of_lt w h, Nat.or_zero]

theorem or_lt (v w : Word) (hv : v.toNat < 4096) (hw : w.toNat < 4096) : (v ||| w).toNat < 4096 := by
  rw [BitVec.toNat_or]
  exact Nat.or_lt_two_pow (n := 12) hv hw

end Ceblar
