import Mathlib.Algebra.BigOperators.Group.List.Basic
import Mathlib.Algebra.GroupWithZero.Nat
import Mathlib.Data.Nat.ModEq

/-! # One's-complement sums

Addition with the carry added back in.
-/

namespace Ceblar

def onesAdd {w : Nat} (a b : BitVec w) : BitVec w :=
  a + b + if 2 ^ w ≤ a.toNat + b.toNat then 1#w else 0#w

def onesSum {w : Nat} (a : BitVec w) (l : List (BitVec w)) : BitVec w := l.foldl onesAdd a

section

variable {w : Nat} {a b : BitVec w} {l : List (BitVec w)}

theorem toNat_onesAdd (hw : 0 < w) (a b : BitVec w) :
    (onesAdd a b).toNat = if a.toNat + b.toNat < 2 ^ w then a.toNat + b.toNat
      else a.toNat + b.toNat - (2 ^ w - 1) := by
  have ha := a.isLt
  have hb := b.isLt
  have hone : (1#w).toNat = 1 := by
    rw [BitVec.toNat_ofNat, Nat.mod_eq_of_lt (Nat.one_lt_two_pow hw.ne')]
  unfold onesAdd
  by_cases hcarry : 2 ^ w ≤ a.toNat + b.toNat
  · rw [if_pos hcarry, if_neg (by omega), BitVec.toNat_add, BitVec.toNat_add, hone,
      Nat.mod_eq_sub_mod hcarry, Nat.mod_eq_of_lt (show a.toNat + b.toNat - 2 ^ w < 2 ^ w by omega),
      Nat.mod_eq_of_lt (by omega)]
    omega
  · rw [if_neg hcarry, if_pos (by omega), BitVec.add_zero, BitVec.toNat_add, Nat.mod_eq_of_lt (by omega)]

theorem onesAdd_modEq (hw : 0 < w) (a b : BitVec w) :
    (onesAdd a b).toNat ≡ a.toNat + b.toNat [MOD 2 ^ w - 1] := by
  rw [toNat_onesAdd hw]
  split
  · exact Nat.ModEq.rfl
  · rename_i hcarry
    have hmod : a.toNat + b.toNat - (2 ^ w - 1) + (2 ^ w - 1) ≡ a.toNat + b.toNat - (2 ^ w - 1)
        [MOD 2 ^ w - 1] :=
      Nat.add_mod_right _ _
    rw [Nat.sub_add_cancel (by omega)] at hmod
    exact hmod.symm

theorem onesAdd_eq_zero (hw : 0 < w) : onesAdd a b = 0#w ↔ a = 0#w ∧ b = 0#w := by
  have ha := a.isLt
  have hb := b.isLt
  have htwo := Nat.one_lt_two_pow hw.ne'
  rw [← BitVec.toNat_inj, ← BitVec.toNat_inj, ← BitVec.toNat_inj, toNat_onesAdd hw, BitVec.toNat_zero]
  split <;> omega

theorem onesSum_cons (a b : BitVec w) (l : List (BitVec w)) :
    onesSum a (b :: l) = onesSum (onesAdd a b) l := rfl

theorem onesSum_modEq (hw : 0 < w) (a : BitVec w) (l : List (BitVec w)) :
    (onesSum a l).toNat ≡ a.toNat + (l.map BitVec.toNat).sum [MOD 2 ^ w - 1] := by
  induction l generalizing a with
  | nil => exact Nat.ModEq.rfl
  | cons b l ih =>
    rw [onesSum_cons, List.map_cons, List.sum_cons, ← Nat.add_assoc]
    exact (ih (onesAdd a b)).trans ((onesAdd_modEq hw a b).add_right _)

theorem onesSum_eq_zero (hw : 0 < w) : onesSum a l = 0#w ↔ a = 0#w ∧ ∀ b ∈ l, b = 0#w := by
  induction l generalizing a with
  | nil => simp [onesSum]
  | cons b l ih => rw [onesSum_cons, ih, onesAdd_eq_zero hw, List.forall_mem_cons, and_assoc]

theorem onesSum_eq_allOnes (hw : 0 < w) (hmod : (l.map BitVec.toNat).sum ≡ 0 [MOD 2 ^ w - 1])
    (hsome : ∃ b ∈ l, b ≠ 0#w) : onesSum 0#w l = BitVec.allOnes w := by
  have hne : onesSum 0#w l ≠ 0#w := by
    intro h0
    obtain ⟨b, hb, hb0⟩ := hsome
    exact hb0 (((onesSum_eq_zero hw).mp h0).2 b hb)
  have hsum := onesSum_modEq hw 0#w l
  rw [BitVec.toNat_zero, Nat.zero_add] at hsum
  obtain ⟨k, hk⟩ := (Nat.modEq_zero_iff_dvd).mp (hsum.trans hmod)
  have hlt := (onesSum 0#w l).isLt
  have hpos : (onesSum 0#w l).toNat ≠ 0 := fun h => hne (BitVec.eq_of_toNat_eq h)
  have hk1 : k = 1 := by
    rcases Nat.lt_trichotomy k 1 with h | h | h
    · obtain rfl : k = 0 := by omega
      exact absurd hk hpos
    · exact h
    · have hle : (2 ^ w - 1) * 2 ≤ (2 ^ w - 1) * k := Nat.mul_le_mul_left _ h
      have htwo := Nat.one_lt_two_pow hw.ne'
      omega
  apply BitVec.eq_of_toNat_eq
  rw [hk, hk1, Nat.mul_one, BitVec.toNat_allOnes]

end

end Ceblar
