import Ceblar.Lib.Memory
import Mathlib.Data.BitVec
import Mathlib.Tactic.LinearCombination
import Mathlib.Tactic.Ring

/-! # Copying and filling loops

A loop that copies byte by byte, upwards or downwards, with any overlap.
-/

namespace Ceblar

open Function
open BitVec (ofNat)

def copyLoop (step : Word) : Nat → Word → Word → Mem → Mem
  | 0, _, _, m => m
  | n + 1, a, b, m => copyLoop step n (a + step) (b + step) (update m a (m b))

def fillLoop (c : Byte) : Nat → Word → Mem → Mem
  | 0, _, m => m
  | n + 1, a, m => fillLoop c n (a + 1) (update m a c)

section

variable {step a b : Word} {n : Nat} {m : Mem}

theorem ofNat_succ (n : Nat) : ofNat 32 (n + 1) = ofNat 32 n + 1 := BitVec.ofNat_add n 1

theorem copyLoop_succ (n : Nat) (a b : Word) (m : Mem) : copyLoop step (n + 1) a b m =
    update (copyLoop step n a b m) (a + step * ofNat 32 n)
      (copyLoop step n a b m (b + step * ofNat 32 n)) := by
  induction n generalizing a b m with
  | zero => simp [copyLoop]
  | succ n ih =>
    have hplace : ∀ c : Word, c + step + step * ofNat 32 n = c + step * ofNat 32 (n + 1) := by
      intro c
      rw [ofNat_succ]
      ring
    rw [copyLoop, ih (a + step) (b + step) _, hplace, hplace]
    rfl

theorem round_eq_iff (hstep : step * step = 1) {k : Nat} (hk : k < 2 ^ 32) (x : Word) :
    x = a + step * ofNat 32 k ↔ (step * (x - a)).toNat = k := by
  constructor
  · rintro rfl
    rw [show step * (a + step * ofNat 32 k - a) = ofNat 32 k by
      linear_combination ofNat 32 k * hstep, BitVec.toNat_ofNat, Nat.mod_eq_of_lt hk]
  · rintro rfl
    rw [BitVec.ofNat_toNat, BitVec.setWidth_eq]
    linear_combination (a - x) * hstep

theorem copyLoop_read (hstep : step * step = 1) (hn : n < 2 ^ 32)
    (hprev : ∀ x, copyLoop step n a b m x = if (step * (x - a)).toNat < n
      then m (b + step * ofNat 32 ((step * (x - a)).toNat % (step * (a - b)).toNat)) else m x) :
    copyLoop step n a b m (b + step * ofNat 32 n) =
      m (b + step * ofNat 32 (n % (step * (a - b)).toNat)) := by
  rw [hprev, show step * (b + step * ofNat 32 n - a) = ofNat 32 n - step * (a - b) by
    linear_combination ofNat 32 n * hstep]
  generalize step * (a - b) = gap
  have hround :
      (ofNat 32 n - gap).toNat = if gap.toNat ≤ n then n - gap.toNat else 2 ^ 32 + n - gap.toNat := by
    have := gap.isLt
    rw [BitVec.toNat_sub, BitVec.toNat_ofNat, Nat.mod_eq_of_lt hn]
    split <;> omega
  have hgap := gap.isLt
  rw [hround]
  by_cases hle : gap.toNat ≤ n
  · rw [if_pos hle]
    by_cases hzero : gap.toNat = 0
    · rw [hzero, if_neg (by omega), Nat.mod_zero]
    · rw [if_pos (by omega), ← Nat.mod_eq_sub_mod hle]
  · rw [if_neg hle, if_neg (by omega), Nat.mod_eq_of_lt (by omega)]

theorem copyLoop_apply (hstep : step * step = 1) (hn : n ≤ 2 ^ 32) (x : Word) :
    copyLoop step n a b m x = if (step * (x - a)).toNat < n
      then m (b + step * ofNat 32 ((step * (x - a)).toNat % (step * (a - b)).toNat)) else m x := by
  induction n generalizing x with
  | zero => rfl
  | succ n ih =>
    have hprev := fun x => ih (by omega) x
    rw [copyLoop_succ, update_apply, copyLoop_read hstep (by omega) hprev]
    by_cases hx : x = a + step * ofNat 32 n
    · have hround := (round_eq_iff hstep (by omega) x).mp hx
      rw [if_pos hx, hround, if_pos (by omega)]
    · have hround := mt (round_eq_iff hstep (by omega) x).mpr hx
      rw [if_neg hx, hprev]
      by_cases hlt : (step * (x - a)).toNat < n
      · rw [if_pos hlt, if_pos (by omega)]
      · rw [if_neg hlt, if_neg (by omega)]

theorem copyLoop_apart (hstep : step * step = 1) (hn : n ≤ 2 ^ 32)
    (hgap : (step * (a - b)).toNat = 0 ∨ n ≤ (step * (a - b)).toNat) (x : Word) :
    copyLoop step n a b m x = if (step * (x - a)).toNat < n then m (b + (x - a)) else m x := by
  rw [copyLoop_apply hstep hn]
  by_cases hx : (step * (x - a)).toNat < n
  · rw [if_pos hx, if_pos hx]
    have hround : (step * (x - a)).toNat % (step * (a - b)).toNat = (step * (x - a)).toNat := by
      rcases hgap with hzero | hle
      · rw [hzero, Nat.mod_zero]
      · exact Nat.mod_eq_of_lt (by omega)
    rw [hround, BitVec.ofNat_toNat, BitVec.setWidth_eq]
    congr 1
    linear_combination (x - a) * hstep
  · rw [if_neg hx, if_neg hx]

theorem fillLoop_apply {c : Byte} (hn : n ≤ 2 ^ 32) (x : Word) :
    fillLoop c n a m x = if (x - a).toNat < n then c else m x := by
  induction n generalizing a m with
  | zero => rfl
  | succ n ih =>
    rw [fillLoop, ih (by omega), update_apply]
    by_cases hx : x = a
    · subst hx
      rw [if_pos rfl, BitVec.sub_self]
      simp
    · have hpos : (x - a).toNat ≠ 0 := by
        intro h0
        exact hx (by bv_omega)
      have hnext : (x - (a + 1)).toNat = (x - a).toNat - 1 := by bv_omega
      rw [if_neg hx, hnext]
      by_cases hlt : (x - a).toNat < n + 1
      · rw [if_pos hlt, if_pos (by omega)]
      · rw [if_neg hlt, if_neg (by omega)]

end

end Ceblar
