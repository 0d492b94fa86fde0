import Mathlib.Data.Fintype.Pigeonhole
import Mathlib.Data.Int.GCD
import Mathlib.Data.Nat.ModEq

/-! # Walks

On finitely many states a walk comes to an end if and only if it meets no state twice.
-/

namespace Ceblar

def walkAt {α : Type*} (next : α → Option α) : Nat → α → Option α
  | 0, a => some a
  | n + 1, a => (next a).bind (walkAt next n)

section

variable {α : Type*} {next : α → Option α} {a b : α}

theorem walkAt_add (i j : Nat) : walkAt next (i + j) a = (walkAt next i a).bind (walkAt next j) := by
  induction i generalizing a with
  | zero => rw [Nat.zero_add, walkAt, Option.bind_some]
  | succ i ih =>
    rw [Nat.succ_add, walkAt, walkAt]
    cases next a with
    | none => rfl
    | some c => exact ih

theorem walkAt_none {i j : Nat} (h : walkAt next i a = none) (hij : i ≤ j) : walkAt next j a = none := by
  obtain ⟨d, rfl⟩ := Nat.exists_eq_add_of_le hij
  rw [walkAt_add, h, Option.bind_none]

theorem walkAt_cycle {d : Nat} (h : walkAt next d b = some b) (k : Nat) :
    walkAt next (k * d) b = some b := by
  induction k with
  | zero => rw [Nat.zero_mul, walkAt]
  | succ k ih => rw [Nat.succ_mul, walkAt_add, ih, Option.bind_some, h]

theorem walkAt_ends_iff [Finite α] :
    (∃ n, walkAt next n a = none) ↔ ∀ i j b, i < j → walkAt next i a = some b →
    walkAt next j a ≠ some b := by
  constructor
  · rintro ⟨n, hn⟩ i j b hij hi hj
    obtain ⟨d, hd⟩ := Nat.exists_eq_add_of_lt hij
    rw [hd, Nat.add_assoc, walkAt_add, hi, Option.bind_some] at hj
    have hlong : n ≤ i + n * (d + 1) := by
      rw [Nat.mul_succ]
      omega
    have hback : walkAt next (i + n * (d + 1)) a = some b := by
      rw [walkAt_add, hi, Option.bind_some, walkAt_cycle hj]
    rw [walkAt_none hn hlong] at hback
    cases hback
  · intro honce
    by_contra hgoes
    have hstate : ∀ n, ∃ b, walkAt next n a = some b := fun n =>
      Option.ne_none_iff_exists'.mp fun h => hgoes ⟨n, h⟩
    choose state hat using hstate
    obtain ⟨i, j, hne, heq⟩ := Finite.exists_ne_map_eq_of_infinite state
    rcases Nat.lt_or_gt_of_ne hne with hij | hij
    · exact honce i j _ hij (hat i) (by rw [hat j, heq])
    · exact honce j i _ hij (hat j) (by rw [hat i, heq])

end

section

variable {w : Nat} {start stop step : BitVec w}

theorem toNat_stride (k : Nat) :
    (start + BitVec.ofNat w k * step).toNat = (start.toNat + k * step.toNat) % 2 ^ w := by
  rw [BitVec.toNat_add, BitVec.toNat_mul, BitVec.toNat_ofNat, Nat.mod_mul_mod, Nat.add_mod_mod]

theorem exists_stride_gcd (s : Nat) {m : Nat} (hm : 0 < m) : ∃ k, k * s ≡ s.gcd m [MOD m] := by
  by_cases hlt : s.gcd m < m
  · obtain ⟨k, -, hk⟩ := Nat.exists_mul_mod_eq_gcd hlt
    refine ⟨k, ?_⟩
    rw [Nat.ModEq, Nat.mul_comm, hk, Nat.mod_eq_of_lt hlt]
  · have heq : s.gcd m = m := Nat.le_antisymm (Nat.gcd_le_right s hm) (Nat.not_lt.mp hlt)
    refine ⟨0, ?_⟩
    rw [Nat.zero_mul, heq]
    exact (Nat.modEq_zero_iff_dvd.mpr (Nat.dvd_refl m)).symm

theorem le_greatest {e g q : Nat} (h : e < g * q) : e + g ≤ g * q + e % g := by
  have hdiv : e / g + 1 ≤ q := Nat.div_lt_of_lt_mul h
  have hmul := Nat.mul_le_mul_left g hdiv
  have hsplit := Nat.div_add_mod e g
  rw [Nat.mul_succ] at hmul
  omega

theorem stride_reaches_iff :
    (∃ k : Nat, stop ≤ start + BitVec.ofNat w k * step) ↔
      stop.toNat + step.toNat.gcd (2 ^ w) ≤ 2 ^ w + start.toNat % step.toNat.gcd (2 ^ w) := by
  obtain ⟨q, hq⟩ := Nat.gcd_dvd_right step.toNat (2 ^ w)
  have hstep := Nat.gcd_dvd_left step.toNat (2 ^ w)
  obtain ⟨m, hm⟩ := exists_stride_gcd step.toNat (Nat.two_pow_pos w)
  have hstart := start.isLt
  generalize step.toNat.gcd (2 ^ w) = g at *
  constructor
  · rintro ⟨k, hk⟩
    have hlt := (start + BitVec.ofNat w k * step).isLt
    have hmod : (start + BitVec.ofNat w k * step).toNat % g = start.toNat % g := by
      obtain ⟨c, hc⟩ := hstep
      rw [toNat_stride, hq, Nat.mod_mul_right_mod, hc, Nat.mul_left_comm, Nat.add_mul_mod_self_left]
    have hgreatest := le_greatest (hq ▸ hlt)
    rw [← hmod]
    have hk : stop.toNat ≤ _ := hk
    omega
  · intro hstop
    have hdiv : start.toNat / g < q := Nat.div_lt_of_lt_mul (hq ▸ hstart)
    have hsplit := Nat.div_add_mod start.toNat g
    have hrest : start.toNat % g < g := Nat.mod_lt _ (Nat.pos_of_mul_pos_right (hq ▸ Nat.two_pow_pos w))
    generalize start.toNat / g = d at hdiv hsplit
    generalize start.toNat % g = r at hsplit hrest hstop
    obtain ⟨j, rfl⟩ := Nat.exists_eq_add_of_lt hdiv
    have hplace : start.toNat + j * g = g * (d + j) + r := by
      rw [Nat.mul_add, Nat.mul_comm g j]
      omega
    have hmet : start.toNat + j * m * step.toNat ≡ g * (d + j) + r [MOD 2 ^ w] := by
      rw [← hplace, Nat.mul_assoc]
      exact (hm.mul_left j).add_left _
    rw [Nat.mul_succ] at hq
    refine ⟨j * m, ?_⟩
    rw [BitVec.le_def, toNat_stride, hmet, Nat.mod_eq_of_lt (by omega)]
    omega

end

end Ceblar
