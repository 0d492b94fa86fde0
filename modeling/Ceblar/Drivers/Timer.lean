import Ceblar.Scheduler.Run
import Mathlib.Algebra.Order.Floor.Div
import Mathlib.Logic.Function.Iterate

/-! # The clock (`drivers/timer/pit.c`)

Both 32-bit products overflow after 2^32 / 1000 ticks, long before their quotients do.
-/

namespace Ceblar

open BitVec (ofNat toNat_add toNat_ofNat)

/-- `pit_init`: the bytes for the ports `0x43` and `0x40`, and the new frequency. -/
def pitInit (hz : Word) (k : Kernel) : List (Word × Byte) × Kernel :=
  let hz := if hz = 0 then 100 else hz
  let d : BitVec 16 := (1193182 / hz).setWidth 16
  ([(0x43, 0x36), (0x40, d.setWidth 8), (0x40, (d >>> 8).setWidth 8)], { k with timerHz := hz })

/-- `while(uptime_ticks<target) hlt`, and how many timer interrupts there were when it ended. The list
has their number for each `hlt`: 0 if another interrupt ended it, more than 1 if the loop was late. -/
def haltUntil (target : Word) : List Nat → Kernel → Option (Nat × Kernel)
  | [], k => if k.uptimeTicks < target then none else some (0, k)
  | n :: hlts, k =>
    if k.uptimeTicks < target then
      (haltUntil target hlts (timerIrq^[n] k)).map fun (m, k) => (n + m, k)
    else some (0, k)

def ksleepMs (ms : Word) (hlts : List Nat) (k : Kernel) : Option (Nat × Kernel) :=
  haltUntil (k.uptimeTicks + (ms * k.timerHz + 999) / 1000) hlts k

def Kernel.exactMs (k : Kernel) : Nat := k.uptimeTicks.toNat * 1000 / k.timerHz.toNat

def Kernel.ticksOf (k : Kernel) (ms : Word) : Nat := (ms.toNat * k.timerHz.toNat) ⌈/⌉ 1000

/-- Whatever interrupts come, the call does not return before `ms` milliseconds. -/
def SleepsFor (ms : Word) (k : Kernel) : Prop :=
  ∀ hlts n k', ksleepMs ms hlts k = some (n, k') → k.ticksOf ms ≤ n

/-! ## Products that overflow -/

theorem mod_div_eq_iff {x d : Nat} (hd : 0 < d) (hlt : d < 2 ^ 32) :
    x % 2 ^ 32 / d = x / d ↔ x < 2 ^ 32 := by
  constructor
  · intro h
    by_contra hx
    have hsplit := Nat.mod_add_div x (2 ^ 32)
    have hq : 1 ≤ x / 2 ^ 32 := Nat.div_pos (Nat.le_of_not_lt hx) (by decide)
    have hlost : x % 2 ^ 32 + d ≤ x := by omega
    have := Nat.div_le_div_right (c := d) hlost
    rw [Nat.add_div_right _ hd] at this
    omega
  · intro h
    rw [Nat.mod_eq_of_lt h]

section

variable {k k' : Kernel}

theorem pitInit_hz_pos (hz : Word) (k : Kernel) : 0 < (pitInit hz k).2.timerHz.toNat := by
  unfold pitInit
  dsimp only
  split
  · decide
  · rename_i h
    exact Nat.pos_of_ne_zero fun hz => h (BitVec.eq_of_toNat_eq hz)

theorem uptimeMs_exact_iff (hz : 0 < k.timerHz.toNat) :
    (timerUptimeMs k).toNat = k.exactMs ↔ k.uptimeTicks.toNat * 1000 < 2 ^ 32 := by
  unfold timerUptimeMs Kernel.exactMs
  rw [BitVec.toNat_udiv, BitVec.toNat_mul]
  exact mod_div_eq_iff hz k.timerHz.isLt

theorem irqs_uptimeTicks (n : Nat) (k : Kernel) :
    (timerIrq^[n] k).uptimeTicks = k.uptimeTicks + ofNat 32 n := by
  induction n generalizing k with
  | zero => simp
  | succ n ih =>
    rw [Function.iterate_succ_apply, ih, BitVec.ofNat_add, BitVec.add_comm (ofNat 32 n),
      ← BitVec.add_assoc]
    rfl

theorem irqs_timerHz (n : Nat) (k : Kernel) : (timerIrq^[n] k).timerHz = k.timerHz := by
  induction n generalizing k with
  | zero => rfl
  | succ n ih =>
    rw [Function.iterate_succ_apply, ih]
    rfl

theorem uptimeMs_mono (hz : 0 < k.timerHz.toNat) {n : Nat}
    (h : (k.uptimeTicks.toNat + n) * 1000 < 2 ^ 32) :
    timerUptimeMs k ≤ timerUptimeMs (timerIrq^[n] k) := by
  have hfit : k.uptimeTicks.toNat * 1000 < 2 ^ 32 :=
    lt_of_le_of_lt (Nat.mul_le_mul_right _ (Nat.le_add_right _ n)) h
  have hticks : (timerIrq^[n] k).uptimeTicks.toNat = k.uptimeTicks.toNat + n := by
    rw [irqs_uptimeTicks, toNat_add, toNat_ofNat]
    omega
  have hnow := (uptimeMs_exact_iff hz).mpr hfit
  have hlater := (uptimeMs_exact_iff (k := timerIrq^[n] k) (by rwa [irqs_timerHz])).mpr (hticks.symm ▸ h)
  rw [BitVec.le_def, hnow, hlater]
  unfold Kernel.exactMs
  rw [hticks, irqs_timerHz]
  exact Nat.div_le_div_right (by omega)

variable {target : Word}

theorem haltUntil_spec {hlts : List Nat} {n : Nat} (h : haltUntil target hlts k = some (n, k')) :
    k'.uptimeTicks = k.uptimeTicks + ofNat 32 n ∧ target ≤ k'.uptimeTicks := by
  induction hlts generalizing k n with
  | nil =>
    unfold haltUntil at h
    split at h
    · cases h
    · rename_i hle
      cases h
      exact ⟨by simp, BitVec.not_lt.mp hle⟩
  | cons m hlts ih =>
    unfold haltUntil at h
    split at h
    · obtain ⟨⟨n', k1⟩, hrest, he⟩ := Option.map_eq_some_iff.mp h
      cases he
      obtain ⟨hticks, hle⟩ := ih hrest
      refine ⟨?_, hle⟩
      rw [hticks, irqs_uptimeTicks, BitVec.ofNat_add, BitVec.add_assoc]
    · rename_i hle
      cases h
      exact ⟨by simp, BitVec.not_lt.mp hle⟩

theorem haltUntil_ticks {w : Nat} (hfit : k.uptimeTicks.toNat + w < 2 ^ 32)
    (ht : target = k.uptimeTicks + ofNat 32 w) :
    ∃ k', haltUntil target (List.replicate w 1) k = some (w, k') := by
  subst ht
  induction w generalizing k with
  | zero => exact ⟨k, by simp [haltUntil]⟩
  | succ w ih =>
    have hlt : k.uptimeTicks < k.uptimeTicks + ofNat 32 (w + 1) := by
      rw [BitVec.lt_def, toNat_add, toNat_ofNat]
      omega
    have hirq : (timerIrq k).uptimeTicks.toNat = k.uptimeTicks.toNat + 1 := by
      unfold timerIrq
      dsimp only
      rw [toNat_add]
      change (_ + 1) % _ = _
      omega
    obtain ⟨k', h⟩ := ih (k := timerIrq k) (by omega)
    refine ⟨k', ?_⟩
    have hnext : (timerIrq k).uptimeTicks + ofNat 32 w = k.uptimeTicks + ofNat 32 (w + 1) := by
      rw [BitVec.ofNat_add, BitVec.add_comm (ofNat 32 w), ← BitVec.add_assoc]
      rfl
    rw [List.replicate_succ, haltUntil, if_pos hlt, Function.iterate_one, ← hnext, h, Nat.add_comm]
    rfl

theorem sleepsFor_iff (ms : Word) (k : Kernel) :
    SleepsFor ms k ↔ ms.toNat * k.timerHz.toNat + 999 < 2 ^ 32 ∧
      k.uptimeTicks.toNat + (ms.toNat * k.timerHz.toNat + 999) / 1000 < 2 ^ 32 := by
  -- `w` is how far away the target is, `x` the exact dividend
  obtain ⟨x, hx⟩ : ∃ x, x = ms.toNat * k.timerHz.toNat + 999 := ⟨_, rfl⟩
  have hexact : k.ticksOf ms = x / 1000 := by
    unfold Kernel.ticksOf
    rw [Nat.ceilDiv_eq_add_pred_div, hx]
    rfl
  obtain ⟨w, hw⟩ : ∃ w, w = x % 2 ^ 32 / 1000 := ⟨_, rfl⟩
  have hwait : (ms * k.timerHz + 999) / 1000 = ofNat 32 w := by
    apply BitVec.eq_of_toNat_eq
    rw [BitVec.toNat_udiv, toNat_add, BitVec.toNat_mul, toNat_ofNat, hw, hx]
    change (_ % _ + 999) % _ / 1000 = _
    rw [Nat.mod_add_mod, Nat.mod_eq_of_lt (a := _ / 1000)]
    omega
  have hwx : w = x / 1000 ↔ x < 2 ^ 32 := hw ▸ mod_div_eq_iff (by decide) (by decide)
  have hle : w ≤ x / 1000 := hw ▸ Nat.div_le_div_right (Nat.mod_le _ _)
  have hlt : w < 2 ^ 32 := by omega
  unfold SleepsFor ksleepMs
  rw [hexact, hwait, ← hx, ← hwx]
  constructor
  · intro h
    by_cases hfit : k.uptimeTicks.toNat + w < 2 ^ 32
    · obtain ⟨k', hrun⟩ := haltUntil_ticks hfit rfl
      have := h _ _ _ hrun
      exact ⟨by omega, by omega⟩
    · -- the target is behind: the loop ends at once
      have hback : ¬k.uptimeTicks < k.uptimeTicks + ofNat 32 w := by
        rw [BitVec.lt_def, toNat_add, toNat_ofNat]
        have := k.uptimeTicks.isLt
        omega
      have := h [] 0 k (by rw [haltUntil, if_neg hback])
      have := k.uptimeTicks.isLt
      omega
  · rintro ⟨he, hfit⟩ hlts n k' hrun
    obtain ⟨hticks, hend⟩ := haltUntil_spec hrun
    rw [hticks, BitVec.le_def, toNat_add, toNat_add, toNat_ofNat, toNat_ofNat] at hend
    have := k.uptimeTicks.isLt
    by_contra hn
    omega

end

/-- A clock started by `pit_init`, at any tick: what it shows is exact, and no sleep is too short,
exactly if the 32-bit products are. -/
theorem clock_scales_iff (hz : Word) (k₀ : Kernel) (ms : Word) :
    let k := (pitInit hz k₀).2
    ((timerUptimeMs k).toNat = k.exactMs ↔ k.uptimeTicks.toNat * 1000 < 2 ^ 32) ∧
    (∀ n, (k.uptimeTicks.toNat + n) * 1000 < 2 ^ 32 → timerUptimeMs k ≤ timerUptimeMs (timerIrq^[n] k)) ∧
    (SleepsFor ms k ↔ ms.toNat * k.timerHz.toNat + 999 < 2 ^ 32 ∧
      k.uptimeTicks.toNat + (ms.toNat * k.timerHz.toNat + 999) / 1000 < 2 ^ 32) := by
  have hpos := pitInit_hz_pos hz k₀
  exact ⟨uptimeMs_exact_iff hpos, fun n h => uptimeMs_mono hpos h, sleepsFor_iff ms _⟩

def upFor (ticks : Word) : Kernel := (pitInit 100 { coldKernel with uptimeTicks := ticks }).2

/-- Twelve hours up, the clock shows 7 ms and has gone back; a sleep of twelve hours ends with the
first tick. -/
theorem clock_wraps : (upFor 4294968).exactMs = 42949680 ∧ timerUptimeMs (upFor 4294968) = 7 ∧
    timerUptimeMs (upFor 4294968) < timerUptimeMs (upFor 4294967) ∧
    (ksleepMs 42949673 [1] (upFor 0)).map Prod.fst = some 1 ∧ (upFor 0).ticksOf 42949673 = 4294968 := by
  refine ⟨by decide +kernel, by decide +kernel, by decide +kernel, by decide +kernel, ?_⟩
  unfold Kernel.ticksOf
  rw [Nat.ceilDiv_eq_add_pred_div]
  decide +kernel

end Ceblar
