import Ceblar.Drivers.Timer
import Ceblar.Kernel.Futex

/-! # Futex timeouts

The clock starts again whenever its product overflows, the comparison is one of signed differences,
and a deadline of 0 means that there is none.
-/

namespace Ceblar

/-! ## One poll -/

def Pcb.wait (p : Pcb) : Bool × ProcState × Word × Word :=
  (p.allocated, p.state, p.futexKey, p.futexDeadline)

def Pcb.TimedOut (p : Pcb) : Prop :=
  (p.state = .ready ∨ p.state = .running) ∧ p.futexKey = 0 ∧ p.futexDeadline = 0

section

variable {k k' : Kernel} {i c : Nat} {now : Word}

theorem due_congr {p q : Pcb} (h : p.wait = q.wait) (now : Word) : p.due now = q.due now := by
  simp only [Pcb.wait, Prod.mk.injEq] at h
  obtain ⟨ha, hs, hk, hd⟩ := h
  simp [Pcb.due, ha, hs, hk, hd]

theorem TimedOut.congr {p q : Pcb} (h : p.wait = q.wait) (hq : q.TimedOut) : p.TimedOut := by
  simp only [Pcb.wait, Prod.mk.injEq] at h
  obtain ⟨-, hs, hk, hd⟩ := h
  simpa [Pcb.TimedOut, hs, hk, hd] using hq

theorem pollSlot_others (h : pollSlot now i k = .ok k') (hc : c ≠ i) :
    (k'.processes c).wait = (k.processes c).wait := by
  rcases pollSlot_inv h with ⟨-, rfl⟩ | ⟨-, -, rfl⟩ | ⟨-, -, k1, hw, -⟩
  · rfl
  · rw [modify_ne _ _ hc]
  · rw [hw.others hc]
    rfl

theorem pollSlot_due (h : pollSlot now i k = .ok k') (hd : (k.processes i).due now = true) :
    (k'.processes i).TimedOut := by
  unfold pollSlot at h
  rw [if_pos hd] at h
  dsimp only at h
  split at h
  · cases h
    simp [Pcb.TimedOut]
  · obtain ⟨⟨rc, k1⟩, hadd, hk⟩ := bind_eq_ok.mp h
    cases hk
    obtain ⟨next, head, rfl⟩ := schedulerAdd_relinks hadd
    refine TimedOut.congr
      (q := { k.processes i with futexKey := 0, futexDeadline := 0, state := .ready }) ?_
      ⟨.inl rfl, rfl, rfl⟩
    simp [Pcb.wait, Kernel.relink, setEax_processes]

theorem setEax_clock (k : Kernel) (f : Option FramePtr) (v : Word) :
    (k.setEax f v).uptimeTicks = k.uptimeTicks ∧ (k.setEax f v).timerHz = k.timerHz := by
  unfold Kernel.setEax
  split <;> exact ⟨rfl, rfl⟩

theorem pollSlot_clock (h : pollSlot now i k = .ok k') :
    k'.uptimeTicks = k.uptimeTicks ∧ k'.timerHz = k.timerHz := by
  unfold pollSlot at h
  split at h
  · dsimp only at h
    split at h
    · cases h
      exact ⟨rfl, rfl⟩
    · obtain ⟨⟨rc, k1⟩, hadd, hk⟩ := bind_eq_ok.mp h
      cases hk
      obtain ⟨next, head, rfl⟩ := schedulerAdd_relinks hadd
      exact setEax_clock _ _ _
  · cases h
    exact ⟨rfl, rfl⟩

theorem poll_clock (h : processPollTimeouts k = .ok k') :
    k'.uptimeTicks = k.uptimeTicks ∧ k'.timerHz = k.timerHz := by
  refine forRangeE_ok (fun _ s => s.uptimeTicks = k.uptimeTicks ∧ s.timerHz = k.timerHz) ⟨rfl, rfl⟩ ?_ h
  intro j _ s s' hs hstep
  obtain ⟨hticks, hhz⟩ := pollSlot_clock hstep
  exact ⟨hticks.trans hs.1, hhz.trans hs.2⟩

theorem poll_spec (h : processPollTimeouts k = .ok k') (hc : c < k.processCount) :
    if (k.processes c).due (timerUptimeMs k) then (k'.processes c).TimedOut
    else (k'.processes c).wait = (k.processes c).wait := by
  refine forRangeE_reaches (fun s => (s.processes c).wait = (k.processes c).wait)
    (fun s => if (k.processes c).due (timerUptimeMs k) then (s.processes c).TimedOut
      else (s.processes c).wait = (k.processes c).wait) hc ?_ ?_ ?_ rfl h
  · intro j _ hj s s' hs hstep
    exact (pollSlot_others hstep (Ne.symm hj)).trans hs
  · intro s s' hs hstep
    split
    · rename_i hd
      exact pollSlot_due hstep ((due_congr hs _).trans hd)
    · rename_i hd
      rcases pollSlot_inv hstep with ⟨-, rfl⟩ | ⟨hd', -⟩ | ⟨hd', -⟩
      · exact hs
      · exact absurd ((due_congr hs _).symm.trans hd') hd
      · exact absurd ((due_congr hs _).symm.trans hd') hd
  · intro j _ hj s s' hs hstep
    have hsame := pollSlot_others hstep (Ne.symm hj)
    split
    · rename_i hd
      rw [if_pos hd] at hs
      exact TimedOut.congr hsame hs
    · rename_i hd
      rw [if_neg hd] at hs
      exact hsame.trans hs

end

def clockMs (hz ticks : Nat) : Nat := ticks * 1000 % 2 ^ 32 / hz

def Reached (a b t : Nat) : Prop := ((b : Int) - a - t) % 2 ^ 32 < 2 ^ 31

/-- For a wait of `t` ms that began at tick `start`: the clock is right about the deadline `n` ticks
later. -/
def OnClock (hz start t n : Nat) : Prop :=
  if n * 1000 < t * hz then clockMs hz start + t = 2 ^ 32 ∨
    ¬Reached (clockMs hz start) (clockMs hz (start + n)) t
  else clockMs hz start + t ≠ 2 ^ 32 ∧ Reached (clockMs hz start) (clockMs hz (start + n)) t

theorem timerUptimeMs_toNat (k : Kernel) :
    (timerUptimeMs k).toNat = clockMs k.timerHz.toNat k.uptimeTicks.toNat := by
  unfold timerUptimeMs clockMs
  rw [BitVec.toNat_udiv, BitVec.toNat_mul]
  rfl

theorem clockMs_mod (hz ticks : Nat) : clockMs hz (ticks % 2 ^ 32) = clockMs hz ticks := by
  unfold clockMs
  rw [Nat.mod_mul_mod]

theorem deadline_passed_iff {a b t : Word} (ht : t ≠ 0) :
    a + t ≠ 0 ∧ 0 ≤ (b - (a + t)).toInt ↔ a.toNat + t.toNat ≠ 2 ^ 32 ∧
    Reached a.toNat b.toNat t.toNat := by
  have ha := a.isLt
  have hb := b.isLt
  have htl := t.isLt
  have hpos : 0 < t.toNat := Nat.pos_of_ne_zero fun h => ht (BitVec.eq_of_toNat_eq h)
  have hsum : (a + t).toNat = (a.toNat + t.toNat) % 2 ^ 32 := BitVec.toNat_add a t
  have hzero : a + t ≠ 0 ↔ a.toNat + t.toNat ≠ 2 ^ 32 := by
    rw [Ne, ← BitVec.toNat_inj, hsum]
    change _ ≠ 0 ↔ _
    omega
  have hsign : 0 ≤ (b - (a + t)).toInt ↔ (b - (a + t)).toNat < 2 ^ 31 := by
    rw [BitVec.toInt_eq_toNat_cond]
    have := (b - (a + t)).isLt
    split <;> omega
  rw [hzero, hsign, BitVec.toNat_sub, hsum]
  unfold Reached
  omega

theorem onClock_of_no_overflow {hz start t n : Nat} (hhz : hz ∣ 1000) (ht : t ≤ 2 ^ 31)
    (hn : n * 1000 < 2 ^ 31 * hz) (hdeadline : clockMs hz start + t ≠ 2 ^ 32)
    (hfit : (start + n) * 1000 / 2 ^ 32 = start * 1000 / 2 ^ 32) :
    OnClock hz start t n := by
  have hpos : 0 < hz := Nat.pos_of_dvd_of_pos hhz (by decide)
  obtain ⟨q, hq⟩ := hhz
  -- no overflow: the clock has moved by exactly `n * q`
  have hmoved : clockMs hz (start + n) = clockMs hz start + n * q := by
    unfold clockMs
    have hrest : (start + n) * 1000 % 2 ^ 32 = start * 1000 % 2 ^ 32 + hz * (n * q) := by
      have : hz * (n * q) = n * 1000 := by rw [hq, Nat.mul_left_comm]
      omega
    rw [hrest, Nat.add_mul_div_left _ _ hpos]
  have helapsed : n * 1000 = n * q * hz := by rw [hq, Nat.mul_comm hz, Nat.mul_assoc]
  have hwindow : n * q < 2 ^ 31 := by
    rw [helapsed] at hn
    exact Nat.lt_of_mul_lt_mul_right hn
  have hlate : n * 1000 < t * hz ↔ n * q < t := by
    rw [helapsed]
    exact Nat.mul_lt_mul_right hpos
  unfold OnClock Reached
  simp only [hlate, hmoved]
  split
  · right
    omega
  · exact ⟨hdeadline, by omega⟩

/-! ## A wait and the polls after it -/

/-- The machine `n` ticks after slot `c` began in `k₁` to wait. The polls since then came before the
timeout and met the condition; whatever else happened did not touch the waiter or the clock. -/
inductive Since (c : Nat) (start t : Word) (k₁ : Kernel) : Nat → Kernel → Prop
  | wait : Since c start t k₁ 0 k₁
  | irq {n : Nat} {k : Kernel} (h : Since c start t k₁ n k) : Since c start t k₁ (n + 1) (timerIrq k)
  | poll {n : Nat} {k k' : Kernel} (h : Since c start t k₁ n k)
    (hearly : n * 1000 < t.toNat * k₁.timerHz.toNat)
      (hclock : OnClock k₁.timerHz.toNat start.toNat t.toNat n) (hpoll : processPollTimeouts k = .ok k') :
      Since c start t k₁ n k'
  | other {n : Nat} {k k' : Kernel} (h : Since c start t k₁ n k)
    (hwait : (k'.processes c).wait = (k.processes c).wait)
      (hticks : k'.uptimeTicks = k.uptimeTicks) (hhz : k'.timerHz = k.timerHz)
        (hcount : c < k'.processCount) :
      Since c start t k₁ n k'

def TimesRight (hz : Nat) (t : Word) (n : Nat) (p : Pcb) : Prop :=
  if n * 1000 < t.toNat * hz then p.state = .blocked else p.TimedOut

structure Waiting (c : Nat) (key deadline start hz : Word) (n : Nat) (k : Kernel) : Prop where
  wait : (k.processes c).wait = (true, .blocked, key, deadline)
  ticks : k.uptimeTicks = start + BitVec.ofNat 32 n
  hz : k.timerHz = hz
  count : c < k.processCount

section

variable {k k₁ k' k'' : Kernel} {c n : Nat} {key expected t start hz : Word}

theorem futexWait_waiting (hc : k.current = .slot c) (hcount : c < k.processCount)
    (halloc : (k.processes c).allocated = true) (ht : t ≠ 0)
    (h : processFutexWait key expected t k = .ok (0, k₁)) :
    key ≠ 0 ∧ Waiting c key (timerUptimeMs k + t) k.uptimeTicks k.timerHz 0 k₁ := by
  unfold processFutexWait at h
  split at h
  · cases h
  · split at h
    · cases h
    · rename_i hkey
      obtain ⟨⟨rc1, m1⟩, -, h⟩ := bind_eq_ok.mp h
      dsimp only at h
      split at h
      · cases h
      · obtain ⟨⟨w2, m2⟩, -, h⟩ := bind_eq_ok.mp h
        dsimp only at h
        split at h
        · cases h
        · obtain ⟨⟨w3, m3⟩, -, h⟩ := bind_eq_ok.mp h
          dsimp only at h
          split at h
          · cases h
          · rw [hc] at h
            cases h
            refine ⟨hkey, ?_, ?_, rfl, hcount⟩
            · simp [Pcb.wait, Kernel.modifyRef, halloc]
            · simp [Kernel.modifyRef, Kernel.modify]

theorem Waiting.due_iff (h : Waiting c key (timerUptimeMs k + t) k.uptimeTicks k.timerHz n k')
    (hkey : key ≠ 0) (ht : t ≠ 0) :
    (k'.processes c).due (timerUptimeMs k') = true ↔
      clockMs k.timerHz.toNat k.uptimeTicks.toNat + t.toNat ≠ 2 ^ 32 ∧
        Reached (clockMs k.timerHz.toNat k.uptimeTicks.toNat)
          (clockMs k.timerHz.toNat (k.uptimeTicks.toNat + n)) t.toNat := by
  have hnow : (timerUptimeMs k').toNat = clockMs k.timerHz.toNat (k.uptimeTicks.toNat + n) := by
    rw [timerUptimeMs_toNat, h.hz, h.ticks, BitVec.toNat_add, BitVec.toNat_ofNat, Nat.add_mod_mod,
      clockMs_mod]
  have hwait := h.wait
  simp only [Pcb.wait, Prod.mk.injEq] at hwait
  obtain ⟨ha, hs, hk, hd⟩ := hwait
  rw [← hnow, ← timerUptimeMs_toNat, ← deadline_passed_iff ht]
  simp only [Pcb.due, ha, hs, hk, hd, Bool.and_eq_true, beq_self_eq_true, bne_iff_ne,
    decide_eq_true_eq, true_and]
  exact ⟨fun h => ⟨h.1.2, h.2⟩, fun h => ⟨⟨hkey, h.1⟩, h.2⟩⟩

theorem Waiting.timesRight_iff
    (h : Waiting c key (timerUptimeMs k + t) k.uptimeTicks k.timerHz n k') (hkey : key ≠ 0)
    (ht : t ≠ 0) (hpoll : processPollTimeouts k' = .ok k'') :
    TimesRight k.timerHz.toNat t n (k''.processes c) ↔
      OnClock k.timerHz.toNat k.uptimeTicks.toNat t.toNat n := by
  have hspec := poll_spec hpoll h.count
  have hdue := h.due_iff hkey ht
  have hblocked : (k''.processes c).wait = (k'.processes c).wait →
      (k''.processes c).state = .blocked := by
    intro he
    rw [h.wait] at he
    simp only [Pcb.wait, Prod.mk.injEq] at he
    exact he.2.1
  have hnot : (k''.processes c).TimedOut → (k''.processes c).state ≠ .blocked := by
    rintro ⟨hs | hs, -⟩ <;> simp [hs]
  unfold TimesRight OnClock
  split at hspec
  · rename_i hd
    have hreached := hdue.mp hd
    split
    · constructor
      · exact fun hb => absurd hb (hnot hspec)
      · rintro (he | he)
        · exact absurd he hreached.1
        · exact absurd hreached.2 he
    · exact ⟨fun _ => hreached, fun _ => hspec⟩
  · rename_i hd
    have hreached := mt hdue.mpr hd
    split
    · refine ⟨fun _ => ?_, fun _ => hblocked hspec⟩
      by_cases he : clockMs k.timerHz.toNat k.uptimeTicks.toNat + t.toNat = 2 ^ 32
      · exact .inl he
      · exact .inr fun hr => hreached ⟨he, hr⟩
    · constructor
      · exact fun hto => absurd (hblocked hspec) (hnot hto)
      · exact fun hr => absurd hr hreached

theorem Since.waiting (h : Since c k.uptimeTicks t k₁ n k') (hkey : key ≠ 0) (ht : t ≠ 0)
    (h₁ : Waiting c key (timerUptimeMs k + t) k.uptimeTicks k.timerHz 0 k₁) :
    Waiting c key (timerUptimeMs k + t) k.uptimeTicks k.timerHz n k' := by
  induction h with
  | wait => exact h₁
  | @irq n k2 _ ih =>
    refine ⟨ih.wait, ?_, ih.hz, ih.count⟩
    change k2.uptimeTicks + 1#32 = _
    rw [ih.ticks, BitVec.ofNat_add, BitVec.add_assoc]
  | @poll n k2 k3 _ hearly hclock hpoll ih =>
    rw [h₁.hz] at hearly hclock
    have hright := (ih.timesRight_iff hkey ht hpoll).mpr hclock
    unfold TimesRight at hright
    rw [if_pos hearly] at hright
    obtain ⟨hticks, hhz⟩ := poll_clock hpoll
    refine ⟨?_, hticks.trans ih.ticks, hhz.trans ih.hz, (poll_quiet hpoll).count ▸ ih.count⟩
    have hspec := poll_spec hpoll ih.count
    split at hspec
    · obtain ⟨hs | hs, -⟩ := hspec <;> simp [hright] at hs
    · exact hspec.trans ih.wait
  | other _ hwait hticks hhz hcount ih =>
    exact ⟨hwait.trans ih.wait, hticks.trans ih.ticks, hhz.trans ih.hz, hcount⟩

end

/-- Whatever the machine does between a wait and a poll, the poll leaves the waiter blocked before the
timeout and wakes it after, exactly if the clock is right then. -/
theorem futex_timeout_iff {k k₁ k' k'' : Kernel} {c n : Nat} {key expected t : Word}
    (hc : k.current = .slot c) (hcount : c < k.processCount)
    (halloc : (k.processes c).allocated = true) (ht : t ≠ 0)
    (hwait : processFutexWait key expected t k = .ok (0, k₁))
    (hsince : Since c k.uptimeTicks t k₁ n k') (hpoll : processPollTimeouts k' = .ok k'') :
    TimesRight k.timerHz.toNat t n (k''.processes c) ↔
      OnClock k.timerHz.toNat k.uptimeTicks.toNat t.toNat n := by
  obtain ⟨hkey, h₁⟩ := futexWait_waiting hc hcount halloc ht hwait
  exact (hsince.waiting hkey ht h₁).timesRight_iff hkey ht hpoll

def oneRuns (ticks : Word) : Option Kernel :=
  (runs kernelStep (System.boot coldKernel)
    [.createUser 0x400000, .add 0, .timerTick 0x9000 zeroRegisters]).map fun s =>
    { s.kernel with uptimeTicks := ticks }

theorem futex_timeout_twentyMs :
    ∃ k k₁ k'', oneRuns 0 = some k ∧ processFutexWait 0xbfe000 0 20 k = .ok (0, k₁) ∧
    processPollTimeouts (timerIrq (timerIrq k₁)) = .ok k'' ∧ (k''.processes 0).TimedOut := by
  have hview : ((oneRuns 0).bind fun k => (processFutexWait 0xbfe000 0 20 k).toOption.bind fun r =>
      (processPollTimeouts (timerIrq (timerIrq r.2))).toOption.map fun _ =>
        (k.current, k.processCount, (k.processes 0).allocated, k.uptimeTicks, k.timerHz, r.1)) =
      some (.slot 0, 1, true, 0, 100, 0) := by
    decide +kernel
  obtain ⟨k, hk, hview⟩ := Option.bind_eq_some_iff.mp hview
  obtain ⟨⟨rc, k₁⟩, hwait, hview⟩ := Option.bind_eq_some_iff.mp hview
  obtain ⟨k'', hpoll, hview⟩ := Option.map_eq_some_iff.mp hview
  simp only [Prod.mk.injEq] at hview
  obtain ⟨hc, hcount, halloc, hticks, hhz, rfl⟩ := hview
  refine ⟨k, k₁, k'', hk, toOption_eq_some hwait, toOption_eq_some hpoll, ?_⟩
  have hright :=
    (futex_timeout_iff hc (by omega) halloc (by decide) (toOption_eq_some hwait) (.irq (.irq .wait))
    (toOption_eq_some hpoll)).mpr (by
      rw [hticks, hhz]
      exact onClock_of_no_overflow (by decide) (by decide) (by decide) (by decide) (by decide))
  rw [hhz] at hright
  exact hright

/-- A wait of more than 2^31 ms ends at once. One of 100 ms that begins after twelve hours does not
end with the tenth tick: the clock has started again. -/
theorem timeouts_misfire :
    (∃ k k₁ k'', oneRuns 0 = some k ∧ processFutexWait 0xbfe000 0 0x80000001 k = .ok (0, k₁) ∧
      processPollTimeouts k₁ = .ok k'' ∧ ¬TimesRight 100 0x80000001 0 (k''.processes 0)) ∧
    ∃ k k₁ k'', oneRuns 4294960 = some k ∧ processFutexWait 0xbfe000 0 100 k = .ok (0, k₁) ∧
      processPollTimeouts (timerIrq^[10] k₁) = .ok k'' ∧ ¬TimesRight 100 100 10 (k''.processes 0) := by
  have hearly :
      ((oneRuns 0).bind fun k => (processFutexWait 0xbfe000 0 0x80000001 k).toOption.bind fun r =>
      (processPollTimeouts r.2).toOption.map fun k'' => (r.1, (k''.processes 0).state)) =
        some (0, .running) := by
    decide +kernel
  have hlate : ((oneRuns 4294960).bind fun k => (processFutexWait 0xbfe000 0 100 k).toOption.bind fun r =>
      (processPollTimeouts (timerIrq^[10] r.2)).toOption.map fun k'' => (r.1, (k''.processes 0).state)) =
      some (0, .blocked) := by
    decide +kernel
  constructor
  · obtain ⟨k, hk, hview⟩ := Option.bind_eq_some_iff.mp hearly
    obtain ⟨⟨rc, k₁⟩, hwait, hview⟩ := Option.bind_eq_some_iff.mp hview
    obtain ⟨k'', hpoll, hview⟩ := Option.map_eq_some_iff.mp hview
    obtain ⟨rfl, hstate⟩ := Prod.mk.inj hview
    refine ⟨k, k₁, k'', hk, toOption_eq_some hwait, toOption_eq_some hpoll, fun h => ?_⟩
    have hblocked : (k''.processes 0).state = .blocked := h
    rw [hstate] at hblocked
    cases hblocked
  · obtain ⟨k, hk, hview⟩ := Option.bind_eq_some_iff.mp hlate
    obtain ⟨⟨rc, k₁⟩, hwait, hview⟩ := Option.bind_eq_some_iff.mp hview
    obtain ⟨k'', hpoll, hview⟩ := Option.map_eq_some_iff.mp hview
    obtain ⟨rfl, hstate⟩ := Prod.mk.inj hview
    refine ⟨k, k₁, k'', hk, toOption_eq_some hwait, toOption_eq_some hpoll, fun h => ?_⟩
    have hout : (k''.processes 0).TimedOut := h
    obtain ⟨hs | hs, -⟩ := hout <;> simp [hstate] at hs

end Ceblar
