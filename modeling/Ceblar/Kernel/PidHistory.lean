import Ceblar.Kernel.Pids

/-! # No PID comes back

The PIDs that `new_pcb` has issued so far, written down beside a run. -/

namespace Ceblar

structure History where
  system : System
  issued : List (Nat × Word)
  claims : Nat → Nat
  /-- The PID issued last for a slot, unless that process was reaped. -/
  owner : Nat → Option Word

def claimedSlot (k k' : Kernel) : Option Nat :=
  (List.range maxProcesses).find? fun i => (k'.processes i).generation != (k.processes i).generation

def History.record (h : History) (s : System) : History :=
  let claimed := claimedSlot h.system.kernel s.kernel
  { system := s
    issued :=
      match claimed with
      | none => h.issued
      | some j =>
        if (s.kernel.processes j).allocated then (j, (s.kernel.processes j).pid) :: h.issued else h.issued
    claims := fun i => if claimed = some i then h.claims i + 1 else h.claims i
    owner := fun i =>
      if (s.kernel.processes i).allocated then
        if claimed = some i then some (s.kernel.processes i).pid else h.owner i
      else none }

def historyStep (h : History) (op : KernelOp) : Option History := (kernelStep h.system op).map h.record

def History.boot (k : Kernel) : History where
  system := System.boot k
  issued := []
  claims := fun _ => 0
  owner := fun _ => none

/-! ## What a step claims -/

section

variable {k k' : Kernel} {j : Nat}

structure Keeps (k k' : Kernel) : Prop where
  generation : ∀ i, (k'.processes i).generation = (k.processes i).generation
  live : ∀ i, (k'.processes i).allocated = true →
    (k.processes i).allocated = true ∧ (k'.processes i).pid = (k.processes i).pid

structure Claims (k : Kernel) (j : Nat) (k' : Kernel) : Prop where
  bound : j < 32
  generation : (k'.processes j).generation = nextGeneration (k.processes j).generation
  pid : (k'.processes j).pid = makePid (k'.processes j).generation j
  others : ∀ i, i ≠ j → (k'.processes i).generation = (k.processes i).generation ∧
    (k'.processes i).allocated = (k.processes i).allocated ∧ (k'.processes i).pid = (k.processes i).pid

theorem Steps.keeps {ends : Word → Prop} (h : Steps ends k k') : Keeps k k' :=
  ⟨fun i => (h.pcb i).generation, fun i hi => ⟨(h.pcb i).allocated ▸ hi, (h.pcb i).pid⟩⟩

theorem Claimed.claims {ends : Word → Prop} {k1 : Kernel} (h : Claimed k j k1) (hs : Steps ends k1 k') :
    Claims k j k' := by
  refine ⟨h.bound, (hs.pcb j).generation.trans h.generation, ?_, fun i hi => ?_⟩
  · rw [(hs.pcb j).pid, (hs.pcb j).generation]
    exact h.pid
  · rw [← h.others i hi]
    exact ⟨(hs.pcb i).generation, (hs.pcb i).allocated, (hs.pcb i).pid⟩

theorem TableStep.keeps_or_claims (h : TableStep k k') : Keeps k k' ∨ ∃ j, Claims k j k' := by
  cases h with
  | steps hs => exact .inl hs.keeps
  | created hc => exact .inr ⟨_, hc.claims (Relinks.refl _).quiet⟩
  | ended hc ha hs => exact .inr ⟨_, hc.claims hs⟩
  | @reaped i f vmm ha hz hp hf =>
    obtain ⟨hfa, -, hfg⟩ := hf (k.processes i)
    refine .inl ⟨fun c => ?_, fun c hc => ?_⟩
    · by_cases hci : c = i
      · rw [hci, modify_self]
        exact hfg
      · rw [modify_ne _ _ hci]
    · have hci : c ≠ i := by
        rintro rfl
        rw [modify_self] at hc
        rw [show (f (k.processes c)).allocated = false from hfa] at hc
        cases hc
      rw [modify_ne _ _ hci] at hc ⊢
      exact ⟨hc, rfl⟩
  | @blocked f vmm hf =>
    refine .inl ⟨fun c => ?_, fun c hc => ?_⟩
    all_goals
      obtain ⟨h1, h2, h3, -, -⟩ := hf (k.processes c)
      rcases modifyRef_processes ({ k with vmm } : Kernel) f k.current c with he | he
    · rw [he]
    · rw [he]
      exact h3
    · rw [he] at hc ⊢
      exact ⟨hc, rfl⟩
    · rw [he] at hc ⊢
      exact ⟨h2 ▸ hc, h1⟩

theorem Keeps.claimedSlot (h : Keeps k k') : claimedSlot k k' = none := by
  simp [Ceblar.claimedSlot, h.generation]

theorem Claims.claimedSlot (h : Claims k j k')
    (hne : nextGeneration (k.processes j).generation ≠ (k.processes j).generation) :
    claimedSlot k k' = some j := by
  rw [Ceblar.claimedSlot, List.find?_range_eq_some]
  refine ⟨?_, ?_, fun i hi => ?_⟩
  · rw [h.generation]
    simpa using hne
  · simpa [maxProcesses] using h.bound
  · rw [(h.others i (by omega)).1]
    simp

theorem nextGeneration_ofNat {c : Nat} (hc : c + 1 < 2 ^ 24) :
    nextGeneration (BitVec.ofNat 32 c) = BitVec.ofNat 32 (c + 1) := by
  have hmask : (BitVec.ofNat 32 c + 1) &&& 0x00ffffff = BitVec.ofNat 32 (c + 1) := by
    apply BitVec.eq_of_toNat_eq
    rw [BitVec.toNat_and, show (0x00ffffff : Word).toNat = 2 ^ 24 - 1 from rfl,
      Nat.and_two_pow_sub_one_eq_mod, BitVec.toNat_add, BitVec.toNat_ofNat, BitVec.toNat_ofNat]
    have : (1 : Word).toNat = 1 := rfl
    omega
  have hne : BitVec.ofNat 32 (c + 1) ≠ 0 := by
    intro h0
    have := congrArg BitVec.toNat h0
    rw [BitVec.toNat_ofNat] at this
    simp at this
    omega
  unfold nextGeneration
  rw [hmask]
  exact if_neg hne

end

/-! ## Over a run -/

structure HistoryInv (h : History) : Prop where
  table : TableInv h.system.kernel
  generation : ∀ i, (h.system.kernel.processes i).generation = BitVec.ofNat 32 (h.claims i)
  owner : ∀ i pid, h.owner i = some pid ↔
    (h.system.kernel.processes i).allocated = true ∧ (h.system.kernel.processes i).pid = pid
  owned : ∀ i, (h.system.kernel.processes i).allocated = true →
    (i, (h.system.kernel.processes i).pid) ∈ h.issued
  issued : ∀ p ∈ h.issued, p.1 < 32 ∧ ∃ g, g ≤ h.claims p.1 ∧ p.2 = makePid (BitVec.ofNat 32 g) p.1
  distinct : (h.issued.map Prod.snd).Nodup

def History.Fresh (h : History) : Prop := ∀ i < maxProcesses, h.claims i < 2 ^ 24 - 1

section

variable {h : History} {s : System} {j : Nat}

theorem record_fresh (hf : (h.record s).Fresh) : h.Fresh := by
  intro i hi
  have := hf i hi
  simp only [History.record] at this
  split at this
  · omega
  · exact this

theorem HistoryInv.keeps (hinv : HistoryInv h) (ht : TableInv s.kernel)
    (hk : Keeps h.system.kernel s.kernel) :
    HistoryInv (h.record s) := by
  have hclaimed := hk.claimedSlot
  constructor
  case table => exact ht
  all_goals simp only [History.record, hclaimed, reduceCtorEq, if_false]
  case generation => exact fun i => (hk.generation i).trans (hinv.generation i)
  case owner =>
    intro i pid
    by_cases ha : (s.kernel.processes i).allocated = true
    · obtain ⟨hold, hpid⟩ := hk.live i ha
      rw [if_pos ha, hinv.owner i pid, hpid]
      simp [ha, hold]
    · simp [ha]
  case owned =>
    intro i ha
    obtain ⟨hold, hpid⟩ := hk.live i ha
    rw [hpid]
    exact hinv.owned i hold
  case issued => exact hinv.issued
  case distinct => exact hinv.distinct

theorem HistoryInv.new_pid (hinv : HistoryInv h) (hj : j < 32) (hfresh : h.claims j + 1 < 2 ^ 24) :
    makePid (BitVec.ofNat 32 (h.claims j + 1)) j ∉ h.issued.map Prod.snd := by
  intro hmem
  obtain ⟨⟨i, pid⟩, hp, hpid⟩ := List.mem_map.mp hmem
  obtain ⟨hi, g, hg, hmake⟩ := hinv.issued _ hp
  dsimp only at hpid hi hg hmake
  have he : makePid (BitVec.ofNat 32 g) i = makePid (BitVec.ofNat 32 (h.claims j + 1)) j :=
    hmake.symm.trans hpid
  have hlow := makePid_low (BitVec.ofNat 32 g) hi
  rw [he, makePid_low _ hj] at hlow
  obtain rfl : i = j := by omega
  have hhigh := makePid_high (show g < 2 ^ 24 by omega) hi
  rw [he, makePid_high hfresh hj] at hhigh
  omega

theorem HistoryInv.claims (hinv : HistoryInv h) (ht : TableInv s.kernel)
    (hc : Claims h.system.kernel j s.kernel) (hfresh : h.claims j + 1 < 2 ^ 24) :
    HistoryInv (h.record s) := by
  have hgen : (s.kernel.processes j).generation = BitVec.ofNat 32 (h.claims j + 1) := by
    rw [hc.generation, hinv.generation j, nextGeneration_ofNat hfresh]
  have hpid : (s.kernel.processes j).pid = makePid (BitVec.ofNat 32 (h.claims j + 1)) j := by
    rw [hc.pid, hgen]
  have hclaimed : claimedSlot h.system.kernel s.kernel = some j := by
    refine hc.claimedSlot ?_
    rw [← hc.generation, hgen, hinv.generation j]
    intro he
    have := congrArg BitVec.toNat he
    rw [BitVec.toNat_ofNat, BitVec.toNat_ofNat] at this
    omega
  have hold : ∀ i, i ≠ j → (s.kernel.processes i).allocated = true →
      (i, (s.kernel.processes i).pid) ∈ h.issued := by
    intro i hi ha
    obtain ⟨-, hal, hp⟩ := hc.others i hi
    rw [hp]
    exact hinv.owned i (hal ▸ ha)
  constructor
  case table => exact ht
  all_goals simp only [History.record, hclaimed, Option.some.injEq]
  case generation =>
    intro i
    by_cases hi : j = i
    · subst hi
      rw [if_pos rfl]
      exact hgen
    · rw [if_neg hi, (hc.others i (Ne.symm hi)).1]
      exact hinv.generation i
  case owner =>
    intro i pid
    by_cases ha : (s.kernel.processes i).allocated = true
    · rw [if_pos ha]
      by_cases hi : j = i
      · rw [if_pos hi, Option.some.injEq]
        simp [ha]
      · obtain ⟨-, hal, hp⟩ := hc.others i (Ne.symm hi)
        rw [if_neg hi, hinv.owner i pid, ← hal, ← hp]
    · simp [ha]
  case owned =>
    intro i ha
    by_cases hi : i = j
    · subst hi
      rw [if_pos ha]
      exact List.mem_cons_self
    · split
      · exact List.mem_cons_of_mem _ (hold i hi ha)
      · exact hold i hi ha
  case issued =>
    have hleft : ∀ p ∈ h.issued, p.1 < 32 ∧
        ∃ g, g ≤ (if j = p.1 then h.claims p.1 + 1 else h.claims p.1) ∧
        p.2 = makePid (BitVec.ofNat 32 g) p.1 := by
      intro p hp
      obtain ⟨h1, g, hg, h2⟩ := hinv.issued p hp
      refine ⟨h1, g, ?_, h2⟩
      split <;> omega
    intro p hp
    split at hp
    · rcases List.mem_cons.mp hp with rfl | hp
      · exact ⟨hc.bound, h.claims j + 1, by simp, hpid⟩
      · exact hleft p hp
    · exact hleft p hp
  case distinct =>
    split
    · rw [List.map_cons, List.nodup_cons]
      refine ⟨?_, hinv.distinct⟩
      dsimp only
      rw [hpid]
      exact hinv.new_pid hc.bound hfresh
    · exact hinv.distinct

theorem history_step {op : KernelOp} {h' : History} (hinv : h.Fresh → HistoryInv h)
    (hstep : historyStep h op = some h') (hf : h'.Fresh) : HistoryInv h' := by
  obtain ⟨s, hs, rfl⟩ := Option.map_eq_some_iff.mp hstep
  have hinv := hinv (record_fresh hf)
  have htable := kernelStep_table hinv.table hs
  have ht := hinv.table.step htable
  rcases htable.keeps_or_claims with hk | ⟨j, hc⟩
  · exact hinv.keeps ht hk
  · refine hinv.claims ht hc ?_
    have := record_fresh hf j hc.bound
    omega

theorem HistoryInv.of_booted {k : Kernel} (h : k.Booted) : HistoryInv (History.boot k) where
  table := TableInv.of_booted h
  generation i := h.generation i
  owner i pid := by
    have := h.free i
    simp [History.boot, System.boot, this]
  owned i hi := by
    have := h.free i
    simp [History.boot, System.boot, this] at hi
  issued p hp := by cases hp
  distinct := List.nodup_nil

end

structure PidsSound (h : History) : Prop where
  nonzero : ∀ p ∈ h.issued, p.2 ≠ 0
  distinct : (h.issued.map Prod.snd).Nodup
  bound : ∀ i, (h.system.kernel.processes i).allocated = true → i < h.system.kernel.processCount
  slot : ∀ i, (h.system.kernel.processes i).allocated = true →
    slotForPid (h.system.kernel.processes i).pid = i
  /-- A lookup finds a slot exactly if the PID was issued for it and its process not reaped since. -/
  lookup : ∀ pid also i, findPid h.system.kernel pid also = some i ↔
    h.owner i = some pid ∧ also (h.system.kernel.processes i) = true
  owner : ∀ i pid, h.owner i = some pid → (i, pid) ∈ h.issued

theorem findPid_eq_some {k : Kernel} (hinv : TableInv k) {pid : Word} {also : Pcb → Bool} {i : Nat} :
    findPid k pid also = some i ↔
      ((k.processes i).allocated = true ∧ (k.processes i).pid = pid) ∧ also (k.processes i) = true := by
  constructor
  · intro h
    obtain ⟨ha, hp, hal⟩ := findPid_some h
    exact ⟨⟨ha, hp⟩, hal⟩
  · rintro ⟨⟨ha, hp⟩, hal⟩
    rw [findPid, List.find?_range_eq_some]
    refine ⟨?_, ?_, fun c hc => ?_⟩
    · simp [ha, hp, hal]
    · simpa using hinv.bound i ha
    · -- a slot before it with the same PID would be the same slot
      by_contra hfound
      simp only [Bool.not_eq_eq_eq_not, Bool.not_true, Bool.not_eq_false, Bool.and_eq_true,
        beq_iff_eq] at hfound
      have := hinv.slot_unique hfound.1.1 ha (hfound.1.2.trans hp.symm)
      omega

/-- In every run in which no slot is claimed 2^24 - 1 times, PIDs are nonzero and never come back,
and a lookup finds the process that was issued the PID or nobody. -/
theorem pids_never_stale {k : Kernel} (h0 : k.Booted) {ops : List KernelOp} {h : History}
    (hrun : runs historyStep (History.boot k) ops = some h) (hfresh : h.Fresh) : PidsSound h := by
  have hinv : HistoryInv h :=
    runs_inv (fun h => h.Fresh → HistoryInv h) (fun _ _ _ hinv hstep hf => history_step hinv hstep hf)
      (fun _ => HistoryInv.of_booted h0) hrun hfresh
  constructor
  case nonzero =>
    intro p hp h0
    obtain ⟨hi, g, -, hmake⟩ := hinv.issued p hp
    have hlow := makePid_low (BitVec.ofNat 32 g) hi
    rw [← hmake, h0] at hlow
    simp at hlow
  case distinct => exact hinv.distinct
  case bound => exact hinv.table.bound
  case slot =>
    intro i ha
    have := hinv.table.bound i ha
    have := hinv.table.count
    exact slotForPid_eq (by omega) (hinv.table.pid i ha)
  case lookup =>
    intro pid also i
    rw [findPid_eq_some hinv.table, hinv.owner i pid]
  case owner =>
    intro i pid ho
    obtain ⟨ha, hp⟩ := (hinv.owner i pid).mp ho
    rw [← hp]
    exact hinv.owned i ha

def reuseRun : List KernelOp :=
  [.createEntry 0x100000, .add 0, .timerTick 0x9000 zeroRegisters, .fork, .sendSignal 0x102 9,
    .wait 0x102 0, .createEntry 0x100000]

theorem reuseRun_issued : ((runs historyStep (History.boot coldKernel) reuseRun).map fun h =>
    (h.issued, (List.range maxProcesses).all fun i => decide (h.claims i < 2 ^ 24 - 1))) =
      some ([(1, 0x202), (1, 0x102), (0, 0x101)], true) := by
  decide +kernel

theorem pids_never_stale_reuseRun :
    ∃ h, runs historyStep (History.boot coldKernel) reuseRun = some h ∧ h.Fresh ∧
    h.issued = [(1, 0x202), (1, 0x102), (0, 0x101)] ∧ PidsSound h := by
  obtain ⟨h, hrun, hend⟩ := Option.map_eq_some_iff.mp reuseRun_issued
  obtain ⟨hissued, hclaims⟩ := Prod.mk.inj hend
  have hfresh : h.Fresh := by
    intro i hi
    simpa using List.all_eq_true.mp hclaims i (List.mem_range.mpr hi)
  exact ⟨h, hrun, hfresh, hissued, pids_never_stale coldKernel_booted hrun hfresh⟩

end Ceblar
