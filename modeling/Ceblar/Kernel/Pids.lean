import Ceblar.Fs.Vfs
import Ceblar.Kernel.Create

/-! # PIDs

A PID holds the generation of its slot and, in the low byte, the slot itself.
-/

namespace Ceblar

def makePid (generation : Word) (j : Nat) : Word := generation <<< 8 ||| BitVec.ofNat 32 (j + 1)

theorem makePid_low (g : Word) {j : Nat} (hj : j < 32) : (makePid g j).toNat % 256 = j + 1 := by
  have h1 : (j + 1) % 2 ^ 32 = j + 1 := Nat.mod_eq_of_lt (by omega)
  have h2 : g.toNat <<< 8 % 2 ^ 32 % 2 ^ 8 = 0 := by
    rw [Nat.shiftLeft_eq]
    omega
  rw [makePid, BitVec.toNat_or, BitVec.toNat_shiftLeft, BitVec.toNat_ofNat, h1, show 256 = 2 ^ 8 from rfl,
    Nat.or_mod_two_pow, h2, Nat.zero_or]
  exact Nat.mod_eq_of_lt (by omega)

theorem makePid_high {g : Nat} (hg : g < 2 ^ 24) {j : Nat} (hj : j < 32) :
    (makePid (BitVec.ofNat 32 g) j).toNat / 256 = g := by
  have h1 : (j + 1) % 2 ^ 32 = j + 1 := Nat.mod_eq_of_lt (by omega)
  have h2 : g % 2 ^ 32 = g := Nat.mod_eq_of_lt (by omega)
  have h3 : g <<< 8 % 2 ^ 32 = 2 ^ 8 * g := by
    rw [Nat.shiftLeft_eq]
    omega
  rw [makePid, BitVec.toNat_or, BitVec.toNat_shiftLeft, BitVec.toNat_ofNat, BitVec.toNat_ofNat, h1,
    h2, h3, ← Nat.two_pow_add_eq_or_of_lt (show j + 1 < 2 ^ 8 by omega)]
  omega

theorem slotForPid_eq {pid : Word} {j : Nat} (hj : j < 32) (h : pid.toNat % 256 = j + 1) :
    slotForPid pid = j := by
  have hand : (pid &&& 0xff).toNat = j + 1 := by
    rw [BitVec.toNat_and, show (0xff : Word).toNat = 2 ^ 8 - 1 from rfl, Nat.and_two_pow_sub_one_eq_mod]
    exact h
  unfold slotForPid
  rw [hand, if_neg (by omega), Nat.add_sub_cancel, if_pos hj]

/-! ## What a step does to the table -/

inductive TableStep (k : Kernel) : Kernel → Prop
  | steps {ends : Word → Prop} {k' : Kernel} (h : Steps ends k k') : TableStep k k'
  | created {j : Nat} {k' : Kernel} (h : Claimed k j k') : TableStep k k'
  | ended {j : Nat} {k1 k' : Kernel} (h : Claimed k j k1) (ha : (k1.processes j).allocated = true)
      (hs : Steps (· = (k1.processes j).pid) k1 k') : TableStep k k'
  | reaped {i : Nat} {f : Pcb → Pcb} (vmm : Vmm) (ha : (k.processes i).allocated = true)
      (hz : (k.processes i).state = .zombie) (hp : (k.processes i).parentPid = (k.pcb k.current).pid)
      (hf : ∀ p, (f p).allocated = false ∧ (f p).ticks = p.ticks ∧ (f p).generation = p.generation) :
      TableStep k (({ k with vmm } : Kernel).modify i f)
  | blocked {f : Pcb → Pcb} (vmm : Vmm)
      (hf : ∀ p, (f p).pid = p.pid ∧ (f p).allocated = p.allocated ∧ (f p).generation = p.generation ∧
        (f p).ticks = p.ticks ∧ (f p).parentPid = p.parentPid) :
      TableStep k (({ k with vmm } : Kernel).modifyRef f k.current)

theorem TableStep.quiet {k k' : Kernel} (h : Quiet k k') : TableStep k k' := .steps h

structure TableInv (k : Kernel) : Prop where
  count : k.processCount ≤ 32
  bound : ∀ i, (k.processes i).allocated = true → i < k.processCount
  pid : ∀ i, (k.processes i).allocated = true → (k.processes i).pid.toNat % 256 = i + 1
  parent : ∀ i, (k.processes i).allocated = true → (k.processes i).parentPid ≠ (k.processes i).pid
  current : ∀ i, k.current = .slot i → (k.processes i).allocated = true
  idlePid : k.idle.pid = 0
  ticks : ∀ i, (k.processes i).ticks = 0
  idleTicks : k.idle.ticks = 0

section

variable {k k1 k' : Kernel} {i j : Nat}

theorem TableInv.pid_ne_zero (h : TableInv k) (ha : (k.processes i).allocated = true) :
    (k.processes i).pid ≠ 0 := by
  intro h0
  have := h.pid i ha
  rw [h0] at this
  simp at this

theorem TableInv.slot_unique (h : TableInv k) (hi : (k.processes i).allocated = true)
    (hj : (k.processes j).allocated = true) (he : (k.processes i).pid = (k.processes j).pid) : i = j := by
  have h1 := h.pid i hi
  have h2 := h.pid j hj
  rw [he] at h1
  omega

theorem TableInv.of_booted (h : k.Booted) : TableInv k where
  count := by
    rw [h.count]
    omega
  bound i hi := by simp [h.free i] at hi
  pid i hi := by simp [h.free i] at hi
  parent i hi := by simp [h.free i] at hi
  current i hi := by simp [h.current] at hi
  idlePid := h.idlePid
  ticks := h.ticks
  idleTicks := h.idleTicks

theorem TableInv.steps {ends : Word → Prop} (h : TableInv k) (hs : Steps ends k k') : TableInv k' where
  count := hs.count ▸ h.count
  bound i hi := hs.count ▸ h.bound i ((hs.pcb i).allocated ▸ hi)
  pid i hi := by
    rw [(hs.pcb i).pid]
    exact h.pid i ((hs.pcb i).allocated ▸ hi)
  parent i hi := by
    have ha : (k.processes i).allocated = true := (hs.pcb i).allocated ▸ hi
    rw [(hs.pcb i).pid]
    rcases (hs.pcb i).parent with he | ⟨-, he⟩
    · rw [he]
      exact h.parent i ha
    · rw [he]
      exact (h.pid_ne_zero ha).symm
  current i hi := by
    rw [(hs.pcb i).allocated]
    exact (hs.current i hi).elim (h.current i) id
  idlePid := hs.idlePid.trans h.idlePid
  ticks i := (hs.pcb i).ticks (h.ticks i)
  idleTicks := hs.idleTicks h.idleTicks

theorem TableInv.current_pid (h : TableInv k) (hj : j < 32) (hfree : (k.processes j).allocated = false) :
    (k.pcb k.current).pid.toNat % 256 ≠ j + 1 := by
  cases hc : k.current with
  | idle =>
    have h0 : (k.pcb .idle).pid = 0 := h.idlePid
    rw [h0]
    simp
  | slot c =>
    have ha := h.current c hc
    have hp : (k.pcb (.slot c)).pid.toNat % 256 = c + 1 := h.pid c ha
    rw [hp]
    rintro he
    obtain rfl : c = j := by omega
    rw [hfree] at ha
    cases ha

theorem TableInv.created (h : TableInv k) (hc : Claimed k j k') : TableInv k' := by
  have hold : ∀ i, i ≠ j → k'.processes i = k.processes i := hc.others
  -- the slots below the new one are taken, so it lies at most at the end of the table
  have hle : j ≤ k.processCount := by
    rcases Nat.lt_or_ge k.processCount j with hlt | hge
    · exact absurd (h.bound _ (hc.first _ hlt)) (by omega)
    · exact hge
  have hlow : (k'.processes j).pid.toNat % 256 = j + 1 := by
    rw [hc.pid]
    exact makePid_low _ hc.bound
  have hcount := hc.count
  have hne : k.current ≠ .slot j := by
    intro hcur
    have ha := h.current j hcur
    rw [hc.free] at ha
    cases ha
  refine ⟨?_, fun i hi => ?_, fun i hi => ?_, fun i hi => ?_, fun i hi => ?_, ?_, fun i => ?_, ?_⟩
  · have := h.count
    have := hc.bound
    rw [hcount]
    split <;> omega
  · rw [hcount]
    by_cases hij : i = j
    · subst hij
      split
      · omega
      · rename_i hn
        have : i ≠ k.processCount := fun he => hn ⟨hi, he⟩
        omega
    · rw [hold i hij] at hi
      have := h.bound i hi
      split <;> omega
  · by_cases hij : i = j
    · rw [hij]
      exact hlow
    · rw [hold i hij] at hi ⊢
      exact h.pid i hi
  · by_cases hij : i = j
    · subst hij
      intro he
      rw [← he] at hlow
      rcases hc.parent hne hi with hp | hp
      · rw [hp] at hlow
        simp at hlow
      · rw [hp] at hlow
        exact h.current_pid hc.bound hc.free hlow
    · rw [hold i hij] at hi ⊢
      exact h.parent i hi
  · rw [hc.current] at hi
    have ha := h.current i hi
    rw [hold i fun he => ?_]
    · exact ha
    · rw [he, hc.free] at ha
      cases ha
  · rw [hc.idle]
    exact h.idlePid
  · by_cases hij : i = j
    · rw [hij]
      exact hc.ticks
    · rw [hold i hij]
      exact h.ticks i
  · rw [hc.idle]
    exact h.idleTicks

theorem TableInv.congr (h : TableInv k)
    (hp : ∀ i, (k'.processes i).pid = (k.processes i).pid ∧
      (k'.processes i).allocated = (k.processes i).allocated ∧
      (k'.processes i).ticks = (k.processes i).ticks ∧
      (k'.processes i).parentPid = (k.processes i).parentPid)
    (hn : k'.processCount = k.processCount) (hc : k'.current = k.current)
    (hi : k'.idle.pid = k.idle.pid ∧ k'.idle.ticks = k.idle.ticks) : TableInv k' := by
  refine ⟨hn ▸ h.count, fun i hi => ?_, fun i hi => ?_, fun i hi => ?_,
    fun i hi => ?_, hi.1.trans h.idlePid,
    fun i => (hp i).2.2.1.trans (h.ticks i), hi.2.trans h.idleTicks⟩
  all_goals obtain ⟨h1, h2, -, h4⟩ := hp i
  · rw [hn]
    exact h.bound i (h2 ▸ hi)
  · rw [h1]
    exact h.pid i (h2 ▸ hi)
  · rw [h1, h4]
    exact h.parent i (h2 ▸ hi)
  · rw [h2]
    exact h.current i (hc ▸ hi)

theorem TableInv.step (h : TableInv k) (hs : TableStep k k') : TableInv k' := by
  cases hs with
  | steps hs => exact h.steps hs
  | created hc => exact h.created hc
  | ended hc ha hs => exact (h.created hc).steps hs
  | @reaped i f vmm ha hz hp hf =>
    obtain ⟨hfa, hft, -⟩ := hf (k.processes i)
    have hself : ((({ k with vmm } : Kernel).modify i f).processes i).allocated = false := by
      rw [modify_self]
      exact hfa
    -- nobody is its own parent, so the process that waits is not the one that is taken out
    have hother : ∀ c, k.current = .slot c → c ≠ i := by
      rintro c hc rfl
      rw [hc] at hp
      exact h.parent c ha hp
    have hold : ∀ c, c ≠ i → (({ k with vmm } : Kernel).modify i f).processes c = k.processes c :=
      fun c hc => modify_ne _ _ hc
    have hlive : ∀ c, ((({ k with vmm } : Kernel).modify i f).processes c).allocated = true → c ≠ i := by
      rintro c hc rfl
      rw [hself] at hc
      cases hc
    refine ⟨h.count, fun c hc => ?_, fun c hc => ?_, fun c hc => ?_, fun c hc => ?_, h.idlePid,
      fun c => ?_, h.idleTicks⟩
    · have hne := hlive c hc
      rw [hold c hne] at hc
      exact h.bound c hc
    · have hne := hlive c hc
      rw [hold c hne] at hc ⊢
      exact h.pid c hc
    · have hne := hlive c hc
      rw [hold c hne] at hc ⊢
      exact h.parent c hc
    · rw [hold c (hother c hc)]
      exact h.current c hc
    · by_cases hci : c = i
      · rw [hci, modify_self]
        exact hft.trans (h.ticks i)
      · rw [hold c hci]
        exact h.ticks c
  | @blocked f vmm hf =>
    refine h.congr (fun j => ?_) (modifyRef_count _ _ _) (modifyRef_current _ _ _) ?_
    · rcases modifyRef_processes ({ k with vmm } : Kernel) f k.current j with he | he
      · rw [he]
        exact ⟨rfl, rfl, rfl, rfl⟩
      · obtain ⟨h1, h2, -, h4, h5⟩ := hf (k.processes j)
        rw [he]
        exact ⟨h1, h2, h4, h5⟩
    · rcases modifyRef_idle ({ k with vmm } : Kernel) f k.current with he | he
      · rw [he]
        exact ⟨rfl, rfl⟩
      · obtain ⟨h1, -, -, h4, -⟩ := hf k.idle
        rw [he]
        exact ⟨h1, h4⟩

theorem findPid_some {pid : Word} {also : Pcb → Bool} (h : findPid k pid also = some i) :
    (k.processes i).allocated = true ∧ (k.processes i).pid = pid ∧ also (k.processes i) = true := by
  have := List.find?_some h
  simp only [Bool.and_eq_true, beq_iff_eq] at this
  exact ⟨this.1.1, this.1.2, this.2⟩

theorem wait_table {child status rc : Word} (h : processWait child status k = .ok (rc, k')) :
    TableStep k k' := by
  rcases wait_inv h with ⟨-, -, rfl⟩ | ⟨i, hfind, ⟨hz, -, vmm, -, rfl⟩ | ⟨-, -, rfl⟩⟩
  · exact .quiet (Steps.refl _)
  · obtain ⟨ha, -, hp⟩ := findPid_some hfind
    refine .reaped _ ha hz (by simpa using hp) ?_
    exact fun p => ⟨rfl, rfl, rfl⟩
  · refine .blocked k.vmm ?_
    exact fun p => ⟨rfl, rfl, rfl, rfl, rfl⟩

theorem futexWait_table {key expected timeout : Word} {rc : Int}
    (h : processFutexWait key expected timeout k = .ok (rc, k')) : TableStep k k' := by
  rcases futexWait_inv h with ⟨-, vmm, rfl⟩ | ⟨-, vmm, deadline, rfl⟩
  · exact .quiet (steps_vmm k vmm)
  · refine .blocked vmm ?_
    exact fun p => ⟨rfl, rfl, rfl, rfl, rfl⟩

end

section

variable {s s' : System} {k : Kernel}

theorem Creation.table {res : Option Nat × Kernel} (hc : Creation k res) : TableStep k res.2 := by
  cases hc with
  | refused vmm => exact .quiet (steps_vmm _ _)
  | failed hj => exact .created hj
  | made hj ha => exact .created hj

theorem Forked.table {res : Option Nat × Kernel} (h : Forked k res) : TableStep k res.2 := by
  cases h with
  | creation hc => exact hc.table
  | ended hj ha hexit => exact .ended hj ha (exit_steps hexit)

theorem kernelStep_table {op : KernelOp} (hinv : TableInv s.kernel) (h : kernelStep s op = some s') :
    TableStep s.kernel s'.kernel := by
  cases op with
  | createEntry | createThread | createUser | createFromPath | fork =>
    obtain ⟨res, hf, rfl⟩ := kernelStep_creates rfl h
    exact hf.table
  | add i =>
    obtain ⟨-, rc, hadd, -⟩ := add_inv h
    exact .quiet (schedulerAdd_relinks hadd).quiet
  | timerTick r registers =>
    obtain ⟨⟨f, ht⟩, -⟩ := after_map_inv h
    have hframe : Quiet s.kernel (s.kernel.setFrame (.stack r) registers) := steps_of_eq rfl rfl rfl rfl
    exact .steps (hframe.trans (tick_quiet hinv.ticks hinv.idleTicks ht))
  | blockCurrent r registers =>
    obtain ⟨⟨f, hb⟩, -⟩ := after_map_inv h
    have hframe : Quiet s.kernel (s.kernel.setFrame (.stack r) registers) := steps_of_eq rfl rfl rfl rfl
    exact .steps (hframe.trans (block_quiet hb))
  | exitWithStatus pid status =>
    obtain ⟨⟨rc, he⟩, -⟩ := after_map_inv h
    exact .steps (exit_steps he)
  | wait child status =>
    obtain ⟨⟨rc, hw⟩, -⟩ := after_map_inv h
    exact wait_table hw
  | sendSignal pid signal =>
    obtain ⟨⟨rc, hs⟩, -⟩ := after_map_inv h
    exact .steps (signal_steps hs)
  | futexWait key expected timeout =>
    obtain ⟨⟨rc, hw⟩, -⟩ := after_map_inv h
    exact futexWait_table hw
  | futexWake key count =>
    obtain ⟨⟨rc, hw⟩, -⟩ := after_map_inv h
    exact .steps (futexWake_quiet hw)
  | pollTimeouts => exact .steps (poll_quiet (after_inv h).1)
  | timerIrq =>
    obtain ⟨he, -⟩ : (.ok (timerIrq s.kernel) : Except Halt Kernel) = .ok s'.kernel ∧ _ := after_inv h
    rw [← Except.ok.inj he]
    exact .quiet (steps_of_eq rfl rfl rfl rfl)
  | memory call =>
    obtain ⟨vmm, -, rfl⟩ := memory_inv h
    exact .quiet (steps_vmm _ _)

end

end Ceblar
