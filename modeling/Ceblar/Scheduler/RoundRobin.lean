import Ceblar.Kernel.Process

/-! # Switching processes (`scheduler/round_robin.c`) -/

namespace Ceblar

def quantumTicks : Word := 1

def activate (i : Nat) (k : Kernel) : Kernel :=
  let k := k.modify i fun p => { p with state := .running }
  { k with
    vmm := vmmSwitchAddressSpace k.vmm (k.processes i).addressSpace
    current := .slot i }

def resumeFrame (i : Nat) (k : Kernel) : FramePtr :=
  (k.processes i).interruptFrame.getD (processInitialFrame i k)

def requeue (ref : PcbRef) (k : Kernel) : Except Halt Kernel :=
  match ref with
  | .idle => .ok k
  | .slot i =>
    if (k.processes i).state = .running then enqueue i (k.modify i fun p => { p with state := .ready })
    else .ok k

def settle (previous : PcbRef) (k : Kernel) : Kernel :=
  { k with current := if (k.pcb previous).state = .running then previous else .idle }

def schedulerTimerTick (r : FramePtr) (k : Kernel) : Except Halt (FramePtr × Kernel) := do
  let k ← processPollTimeouts k
  let k := k.modifyRef (fun p => { p with interruptFrame := some r, ticks := p.ticks + 1 }) k.current
  if (k.pcb k.current).ticks < quantumTicks then return (r, k)
  let k := k.modifyRef (fun p => { p with ticks := 0 }) k.current
  let previous := k.current
  let k ← requeue previous k
  let (n, k) ← nextReady k
  if n = previous then return (r, k)
  match n with
  | .idle =>
    let k :=
      if previous ≠ .idle ∧ (k.pcb previous).state = .ready then
        k.modifyRef (fun p => { p with state := .running }) previous
      else k
    return (r, settle previous k)
  | .slot i =>
    let k := activate i k
    return (resumeFrame i k, k)

/-- `switch_from_current`, which is all of `scheduler_block_current`. -/
def schedulerBlockCurrent (r : FramePtr) (k : Kernel) : Except Halt (FramePtr × Kernel) := do
  let previous := k.current
  let k := k.modifyRef
    (fun p =>
      { p with interruptFrame := some r, state := if p.state = .running then .blocked else p.state })
    previous
  let (n, k) ← nextReady k
  match n with
  | .idle =>
    let k :=
      if previous ≠ .idle ∧ (k.pcb previous).state ≠ .blocked ∧ (k.pcb previous).state ≠ .zombie then
        k.modifyRef (fun p => { p with state := .running }) previous
      else k
    return (r, settle previous k)
  | .slot i =>
    let k := activate i k
    return (resumeFrame i k, k)

/-! ## Cooperative switches -/

/-- The registers that `context_switch` saves and loads; the others are dead across the call. -/
structure CalleeSaved where
  esp : Word
  ebp : Word
  ebx : Word
  esi : Word
  edi : Word
  deriving DecidableEq

/-- What `context_switch` stores to the process it leaves: `esi` at the offset of `edi`, and
`edi` at that of `esi`. -/
def CpuState.save (s : CpuState) (cpu : CalleeSaved) : CpuState :=
  { s with esp := cpu.esp, ebp := cpu.ebp, ebx := cpu.ebx, edi := cpu.esi, esi := cpu.edi }

def CpuState.load (s : CpuState) : CalleeSaved :=
  { esp := s.esp, ebp := s.ebp, ebx := s.ebx, esi := s.edi, edi := s.esi }

def activateRef : PcbRef → Kernel → Kernel
  | .idle, k =>
    { k with
      idle := { k.idle with state := .running }
      vmm := vmmSwitchAddressSpace k.vmm k.idle.addressSpace
      current := .idle }
  | .slot i, k => activate i k

/-- `rr_tick`, called with these registers; the registers with which the processor leaves
`context_switch`, if it gets there. -/
def rrTick (cpu : CalleeSaved) (k : Kernel) : Except Halt (Option CalleeSaved × Kernel) := do
  let k := k.modifyRef (fun p => { p with ticks := p.ticks + 1 }) k.current
  if (k.pcb k.current).ticks < quantumTicks then return (none, k)
  let k := k.modifyRef (fun p => { p with ticks := 0 }) k.current
  let previous := k.current
  let k ← requeue previous k
  let (n, k) ← nextReady k
  if n = previous then return (none, k)
  let k := activateRef n k
  let k := k.modifyRef (fun p => { p with cpuState := p.cpuState.save cpu }) previous
  return (some (k.pcb n).cpuState.load, k)

def schedulerYield (cpu : CalleeSaved) (k : Kernel) : Except Halt (Option CalleeSaved × Kernel) :=
  rrTick cpu (k.modifyRef (fun p => { p with ticks := quantumTicks }) k.current)

def schedulerSetCurrent (i : Nat) (k : Kernel) : Kernel :=
  { k with current := .slot i }.modify i fun p => { p with state := .running, interruptFrame := none }

/-- The process enters itself, or is entered while nobody else runs. -/
def Kernel.mayEnter (k : Kernel) (i : Nat) : Bool := k.current = .slot i ∨ k.current = .idle

def processEnterUser (i : Nat) (k : Kernel) : Kernel :=
  if !(k.processes i).userMode || (k.processes i).addressSpace.isNone then k
  else
    let k := schedulerSetCurrent i k
    { k with vmm := vmmSwitchAddressSpace k.vmm (k.processes i).addressSpace }.modify i fun p =>
      { p with state := .running }

/-! ## What a switch does -/

section

variable {r f : FramePtr} {k k' : Kernel}

theorem modifyRef_current (k : Kernel) (g : Pcb → Pcb) (ref : PcbRef) :
    (k.modifyRef g ref).current = k.current := by
  cases ref with
  | idle => rfl
  | slot i => rfl

theorem modifyRef_pcb (k : Kernel) (g : Pcb → Pcb) (ref : PcbRef) :
    (k.modifyRef g ref).pcb ref = g (k.pcb ref) := by
  cases ref with
  | idle => rfl
  | slot i => simp [Kernel.modifyRef, Kernel.modify, Kernel.pcb]

theorem modifyRef_modifyRef (k : Kernel) (g h : Pcb → Pcb) (ref : PcbRef) :
    (k.modifyRef g ref).modifyRef h ref = k.modifyRef (fun p => h (g p)) ref := by
  cases ref with
  | idle => rfl
  | slot i => simp [Kernel.modifyRef, Kernel.modify]

def stamp (r : FramePtr) (k : Kernel) : Kernel :=
  k.modifyRef (fun p => { p with interruptFrame := some r, ticks := 0 }) k.current

def restore (previous : PcbRef) (k : Kernel) : Kernel :=
  if previous ≠ .idle ∧ (k.pcb previous).state = .ready then
    k.modifyRef (fun p => { p with state := .running }) previous
  else k

/-- The end of `scheduler_timer_tick`, once `next_ready` has answered. -/
inductive AfterTick (previous : PcbRef) (r : FramePtr) (k : Kernel) : PcbRef → FramePtr → Kernel → Prop
  | again : AfterTick previous r k previous r k
  | none (h : previous ≠ .idle) : AfterTick previous r k .idle r (settle previous (restore previous k))
  | other {i : Nat} (h : .slot i ≠ previous) :
    AfterTick previous r k (.slot i) (resumeFrame i (activate i k)) (activate i k)

theorem tick_cases (h : schedulerTimerTick r k = .ok (f, k')) :
    ∃ k1, processPollTimeouts k = .ok k1 ∧
      ((k1.pcb k1.current).ticks + 1 < quantumTicks ∧ f = r ∧
        k' = k1.modifyRef
          (fun p => { p with interruptFrame := some r, ticks := p.ticks + 1 }) k1.current ∨
      ∃ k2 n k3, requeue k1.current (stamp r k1) = .ok k2 ∧ nextReady k2 = .ok (n, k3) ∧
        AfterTick k1.current r k3 n f k') := by
  unfold schedulerTimerTick at h
  obtain ⟨k1, hpoll, h⟩ := bind_eq_ok.mp h
  refine ⟨k1, hpoll, ?_⟩
  simp only [modifyRef_current, modifyRef_pcb, modifyRef_modifyRef] at h
  split at h
  · rename_i hq
    cases h
    exact .inl ⟨hq, rfl, rfl⟩
  · obtain ⟨k2, hreq, h⟩ := bind_eq_ok.mp h
    obtain ⟨⟨n, k3⟩, hnext, h⟩ := bind_eq_ok.mp h
    refine .inr ⟨k2, n, k3, hreq, hnext, ?_⟩
    dsimp only at h
    split at h
    · rename_i hn
      cases h
      rw [hn]
      exact .again
    · rename_i hn
      cases n with
      | idle =>
        cases h
        exact .none (Ne.symm hn)
      | slot i =>
        cases h
        exact .other hn

theorem tick_inv (ht : ∀ k1, processPollTimeouts k = .ok k1 → (k1.pcb k1.current).ticks = 0)
    (h : schedulerTimerTick r k = .ok (f, k')) :
    ∃ k1 k2 n k3, processPollTimeouts k = .ok k1 ∧ requeue k1.current (stamp r k1) = .ok k2 ∧
      nextReady k2 = .ok (n, k3) ∧ AfterTick k1.current r k3 n f k' := by
  obtain ⟨k1, hpoll, ⟨hq, -⟩ | ⟨k2, n, k3, hreq, hnext, hend⟩⟩ := tick_cases h
  · rw [ht k1 hpoll] at hq
    exact absurd hq (by decide)
  · exact ⟨k1, k2, n, k3, hpoll, hreq, hnext, hend⟩

def suspend (r : FramePtr) (k : Kernel) : Kernel :=
  k.modifyRef
    (fun p =>
      { p with interruptFrame := some r, state := if p.state = .running then .blocked else p.state })
    k.current

/-- The end of `scheduler_block_current`. -/
inductive AfterBlock (previous : PcbRef) (r : FramePtr) (k : Kernel) : PcbRef → FramePtr → Kernel → Prop
  | none (k1 : Kernel) (h : k1 = if previous ≠ .idle ∧ (k.pcb previous).state ≠ .blocked ∧
      (k.pcb previous).state ≠ .zombie then k.modifyRef
        (fun p => { p with state := .running }) previous else k) :
    AfterBlock previous r k .idle r (settle previous k1)
  | other (i : Nat) : AfterBlock previous r k (.slot i) (resumeFrame i (activate i k)) (activate i k)

theorem block_inv (h : schedulerBlockCurrent r k = .ok (f, k')) :
    ∃ n k2, nextReady (suspend r k) = .ok (n, k2) ∧ AfterBlock k.current r k2 n f k' := by
  unfold schedulerBlockCurrent at h
  obtain ⟨⟨n, k2⟩, hnext, h⟩ := bind_eq_ok.mp h
  refine ⟨n, k2, hnext, ?_⟩
  cases n with
  | idle =>
    cases h
    exact .none _ rfl
  | slot i =>
    cases h
    exact .other i

inductive AfterYield (previous : PcbRef) (cpu : CalleeSaved) (k : Kernel) :
    PcbRef → Option CalleeSaved → Kernel → Prop
  | again : AfterYield previous cpu k previous none k
  | other {n : PcbRef} (h : n ≠ previous) (k1 : Kernel)
      (h1 : k1 =
        (activateRef n k).modifyRef (fun p => { p with cpuState := p.cpuState.save cpu }) previous) :
    AfterYield previous cpu k n (some (k1.pcb n).cpuState.load) k1

theorem yield_inv {cpu : CalleeSaved} {loaded : Option CalleeSaved}
    (h : schedulerYield cpu k = .ok (loaded, k')) :
    ∃ k2 n k3, requeue k.current (k.modifyRef (fun p => { p with ticks := 0 }) k.current) = .ok k2 ∧
      nextReady k2 = .ok (n, k3) ∧ AfterYield k.current cpu k3 n loaded k' := by
  unfold schedulerYield rrTick at h
  simp only [modifyRef_current, modifyRef_pcb, modifyRef_modifyRef] at h
  rw [if_neg (by simp [quantumTicks])] at h
  obtain ⟨k2, hreq, h⟩ := bind_eq_ok.mp h
  obtain ⟨⟨n, k3⟩, hnext, h⟩ := bind_eq_ok.mp h
  refine ⟨k2, n, k3, hreq, hnext, ?_⟩
  dsimp only at h
  split at h
  · rename_i hn
    cases h
    rw [hn]
    exact .again
  · rename_i hn
    cases h
    exact .other hn _ rfl

end

end Ceblar
