import Ceblar.Scheduler.ReadyList

/-! # Process operations (`kernel/process.c`)

Creation, exit, wait, signals and futexes. `scheduler_current()` is never null.
-/

namespace Ceblar

/-! ## Creation -/

def frameFor (i : Nat) (entry stack : Word) (user : Bool) (k : Kernel) : Kernel :=
  let f : FramePtr := if user then .initial i else .kernelTop i
  let k := k.setFrame f
    { edi := 0, esi := 0, ebp := 0, esp := 0, ebx := 0, edx := 0, ecx := 0, eax := 0, intNo := 0, errCode := 0,
      eip := entry
      cs := if user then 0x1b else 0x08
      eflags := 0x202
      useresp := stack
      ss := if user then 0x23 else 0x10 }
  k.modify i fun p => { p with interruptFrame := none }

def nextGeneration (g : Word) : Word :=
  let g := (g + 1) &&& 0x00ffffff
  if g = 0 then 1 else g

/-- What `new_pcb` sets before it creates the address space. -/
def Pcb.claim (p : Pcb) (i : Nat) : Pcb :=
  let generation := nextGeneration p.generation
  { p with
    generation := generation
    pid := generation <<< 8 ||| BitVec.ofNat 32 (i + 1)
    allocated := true
    state := .ready
    ticks := 0
    next := none
    entryPoint := 0
    userStack := 0
    userMode := false }

def zeroRegisters : Registers where
  edi := 0
  esi := 0
  ebp := 0
  esp := 0
  ebx := 0
  edx := 0
  ecx := 0
  eax := 0
  intNo := 0
  errCode := 0
  eip := 0
  cs := 0
  eflags := 0
  useresp := 0
  ss := 0

def Pcb.reset (p : Pcb) (space : Nat) : Pcb :=
  { p with
    addressSpace := some space
    parentPid := 0
    exitCode := 0
    waitForPid := 0
    waitStatusPtr := 0
    waitStatus := 0
    credentials := { uid := 0, gid := 0, euid := 0, egid := 0, capabilities := 3 }
    pendingSignals := 0
    signalMask := 0
    futexKey := 0
    futexExpected := 0
    interruptFrame := none
    signalActive := false
    futexDeadline := 0
    signalHandlers := fun _ => 0
    signalSavedFrame := zeroRegisters }

/-- `new_pcb`; `none` is the source's null. -/
def newPcb (k : Kernel) : Option Nat × Kernel :=
  match (List.range maxProcesses).find? fun i => !(k.processes i).allocated with
  | none => (none, k)
  | some i =>
    let grew := i = k.processCount
    let k1 :=
      { k with processCount := if grew then k.processCount + 1 else k.processCount }.modify i (·.claim i)
    match vmmCreateAddressSpace k.vmm with
    | none =>
      (none, { k1 with processCount := k.processCount }.modify i fun p =>
        { p with addressSpace := none, allocated := false })
    | some (space, vmm) => (some i, { k1 with vmm }.modify i (·.reset space))

def processCreateEntry (entry : Word) (k : Kernel) : Option Nat × Kernel :=
  match newPcb k with
  | (none, k) => (none, k)
  | (some i, k) =>
    let k := k.modify i fun p =>
      { p with entryPoint := entry, cpuState := { p.cpuState with eip := entry, eflags := 0x202 } }
    if entry = 0 then (some i, k)
    else
      let top := k.stackTop i - 64
      let k := k.modify i fun p => { p with cpuState := { p.cpuState with esp := top } }
      (some i, frameFor i entry top false k)

def processCreateThread (entry : Word) (k : Kernel) : Option Nat × Kernel :=
  let owner := k.pcb k.current
  if owner.addressSpace.isNone || owner.userMode || entry = 0 then (none, k)
  else
    match processCreateEntry entry k with
    | (none, k) => (none, k)
    | (some i, k) =>
      let owner := k.pcb k.current
      let vmm := ((k.processes i).addressSpace.map (vmmDestroyAddressSpace k.vmm)).getD k.vmm
      let vmm := (owner.addressSpace.map (vmmRetainAddressSpace vmm)).getD vmm
      (some i, { k with vmm }.modify i fun p =>
        { p with addressSpace := owner.addressSpace, parentPid := owner.pid })

/-- `process_create_user`. A process that finds no frame for its stack stays in the table. -/
def processCreateUser (entry : Word) (k : Kernel) : Option Nat × Kernel :=
  match newPcb k with
  | (none, k) => (none, k)
  | (some i, k) =>
    match (k.processes i).addressSpace, pmmAllocPage k.vmm.pmm with
    | none, _ | _, none => (none, k)
    | some space, some (page, pmm) =>
      match vmmMapUser { k.vmm with pmm } space (userStackTop - 4096) page pageWrite with
      | none => (none, { k with vmm := { k.vmm with pmm := pmmFreePage pmm page } })
      | some vmm =>
        let k := { k with vmm }.modify i fun p =>
          { p with
            entryPoint := entry
            userStack := userStackTop
            userMode := true
            cpuState := { p.cpuState with eip := entry, esp := userStackTop, eflags := 0x202 } }
        (some i, frameFor i entry userStackTop true k)

/-- `vmm_user_alloc` for one page; `none` is the source's 0. -/
def vmmUserAllocPage (m : Vmm) (space : Nat) (virt flags : Word) : Option Vmm × Vmm :=
  match pmmAllocPage m.pmm with
  | none => (none, m)
  | some (page, pmm) =>
    match vmmMapUser { m with pmm } space virt page flags with
    | none => (none, { m with pmm := pmmFreePage pmm page })
    | some m => (some m, m)

/-- `elf32_load` on the file that was read, into a space: the entry point, if it is accepted. -/
abbrev Loader := Nat → Vmm → Option Word × Vmm

/-- `process_create_from_path`; `image` is `none` if the file cannot be opened or read. -/
def processCreateFromPath (image : Option Loader) (k : Kernel) : Option Nat × Kernel :=
  match image with
  | none => (none, k)
  | some load =>
    match processCreateUser 0 k with
    | (none, k) => (none, k)
    | (some i, k) =>
      let old := (k.processes i).addressSpace
      match vmmCreateAddressSpace k.vmm with
      | none => (none, k)
      | some (space, vmm) =>
        match vmmUserAllocPage vmm space (userStackTop - 4096) pageWrite with
        | (none, vmm) => (none, { k with vmm := vmmDestroyAddressSpace vmm space })
        | (some vmm, _) =>
          match load space vmm with
          | (none, vmm) => (none, { k with vmm := vmmDestroyAddressSpace vmm space })
          | (some entry, vmm) =>
            let vmm := (old.map (vmmDestroyAddressSpace vmm)).getD vmm
            let k := { k with vmm }.modify i fun p =>
              { p with
                addressSpace := some space
                entryPoint := entry
                cpuState := { p.cpuState with eip := entry, esp := userStackTop } }
            (some i, frameFor i entry userStackTop true k)

/-! ## Exit and wait -/

def findPid (k : Kernel) (pid : Word) (also : Pcb → Bool) : Option Nat :=
  (List.range k.processCount).find? fun i =>
    (k.processes i).allocated && (k.processes i).pid == pid && also (k.processes i)

def processGetCredentials (pid : Word) (k : Kernel) : Option Credentials :=
  (findPid k pid fun _ => true).map fun i => (k.processes i).credentials

def orphanZombies (pid : Word) (k : Kernel) : Kernel :=
  forRange k.processCount (fun j k =>
    let p := k.processes j
    if p.allocated && p.parentPid == pid && p.state == .zombie then
      k.modify j fun p => { p with parentPid := 0 }
    else k) k

/-- The test with which `process_exit_with_status` looks for a waiting process. It compares the
PID that exits with the waiter's parent, not the waiter with the parent of the one that exits. -/
def Pcb.waitsFor (p : Pcb) (pid : Word) : Bool :=
  p.allocated && p.parentPid == pid && p.state == .blocked && p.waitForPid == pid

def wakeWaiter (i : Nat) (pid : Word) (j : Nat) (k : Kernel) : Except Halt Kernel :=
  if (k.processes j).waitsFor pid then do
    let code := (k.processes i).exitCode
    let k := k.modify j fun p => { p with state := .ready, waitForPid := 0, waitStatus := code }
    let vmm ←
      if (k.processes j).waitStatusPtr = 0 then pure k.vmm
      else k.vmm.kernelStore32 (k.processes j).waitStatusPtr code
    let k := ({ k with vmm } : Kernel).setEax (k.processes j).interruptFrame pid
    let (_, k) ← schedulerAdd j k
    return k
  else .ok k

def processExitWithStatus (pid status : Word) (k : Kernel) : Except Halt (Int × Kernel) :=
  match findPid k pid fun _ => true with
  | none => .ok (-1, k)
  | some i => do
    let k := k.modify i fun p => { p with state := .zombie, exitCode := status }
    let k := orphanZombies pid k
    let k ← forRangeE k.processCount (wakeWaiter i pid) k
    return (0, k)

/-- `process_wait`; a `status` of 0 is the null pointer. -/
def processWait (child status : Word) (k : Kernel) : Except Halt (Word × Kernel) :=
  let parent := k.pcb k.current
  match findPid k child fun p => p.parentPid == parent.pid with
  | none => .ok (-1, k)
  | some i =>
    if (k.processes i).state = .zombie then do
      let vmm ← if status = 0 then pure k.vmm else k.vmm.kernelStore32 status (k.processes i).exitCode
      let vmm := ((k.processes i).addressSpace.map (vmmDestroyAddressSpace vmm)).getD vmm
      let k := ({ k with vmm } : Kernel).modify i fun p =>
        { p with
          addressSpace := none
          parentPid := 0
          state := .ready
          next := none
          interruptFrame := none
          allocated := false }
      return (child, k)
    else
      .ok (0, k.modifyRef
        (fun p => { p with waitForPid := child, waitStatusPtr := status, state := .blocked }) k.current)

def processFork (k : Kernel) : Except Halt (Option Nat × Kernel) :=
  match newPcb k with
  | (none, k) => .ok (none, k)
  | (some i, k) => do
    let parent := k.pcb k.current
    let k := k.modify i fun p =>
      { p with
        cpuState := { parent.cpuState with eax := 0 }
        entryPoint := parent.entryPoint
        userMode := parent.userMode
        credentials := parent.credentials
        userStack := parent.userStack
        parentPid := parent.pid }
    let (k, ok) ←
      match parent.addressSpace with
      | none => pure (k, true)
      | some source =>
        match vmmCloneAddressSpaceCow k.vmm source with
        | (none, vmm) => do
          let (_, k) ← processExitWithStatus (k.processes i).pid 0 { k with vmm }
          pure (k, false)
        | (some clone, vmm) =>
          let vmm := ((k.processes i).addressSpace.map (vmmDestroyAddressSpace vmm)).getD vmm
          pure (({ k with vmm } : Kernel).modify i fun p => { p with addressSpace := some clone }, true)
    if !ok then return (none, k)
    let child := k.processes i
    if parent.userMode then return (some i, frameFor i child.entryPoint child.userStack true k)
    else if child.entryPoint = 0 then return (some i, k)
    else return (some i, frameFor i child.entryPoint child.cpuState.esp false k)

/-! ## Signals and futexes -/

def processSendSignal (pid signal : Word) (k : Kernel) : Except Halt (Int × Kernel) :=
  if signal = 0 ∨ 31 < signal then .ok (-1, k)
  else if signal = 9 then processExitWithStatus pid (128 + 9) k
  else
    match findPid k pid fun p => p.state != .zombie with
    | none => .ok (-1, k)
    | some i => do
      let k := k.modify i fun p => { p with pendingSignals := p.pendingSignals ||| 1 <<< signal.toNat }
      if (k.processes i).state = .blocked then
        let k := k.modify i fun p => { p with state := .ready, futexKey := 0, futexDeadline := 0 }
        let (_, k) ← schedulerAdd i k
        return (0, k)
      else return (0, k)

/-- `process_futex_wait`. The word is read twice. -/
def processFutexWait (key expected timeout : Word) (k : Kernel) : Except Halt (Int × Kernel) :=
  match (k.pcb k.current).addressSpace with
  | none => .ok (-11, k)
  | some space =>
    if key = 0 then .ok (-11, k)
    else do
      let (rc, vmm) ← vmmValidateUserPtr k.vmm space key 4 1
      if rc ≠ 0 then return (-11, { k with vmm })
      let (word, vmm) ← vmm.kernelLoad32 key
      if word ≠ expected then return (-11, { k with vmm })
      let (word, vmm) ← vmm.kernelLoad32 key
      if word ≠ expected then return (-11, { k with vmm })
      let deadline := if timeout ≠ 0 then timerUptimeMs k + timeout else 0
      return (0, ({ k with vmm } : Kernel).modifyRef
        (fun p =>
          { p with futexKey := key, futexExpected := expected, futexDeadline := deadline, state := .blocked })
        k.current)

def Pcb.due (p : Pcb) (now : Word) : Bool :=
  p.allocated && p.state == .blocked && p.futexKey != 0 && p.futexDeadline != 0 &&
    decide (0 ≤ (now - p.futexDeadline).toInt)

def pollSlot (now : Word) (i : Nat) (k : Kernel) : Except Halt Kernel :=
  if (k.processes i).due now then
    let k := k.modify i fun p => { p with futexKey := 0, futexExpected := 0, futexDeadline := 0 }
    if k.current = .slot i then .ok (k.modify i fun p => { p with state := .running })
    else do
      let k := k.modify i fun p => { p with state := .ready }
      let k := k.setEax (k.processes i).interruptFrame (-110)
      let (_, k) ← schedulerAdd i k
      return k
  else .ok k

def processPollTimeouts (k : Kernel) : Except Halt Kernel :=
  forRangeE k.processCount (pollSlot (timerUptimeMs k)) k

def wakeFutex (key count : Word) (i : Nat) (st : Nat × Kernel) : Except Halt (Nat × Kernel) :=
  let (woken, k) := st
  if (count = 0 ∨ woken < count.toNat) ∧ (k.processes i).state = .blocked ∧
    (k.processes i).futexKey = key then do
    let k := k.modify i fun p => { p with futexKey := 0, futexDeadline := 0, state := .ready }
    let k := k.setEax (k.processes i).interruptFrame 0
    let (_, k) ← schedulerAdd i k
    return (woken + 1, k)
  else .ok (woken, k)

def processFutexWake (key count : Word) (k : Kernel) : Except Halt (Int × Kernel) :=
  if key = 0 then .ok (-1, k)
  else do
    let (woken, k) ← forRangeE k.processCount (wakeFutex key count) (0, k)
    return (woken, k)

def processInitialFrame (i : Nat) (k : Kernel) : FramePtr :=
  if (k.processes i).userMode then .initial i else .kernelTop i

end Ceblar
