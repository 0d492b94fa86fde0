import Ceblar.Kernel.Mmap
import Ceblar.Scheduler.Queue

/-! # Runs of the process table and the scheduler

The creations, `scheduler_add`, what system calls, faults and the timer do to the table, the ready
list and the memory, each as a step.
-/

namespace Ceblar

structure System where
  kernel : Kernel
  /-- The processes in the table that `scheduler_add` took after their creation. -/
  added : Nat → Bool

/-- What a process does to the memory of its space, which is the active one. -/
inductive MemCall where
  | mmap (a b c : Word)
  | munmap (a b : Word)
  | fault (error address cr2 : Word)

inductive KernelOp where
  | createEntry (entry : Word)
  | createThread (entry : Word)
  | createUser (entry : Word)
  | createFromPath (image : Option Loader)
  | fork
  /-- `scheduler_add`. Not every creation is followed by it, and none by more than one. -/
  | add (i : Nat)
  /-- A timer interrupt that leaves these registers at `r`. -/
  | timerTick (r : Word) (registers : Registers)
  /-- The end of a system call that was entered with these registers at `r`. -/
  | blockCurrent (r : Word) (registers : Registers)
  | exitWithStatus (pid status : Word)
  | wait (child status : Word)
  | sendSignal (pid signal : Word)
  | futexWait (key expected timeout : Word)
  | futexWake (key count : Word)
  | pollTimeouts
  | timerIrq
  | memory (call : MemCall)

def System.create (s : System) (res : Option Nat × Kernel) : System := { s with kernel := res.2 }

/-- An operation that is no creation. A slot that was freed holds no process that was added. -/
def System.after (s : System) : Except Halt Kernel → Option System
  | .error _ => none
  | .ok k => some { kernel := k, added := fun i => s.added i && (k.processes i).allocated }

def memCall (m : Vmm) : MemCall → Option Vmm
  | .mmap a b c => m.currentSpace.map fun s => (Syscall.mm m s a b c).elim m Prod.snd
  | .munmap a b => m.currentSpace.map fun s => (Syscall.mu m s a b).getD m
  | .fault error address cr2 => (vmmPageFault m error address cr2).toOption

def kernelStep (s : System) : KernelOp → Option System
  | .createEntry entry => some (s.create (processCreateEntry entry s.kernel))
  | .createThread entry => some (s.create (processCreateThread entry s.kernel))
  | .createUser entry => some (s.create (processCreateUser entry s.kernel))
  | .createFromPath image => some (s.create (processCreateFromPath image s.kernel))
  | .fork => (processFork s.kernel).toOption.map s.create
  | .add i =>
    if s.added i then none
    else (schedulerAdd i s.kernel).toOption.map fun (r : Int × Kernel) =>
      { kernel := r.2, added := if r.1 = 0 then Function.update s.added i true else s.added }
  | .timerTick r registers =>
    s.after ((schedulerTimerTick (.stack r) (s.kernel.setFrame (.stack r) registers)).map Prod.snd)
  | .blockCurrent r registers =>
    s.after ((schedulerBlockCurrent (.stack r) (s.kernel.setFrame (.stack r) registers)).map Prod.snd)
  | .exitWithStatus pid status => s.after ((processExitWithStatus pid status s.kernel).map Prod.snd)
  | .wait child status => s.after ((processWait child status s.kernel).map Prod.snd)
  | .sendSignal pid signal => s.after ((processSendSignal pid signal s.kernel).map Prod.snd)
  | .futexWait key expected timeout =>
    s.after ((processFutexWait key expected timeout s.kernel).map Prod.snd)
  | .futexWake key count => s.after ((processFutexWake key count s.kernel).map Prod.snd)
  | .pollTimeouts => s.after (processPollTimeouts s.kernel)
  | .timerIrq => s.after (.ok (Ceblar.timerIrq s.kernel))
  | .memory call => (memCall s.kernel.vmm call).map fun vmm => { s with kernel := { s.kernel with vmm } }

/-- The table and the scheduler before the first process: static data that the loader cleared. -/
structure Kernel.Booted (k : Kernel) : Prop where
  free : ∀ i, (k.processes i).allocated = false
  state : ∀ i, (k.processes i).state = .ready
  ticks : ∀ i, (k.processes i).ticks = 0
  generation : ∀ i, (k.processes i).generation = 0
  count : k.processCount = 0
  current : k.current = .idle
  readyHead : k.readyHead = none
  idlePid : k.idle.pid = 0
  idleTicks : k.idle.ticks = 0

section

variable {s s' : System}

theorem add_inv {i : Nat} (h : kernelStep s (.add i) = some s') :
    s.added i = false ∧ ∃ rc, schedulerAdd i s.kernel = .ok (rc, s'.kernel) ∧
      s'.added = if rc = 0 then Function.update s.added i true else s.added := by
  dsimp only [kernelStep] at h
  split at h
  · cases h
  · rename_i hfresh
    obtain ⟨⟨rc, k⟩, hadd, rfl⟩ := Option.map_eq_some_iff.mp h
    exact ⟨Bool.eq_false_iff.mpr hfresh, rc, toOption_eq_some hadd, rfl⟩

theorem memory_inv {call : MemCall} (h : kernelStep s (.memory call) = some s') :
    ∃ vmm, memCall s.kernel.vmm call = some vmm ∧ s' = { s with kernel := { s.kernel with vmm } } := by
  obtain ⟨vmm, hm, rfl⟩ := Option.map_eq_some_iff.mp h
  exact ⟨vmm, hm, rfl⟩

theorem after_inv {res : Except Halt Kernel} (h : s.after res = some s') :
    res = .ok s'.kernel ∧ s'.added = fun i => s.added i && (s'.kernel.processes i).allocated := by
  cases res with
  | error e => cases h
  | ok k =>
    cases h
    exact ⟨rfl, rfl⟩

theorem after_map_inv {α : Type} {res : Except Halt (α × Kernel)}
    (h : s.after (res.map Prod.snd) = some s') :
    (∃ a, res = .ok (a, s'.kernel)) ∧ s'.added = fun i => s.added i &&
      (s'.kernel.processes i).allocated := by
  cases res with
  | error e => cases h
  | ok r =>
    obtain ⟨a, k⟩ := r
    cases h
    exact ⟨⟨a, rfl⟩, rfl⟩

end

def System.boot (k : Kernel) : System := { kernel := k, added := fun _ => false }

def blankPcb : Pcb where
  pid := 0
  state := .ready
  ticks := 0
  cpuState := ⟨0, 0, 0, 0, 0, 0, 0, 0, 0, 0⟩
  next := none
  entryPoint := 0
  userStack := 0
  userMode := false
  addressSpace := none
  parentPid := 0
  exitCode := 0
  waitForPid := 0
  waitStatusPtr := 0
  waitStatus := 0
  credentials := ⟨0, 0, 0, 0, 0⟩
  pendingSignals := 0
  signalMask := 0
  futexKey := 0
  futexExpected := 0
  interruptFrame := none
  allocated := false
  generation := 0
  signalHandlers := fun _ => 0
  signalSavedFrame := zeroRegisters
  signalActive := false
  futexDeadline := 0

def coldKernel : Kernel where
  vmm := coldMachine
  processes := fun _ => blankPcb
  processCount := 0
  idle := { blankPcb with state := .running }
  current := .idle
  readyHead := none
  frames := fun _ => zeroRegisters
  stackTop := fun i => BitVec.ofNat 32 (0x110000 + 0x2000 * i)
  uptimeTicks := 0
  timerHz := 100

theorem coldKernel_booted : coldKernel.Booted :=
  ⟨fun _ => rfl, fun _ => rfl, fun _ => rfl, fun _ => rfl, rfl, rfl, rfl, rfl, rfl⟩

end Ceblar
