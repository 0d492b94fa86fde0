import Ceblar.Lib.Bytes
import Ceblar.Mm.Fault

/-! # Processes (`scheduler.h`, `isr.h`)

The process table, the idle process beside it, the scheduler's two pointers and the frames that
interrupts leave on the stacks. Left out: names, `started`, the per-CPU pointer, the TSS and the
file descriptors.
-/

namespace Ceblar

open Function

/-! ## The data -/

inductive ProcState where
  | ready
  | running
  | blocked
  | zombie
  deriving DecidableEq

structure Credentials where
  uid : Word
  gid : Word
  euid : Word
  egid : Word
  capabilities : Word

structure CpuState where
  eax : Word
  ebx : Word
  ecx : Word
  edx : Word
  esi : Word
  edi : Word
  ebp : Word
  esp : Word
  eip : Word
  eflags : Word

structure Registers where
  edi : Word
  esi : Word
  ebp : Word
  esp : Word
  ebx : Word
  edx : Word
  ecx : Word
  eax : Word
  intNo : Word
  errCode : Word
  eip : Word
  cs : Word
  eflags : Word
  useresp : Word
  ss : Word

/-- Where a frame lies: on a stack, in `initial_frame` or at the top of `kernel_stack`. -/
inductive FramePtr where
  | stack (address : Word)
  | initial (i : Nat)
  | kernelTop (i : Nat)
  deriving DecidableEq

/-- `pcb_t`. A `next` never points to the idle process: `enqueue` takes allocated ones only. -/
structure Pcb where
  pid : Word
  state : ProcState
  ticks : Word
  cpuState : CpuState
  next : Option Nat
  entryPoint : Word
  userStack : Word
  userMode : Bool
  addressSpace : Option Nat
  parentPid : Word
  exitCode : Word
  waitForPid : Word
  waitStatusPtr : Word
  waitStatus : Word
  credentials : Credentials
  pendingSignals : Word
  signalMask : Word
  futexKey : Word
  futexExpected : Word
  interruptFrame : Option FramePtr
  allocated : Bool
  generation : Word
  signalHandlers : Nat → Word
  signalSavedFrame : Registers
  signalActive : Bool
  futexDeadline : Word

inductive PcbRef where
  | idle
  | slot (i : Nat)
  deriving DecidableEq

def maxProcesses : Nat := 32
def userStackTop : Word := 0x00bff000

structure Kernel where
  vmm : Vmm
  processes : Nat → Pcb
  processCount : Nat
  idle : Pcb
  current : PcbRef
  readyHead : Option Nat
  frames : FramePtr → Registers
  stackTop : Nat → Word
  uptimeTicks : Word
  timerHz : Word

def Kernel.pcb (k : Kernel) : PcbRef → Pcb
  | .idle => k.idle
  | .slot i => k.processes i

def Kernel.modify (k : Kernel) (i : Nat) (f : Pcb → Pcb) : Kernel :=
  { k with processes := update k.processes i (f (k.processes i)) }

def Kernel.modifyRef (k : Kernel) (f : Pcb → Pcb) : PcbRef → Kernel
  | .idle => { k with idle := f k.idle }
  | .slot i => k.modify i f

def Kernel.setFrame (k : Kernel) (p : FramePtr) (r : Registers) : Kernel :=
  { k with frames := update k.frames p r }

def Kernel.setEax (k : Kernel) (frame : Option FramePtr) (value : Word) : Kernel :=
  match frame with
  | none => k
  | some p => k.setFrame p { k.frames p with eax := value }

def timerUptimeMs (k : Kernel) : Word := k.uptimeTicks * 1000 / k.timerHz

def timerIrq (k : Kernel) : Kernel := { k with uptimeTicks := k.uptimeTicks + 1 }

def Vmm.activeFrame (m : Vmm) (a : Word) : Option Nat :=
  match m.currentSpace, userSlot a with
  | some s, some t =>
    let pte := m.pte s t (tableIndex a)
    if (m.spaces s).tableUsed t = true ∧ pte &&& pagePresent ≠ 0 then some (pageNumber pte) else none
  | _, _ => m.kernelFrame a

/-- The frame behind an address, after a page fault if need be: `isr_handler` passes the address
in `cr2`. A handler that returns without a mapping is entered again and again. -/
def Vmm.touch (m : Vmm) (error a : Word) : Except Halt (Nat × Vmm) :=
  match m.activeFrame a with
  | some f => .ok (f, m)
  | none =>
    match vmmPageFault m error 0 a with
    | .error e => .error e
    | .ok m =>
      match m.activeFrame a with
      | some f => .ok (f, m)
      | none => .error .spin

def Vmm.kernelStore (m : Vmm) (a : Word) (b : Byte) : Except Halt Vmm := do
  let (f, m) ← m.touch 2 a
  return { m with phys := update m.phys f (update (m.phys f) (offset a) b) }

def Vmm.kernelStore32 (m : Vmm) (a w : Word) : Except Halt Vmm :=
  forRangeE 4 (fun j m => m.kernelStore (a + BitVec.ofNat 32 j) (byteOf w j)) m

def Vmm.kernelLoad (m : Vmm) (a : Word) : Except Halt (Byte × Vmm) := do
  let (f, m) ← m.touch 0 a
  return (m.phys f (offset a), m)

def Vmm.kernelLoad32 (m : Vmm) (a : Word) : Except Halt (Word × Vmm) := do
  let (b0, m) ← m.kernelLoad a
  let (b1, m) ← m.kernelLoad (a + 1)
  let (b2, m) ← m.kernelLoad (a + 2)
  let (b3, m) ← m.kernelLoad (a + 3)
  return (le32 b0 b1 b2 b3, m)

end Ceblar
