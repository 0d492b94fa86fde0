import Ceblar.Kernel.Exec
import Ceblar.Kernel.Mmap

/-! # System calls and signals (`kernel/syscall.c`, `kernel/process.c`)

What happens between `int 0x80` and the frame that the kernel returns to. Whose descriptors are open
(`vfs_set_process`, `vfs_inherit_process`, `vfs_release_process`) is left out here.
-/

namespace Ceblar

def processSignalAction (pid signal handler : Word) (k : Kernel) : Except Halt (Int × Kernel) :=
  if signal = 0 ∨ 31 < signal ∨ signal = 9 then .ok (-1, k)
  else
    match findPid k pid fun _ => true with
    | none => .ok (-1, k)
    | some i =>
      let set (k : Kernel) := k.modify i fun p =>
        { p with signalHandlers := Function.update p.signalHandlers signal.toNat handler }
      if handler = 0 then .ok (0, set k)
      else if handler < 0x400000 ∨ 0xc0000000 ≤ handler then .ok (-1, k)
      else
        match (k.processes i).addressSpace with
        | none => .ok (-1, k)
        | some space => do
          let (rc, vmm) ← vmmValidateUserPtr k.vmm space handler 1 0
          if rc ≠ 0 then return (-1, { k with vmm })
          return (0, set { k with vmm })

def processSignalSetMask (pid mask : Word) (k : Kernel) : Int × Kernel :=
  match findPid k pid fun _ => true with
  | none => (-1, k)
  | some i => (0, k.modify i fun p => { p with signalMask := mask &&& ~~~((1 : Word) <<< 9) })

/-- The signals that `process_deliver_signal` goes through. -/
def Pcb.unmasked (p : Pcb) : Word := p.pendingSignals &&& ~~~p.signalMask &&& 0xfffffffe

def deliverOne (r : FramePtr) (pending : Word) (signal : Nat) (k : Kernel) :
    Except Halt (Bool × Kernel) :=
  if pending &&& 1 <<< signal = 0 then .ok (false, k)
  else
    let k := k.modifyRef
      (fun p => { p with pendingSignals := p.pendingSignals &&& ~~~((1 : Word) <<< signal) }) k.current
    let p := k.pcb k.current
    let handler := p.signalHandlers signal
    let frame := k.frames r
    match p.addressSpace with
    | none => .ok (false, k)
    | some space =>
      if handler = 0 ∨ frame.useresp < 0x400008 then .ok (false, k)
      else do
        let newStack := frame.useresp - 8
        let (rc, vmm) ← vmmValidateUserPtr k.vmm space newStack 8 1
        if rc ≠ 0 then return (false, { k with vmm })
        let vmm ← vmm.kernelStore32 newStack 0
        let vmm ← vmm.kernelStore32 (newStack + 4) (BitVec.ofNat 32 signal)
        let k := ({ k with vmm } : Kernel).setFrame r
          { frame with useresp := newStack, eip := handler, eax := BitVec.ofNat 32 signal }
        return (true, k.modifyRef
          (fun p => { p with signalSavedFrame := frame, signalActive := true }) k.current)

def deliverLoop (r : FramePtr) (pending : Word) : Nat → Nat → Kernel → Except Halt Kernel
  | 0, _, k => .ok k
  | n + 1, signal, k => do
    let (entered, k) ← deliverOne r pending signal k
    if entered then return k
    deliverLoop r pending n (signal + 1) k

def processDeliverSignal (r : FramePtr) (k : Kernel) : Except Halt Kernel :=
  let p := k.pcb k.current
  if !p.userMode || p.signalActive then .ok k
  else deliverLoop r p.unmasked 31 1 k

def processSignalReturn (r : FramePtr) (k : Kernel) : Kernel :=
  let p := k.pcb k.current
  if !p.signalActive then k
  else (k.setFrame r p.signalSavedFrame).modifyRef (fun p => { p with signalActive := false }) k.current

/-! ## The calls -/

/-- What the calls find behind the kernel: the disk, and what the network answers. -/
structure Devices where
  disk : Block → Disk
  accepts : Word → Bool
  block : Block
  /-- `net_socket_open`, `net_socket_connect`, `net_socket_send` and `net_socket_close`. -/
  socket : Word → Word → Word → Word → Word

def Vmm.activeByte (m : Vmm) (a : Word) : Byte := (m.activeFrame a).elim 0 fun f => m.phys f (offset a)

def Vmm.storeBytes (m : Vmm) (a : Word) (n : Nat) (bytes : Nat → Byte) : Except Halt Vmm :=
  forRangeE n (fun j m => m.kernelStore (a + BitVec.ofNat 32 j) (bytes j)) m

def userBuf (p n write : Word) (k : Kernel) : Except Halt (Bool × Vmm) :=
  if n = 0 then .ok (decide (0x400000 ≤ p ∧ p < 0xc0000000), k.vmm)
  else
    match (k.pcb k.current).addressSpace with
    | none => .ok (false, k.vmm)
    | some space => do
      let (rc, vmm) ← vmmValidateUserPtr k.vmm space p n write
      return (rc = 0, vmm)

def Credentials.words (c : Credentials) : List Word := [c.uid, c.gid, c.euid, c.egid, c.capabilities]

namespace Sys

def withBuf (p n write : Word) (o : Os) (f : Os → Except Halt (Word × Os)) : Except Halt (Word × Os) := do
  let (ok, vmm) ← userBuf p n write o.kernel
  if ok then f (o.setVmm vmm) else return (-1, o.setVmm vmm)

def rd (dev : Devices) (a b c : Word) (o : Os) : Except Halt (Word × Os) :=
  withBuf b c 1 o fun o => do
    let (n, bytes, vfs) := vfsRead (dev.disk dev.block) a.toInt
      (fun j => o.kernel.vmm.activeByte (b + BitVec.ofNat 32 j)) c o.vfs
    let vmm ← o.kernel.vmm.storeBytes b c.toNat bytes
    return (BitVec.ofInt 32 n, { o.setVmm vmm with vfs })

def wr (dev : Devices) (a b c : Word) (o : Os) : Except Halt (Word × Os) :=
  withBuf b c 0 o fun o =>
    let (n, vfs, _) := vfsWrite dev.disk dev.accepts a.toInt
      (fun j => o.kernel.vmm.activeByte (b + BitVec.ofNat 32 j)) c o.vfs dev.block
    .ok (BitVec.ofInt 32 n, { o with vfs })

def op (dev : Devices) (a b : Word) (o : Os) : Except Halt (Word × Os) := do
  let (path, vmm) ← userString a o.kernel
  let o := o.setVmm vmm
  match path with
  | none => return (-1, o)
  | some path =>
    let (fd, vfs) := vfsOpen (dev.disk dev.block) path b o.vfs
    return (BitVec.ofInt 32 fd, { o with vfs })

def cl (a : Word) (o : Os) : Except Halt (Word × Os) :=
  let (rc, vfs) := vfsClose a.toInt o.vfs
  .ok (BitVec.ofInt 32 rc, { o with vfs })

def fk (o : Os) : Except Halt (Word × Os) := do
  let (child, k) ← processFork o.kernel
  return (child.elim (-1) fun i => (k.processes i).pid, { o with kernel := k })

def ex (a : Word) (o : Os) : Except Halt (Word × Os) := do
  let (rc, k) ← processExitWithStatus (o.kernel.pcb o.kernel.current).pid a o.kernel
  return (BitVec.ofInt 32 rc, { o with kernel := k })

def gp (o : Os) : Except Halt (Word × Os) := .ok ((o.kernel.pcb o.kernel.current).pid, o)

/-- `sl`. The gate of `int 0x80` clears the interrupt flag, so `ksleep_ms` waits for a tick that
does not come. -/
def sl (a : Word) (o : Os) : Except Halt (Word × Os) :=
  let target := o.kernel.uptimeTicks + (a * o.kernel.timerHz + 999) / 1000
  if o.kernel.uptimeTicks < target then .error .spin else .ok (0, o)

def wt (a b : Word) (o : Os) : Except Halt (Word × Os) :=
  let wait (o : Os) : Except Halt (Word × Os) := do
    let (rc, k) ← processWait a b o.kernel
    return (rc, { o with kernel := k })
  if b = 0 then wait o else withBuf b 4 1 o wait

def mm (a b c : Word) (o : Os) : Except Halt (Word × Os) :=
  match (o.kernel.pcb o.kernel.current).addressSpace.bind fun s => Syscall.mm o.kernel.vmm s a b c with
  | none => .ok (-1, o)
  | some (base, vmm) => .ok (base, o.setVmm vmm)

def mu (a b : Word) (o : Os) : Except Halt (Word × Os) :=
  match (o.kernel.pcb o.kernel.current).addressSpace.bind fun s => Syscall.mu o.kernel.vmm s a b with
  | none => .ok (-1, o)
  | some vmm => .ok (0, o.setVmm vmm)

def unameText : List Byte :=
  [0x63, 0x65, 0x62, 0x6c, 0x61, 0x72, 0x2d, 0x32, 0x30, 0x20, 0x30, 0x2e, 0x36, 0x2e, 0x30, 0x20,
    0x78, 0x38, 0x36]

def un (a : Word) (o : Os) : Except Halt (Word × Os) :=
  withBuf a 20 1 o fun o => do
    let vmm ← o.kernel.vmm.storeBytes a 20 fun j => unameText.getD j 0
    return (0, o.setVmm vmm)

def killSys (a b : Word) (o : Os) : Except Halt (Word × Os) :=
  if b = 0 ∨ 31 < b then .ok (-1, o)
  else do
    let (rc, k) ← processSendSignal a b o.kernel
    return (BitVec.ofInt 32 rc, { o with kernel := k })

def withFutex (a : Word) (o : Os) (f : Os → Except Halt (Word × Os)) : Except Halt (Word × Os) :=
  if a < 0x400000 ∨ 0xc0000000 ≤ a then .ok (-1, o) else withBuf a 4 1 o f

def futexWaitSys (a b c : Word) (o : Os) : Except Halt (Word × Os) :=
  withFutex a o fun o => do
    let (rc, k) ← processFutexWait a b c o.kernel
    return (BitVec.ofInt 32 rc, { o with kernel := k })

def futexWakeSys (a b : Word) (o : Os) : Except Halt (Word × Os) :=
  withFutex a o fun o => do
    let (rc, k) ← processFutexWake a b o.kernel
    return (BitVec.ofInt 32 rc, { o with kernel := k })

def sigactionSys (a b c : Word) (o : Os) : Except Halt (Word × Os) := do
  let pid := (o.kernel.pcb o.kernel.current).pid
  let (rc, k) ← processSignalAction pid a b o.kernel
  if rc ≠ 0 then return (-1, { o with kernel := k })
  let (rc, k) := processSignalSetMask pid c k
  return (if rc = 0 then 0 else -1, { o with kernel := k })

def getcredSys (a : Word) (o : Os) : Except Halt (Word × Os) :=
  withBuf a 20 1 o fun o =>
    match processGetCredentials (o.kernel.pcb o.kernel.current).pid o.kernel with
    | none => .ok (-1, o)
    | some c => do
      let vmm ← o.kernel.vmm.storeBytes a 20 fun j => byteOf (c.words.getD (j / 4) 0) (j % 4)
      return (0, o.setVmm vmm)

def connectSys (dev : Devices) (a b c : Word) (o : Os) : Except Halt (Word × Os) :=
  .ok (if 8 ≤ a then -1 else dev.socket 21 a b c, o)

def sendSys (dev : Devices) (a b c : Word) (o : Os) : Except Halt (Word × Os) :=
  if 8 ≤ a then .ok (-1, o) else withBuf b c 0 o fun o => .ok (dev.socket 22 a b c, o)

def closeSocketSys (dev : Devices) (a b c : Word) (o : Os) : Except Halt (Word × Os) :=
  .ok (if 8 ≤ a then -1 else dev.socket 23 a b c, o)

end Sys

/-- `syscall_dispatch`. A result of `none`: the caller yielded, and another process goes on. `cpu`
is what `context_switch` saves then. -/
def syscallDispatch (dev : Devices) (cpu : CalleeSaved) (n a b c : Word) (o : Os) :
    Except Halt (Option Word × Os) :=
  let call (res : Except Halt (Word × Os)) : Except Halt (Option Word × Os) :=
    res.map fun r => (some r.1, r.2)
  match n.toNat with
  | 0 => call (Sys.rd dev a b c o)
  | 1 => call (Sys.wr dev a b c o)
  | 2 => call (Sys.op dev a b o)
  | 3 => call (Sys.cl a o)
  | 4 => call (Sys.fk o)
  | 5 => call (Sys.ex a o)
  | 6 => call (Sys.gp o)
  | 7 => (schedulerYield cpu o.kernel).map fun (loaded, k) =>
    (if loaded.isSome then none else some 0, { o with kernel := k })
  | 8 => call (Sys.sl a o)
  | 9 => call (Sys.wt a b o)
  | 10 => call ((ee (dev.disk dev.block) a o).map fun r => (BitVec.ofInt 32 r.1, r.2))
  | 11 => call (Sys.mm a b c o)
  | 12 => call (Sys.un a o)
  | 13 => call (Sys.mu a b o)
  | 14 => call (Sys.killSys a b o)
  | 15 => call (Sys.futexWaitSys a b c o)
  | 16 => call (Sys.futexWakeSys a b o)
  | 17 => call (Sys.sigactionSys a b c o)
  | 18 => .ok (some 0, o)
  | 19 => call (Sys.getcredSys a o)
  | 20 => .ok (some (dev.socket 20 a b c), o)
  | 21 => call (Sys.connectSys dev a b c o)
  | 22 => call (Sys.sendSys dev a b c o)
  | 23 => call (Sys.closeSocketSys dev a b c o)
  | _ => .ok (some (-1), o)

/-! ## The end of a call -/

def sysSigreturn : Word := 18

/-- The signal step of `syscall_from_interrupt`. -/
def signalStep (number : Word) (r : FramePtr) (k : Kernel) : Except Halt Kernel :=
  if number = sysSigreturn then .ok (processSignalReturn r k) else processDeliverSignal r k

def Registers.restart (f : Registers) (entry : Word) : Registers :=
  { f with eip := entry, cs := 0x1b, eflags := 0x202, useresp := userStackTop, ss := 0x23 }

/-- `if (q == exec_pending_process)`: the frame is sent to the new image. -/
def Os.startPending (o : Os) (q : PcbRef) (r : FramePtr) : Os :=
  match o.execPending with
  | none => o
  | some (p, entry) =>
    if p = q then
      { o with kernel := o.kernel.setFrame r ((o.kernel.frames r).restart entry), execPending := none }
    else o

/-- `syscall_from_interrupt`, from the signal step on. `q` is the process that made the call. -/
def syscallFinish (q : PcbRef) (number : Word) (r : FramePtr) (o : Os) : Except Halt (FramePtr × Os) := do
  let k ← signalStep number r o.kernel
  let o := { o with kernel := k }.startPending q r
  if (o.kernel.pcb q).state = .blocked ∨ (o.kernel.pcb q).state = .zombie then
    let (f, k) ← schedulerBlockCurrent r o.kernel
    return (f, { o with kernel := k })
  else return (r, o)

def Os.setResult (o : Os) (r : FramePtr) (v : Word) : Os :=
  { o with kernel := o.kernel.setFrame r { o.kernel.frames r with eax := v } }

def syscallFromInterrupt (dev : Devices) (cpu : CalleeSaved) (r : FramePtr) (o : Os) :
    Except Halt (Option FramePtr × Os) := do
  let q := o.kernel.current
  let regs := o.kernel.frames r
  let (res, o) ← syscallDispatch dev cpu regs.eax regs.ebx regs.ecx regs.edx o
  match res with
  | none => return (none, o)
  | some v =>
    let (f, o) ← syscallFinish q regs.eax r (o.setResult r v)
    return (some f, o)

def syscallResumed (r : FramePtr) (o : Os) : Except Halt (FramePtr × Os) :=
  syscallFinish o.kernel.current 7 r (o.setResult r 0)

end Ceblar
