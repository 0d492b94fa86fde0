import Ceblar.Kernel.Caller
import Ceblar.Kernel.SyscallSteps

/-! # Runs of system calls

Every way into the kernel as one step, and what holds between two steps.
-/

namespace Ceblar

/-! ## The steps -/

def Os.enter (o : Os) (r : Word) (registers : Registers) : Os :=
  { o with kernel := o.kernel.setFrame (.stack r) registers }

inductive SysEvent where
  /-- An interrupt, or a call in the kernel's own code. -/
  | os (op : OsOp)
  /-- The descriptors change hands. -/
  | descriptors (vfs : Vfs)
  | syscall (dev : Devices) (cpu : CalleeSaved) (r : Word) (registers : Registers)
  | resumed (r : Word) (registers : Registers)

def OsOp.interrupts : OsOp → Bool
  | .kernel (.timerTick _ _) _ | .kernel .timerIrq _ | .kernel .pollTimeouts _
  | .kernel (.memory (.fault _ _ _)) _ => true
  | _ => false

def OsOp.execs : OsOp → Bool
  | .exec _ _ => true
  | _ => false

/-- A user process enters the kernel by interrupts and system calls only, and `SYS_EXEC` is one of
the latter. -/
def Os.mayCall (o : Os) (op : OsOp) : Bool := op.interrupts || (!op.execs && !o.kernel.inUser)

def sysStep (o : Os) : SysEvent → Option Os
  | .os op => if o.mayCall op then osStep o op else none
  | .descriptors vfs => some { o with vfs }
  | .syscall dev cpu r registers =>
    (syscallFromInterrupt dev cpu (.stack r) (o.enter r registers)).toOption.map Prod.snd
  | .resumed r registers => (syscallResumed (.stack r) (o.enter r registers)).toOption.map Prod.snd

/-- The step reaches the signal step of `syscall_from_interrupt` for call `number` in state `od`. -/
inductive SignalEntry (o : Os) : SysEvent → (number r : Word) → (od : Os) → Prop
  | called {dev : Devices} {cpu : CalleeSaved} {r v : Word} {registers : Registers} {o1 : Os}
      (h : syscallDispatch dev cpu registers.eax registers.ebx registers.ecx registers.edx
        (o.enter r registers) = .ok (some v, o1)) :
    SignalEntry o (.syscall dev cpu r registers) registers.eax r (o1.setResult (.stack r) v)
  | resumed (r : Word) (registers : Registers) :
    SignalEntry o (.resumed r registers) 7 r ((o.enter r registers).setResult (.stack r) 0)

section

variable {o o' : Os}

theorem kernelOp_live {op : KernelOp} {hr : op.readsFile = false} {s' : System} (ht : TableInv o.kernel)
    (h : o.kernel.Live) (hmay : o.mayCall (.kernel op hr) = true)
    (hs : kernelStep (System.boot o.kernel) op = some s') : s'.kernel.Live := by
  have hcall : (OsOp.kernel op hr).interrupts = false → SameCaller o.kernel s'.kernel →
      s'.kernel.Live := by
    intro hi hsame
    refine hsame.live ?_
    simpa [Os.mayCall, hi, OsOp.execs] using hmay
  cases op with
  | createEntry | createThread | createUser | createFromPath | fork =>
    obtain ⟨res, hf, rfl⟩ := kernelStep_creates rfl hs
    exact hcall rfl (hf.sameCaller ht)
  | timerTick r registers =>
    obtain ⟨⟨f, htick⟩, -⟩ := after_map_inv hs
    have hframe : (o.kernel.setFrame (.stack r) registers).Live := h
    exact tick_live hframe htick
  | blockCurrent r registers =>
    obtain ⟨⟨f, hblock⟩, -⟩ := after_map_inv hs
    exact block_live hblock
  | add | exitWithStatus | sendSignal | futexWait | futexWake =>
    exact hcall rfl (kernelStep_marks rfl hs).sameCaller
  | wait child status =>
    obtain ⟨⟨rc, hwait⟩, -⟩ := after_map_inv hs
    exact hcall rfl (wait_sameCaller hwait)
  | pollTimeouts =>
    have hpoll := (after_inv hs).1
    exact h.kept (poll_marks hpoll).current (poll_marks hpoll).sameSignals (poll_awake hpoll)
      (poll_quiet hpoll)
  | timerIrq =>
    obtain ⟨hk, -⟩ : (.ok (timerIrq o.kernel) : Except Halt Kernel) = .ok s'.kernel ∧ _ := after_inv hs
    rw [← Except.ok.inj hk]
    exact h
  | memory call =>
    obtain ⟨vmm, -, rfl⟩ := memory_inv hs
    exact h

theorem execPath_live {disk : Disk} {path : List Byte} {rc : Int} (hu : o.kernel.inUser = false)
    (h : processExecPath disk path o = .ok (rc, o')) : o'.kernel.Live := by
  rcases execPath_cases h with ⟨-, ⟨vmm, he⟩ | ⟨space, entry, vmm, he⟩⟩
  · rw [he]
    exact SameCaller.live (sameCaller_of_eq rfl rfl) hu
  · rw [he]
    rcases enterUserRef_cases
      (({ o.kernel with vmm } : Kernel).modifyRef (fun p => p.replace space entry) o.kernel.current)
      o.kernel.current with ⟨hmode, -⟩ | ⟨vmm', he'⟩
    · -- the new image is there, so it is entered
      rw [modifyRef_pcb] at hmode
      simp [Pcb.replace] at hmode
    · rw [he']
      intro i hi _
      rw [modifyRef_current] at hi
      have hc : o.kernel.current = .slot i := hi
      rw [hc]
      simp [Kernel.modifyRef, Kernel.modify]

theorem osStep_live {op : OsOp} (ht : TableInv o.kernel) (h : o.kernel.Live) (hmay : o.mayCall op = true)
    (hs : osStep o op = some o') : o'.kernel.Live := by
  cases op with
  | kernel op hr =>
    obtain ⟨s', hstep, rfl⟩ := Option.map_eq_some_iff.mp hs
    exact kernelOp_live ht h hmay hstep
  | createFromFile disk path =>
    have hu : o.kernel.inUser = false := by simpa [Os.mayCall, OsOp.interrupts, OsOp.execs] using hmay
    obtain ⟨-, vmm, i, hc⟩ := osStep_file hs
    have hsame := hc.sameCaller (ht.vmm vmm)
    exact SameCaller.live ⟨hsame.current, hsame.fixed⟩ hu
  | exec disk a => simp [Os.mayCall, OsOp.interrupts, OsOp.execs] at hmay
  | execPath disk path =>
    obtain ⟨⟨rc, o1⟩, hexec, rfl⟩ := Option.map_eq_some_iff.mp hs
    refine execPath_live ?_ (toOption_eq_some hexec)
    simpa [Os.mayCall, OsOp.interrupts, OsOp.execs] using hmay
  | yield cpu =>
    obtain ⟨⟨loaded, k⟩, hyield, rfl⟩ := Option.map_eq_some_iff.mp hs
    exact (yield_live h (toOption_eq_some hyield)).1
  | enter user i =>
    obtain ⟨-, -, rfl | ⟨vmm, -, rfl⟩⟩ := osStep_enter hs
    · exact h
    · intro j hj _
      cases hj
      simp [Kernel.entered, Kernel.modify]

theorem osStep_pending {op : OsOp} (hmay : o.mayCall op = true) (hs : osStep o op = some o') :
    o'.execPending = o.execPending := by
  cases op with
  | kernel op hr =>
    obtain ⟨s', -, rfl⟩ := Option.map_eq_some_iff.mp hs
    rfl
  | createFromFile disk path => exact (osStep_file hs).1
  | exec disk a => simp [Os.mayCall, OsOp.interrupts, OsOp.execs] at hmay
  | execPath disk path =>
    obtain ⟨⟨rc, o1⟩, hexec, rfl⟩ := Option.map_eq_some_iff.mp hs
    exact (execPath_cases (toOption_eq_some hexec)).1
  | yield cpu =>
    obtain ⟨r, -, rfl⟩ := Option.map_eq_some_iff.mp hs
    rfl
  | enter user i =>
    obtain ⟨-, -, rfl | ⟨vmm, -, rfl⟩⟩ := osStep_enter hs
    · rfl
    · rfl

end

/-! ## System calls -/

structure SysInv (o : Os) : Prop where
  table : TableInv o.kernel
  live : o.kernel.Live
  pending : o.execPending = none

section

variable {o o1 o' od : Os} {cpu : CalleeSaved} {n a b c : Word} {k k' : Kernel} {r : Word}
variable {res : Option Word} {q : PcbRef} {number : Word} {e : SysEvent} {registers : Registers}

theorem Dispatched.table (h : Dispatched cpu o n a b c res o') (ht : TableInv o.kernel) :
    TableInv o'.kernel := by
  cases h with
  | memory vmm hk hp =>
    rw [hk]
    exact ht.vmm vmm
  | fork h => exact ht.step (fork_inv h).table
  | exit h => exact ht.steps (exit_steps h)
  | wait vmm hn hbuf h => exact (ht.vmm vmm).step (wait_table h)
  | kill h => exact ht.steps (signal_steps h)
  | futexWait vmm hn ha hbuf h => exact (ht.vmm vmm).step (futexWait_table h)
  | futexWake vmm h => exact (ht.vmm vmm).steps (futexWake_quiet h)
  | @action v i vmm handlers mask hn hi h9 =>
    refine ht.congr (fun j => ?_) rfl rfl ⟨rfl, rfl⟩
    by_cases hj : j = i
    · subst hj
      rw [modify_self]
      exact ⟨rfl, rfl, rfl, rfl⟩
    · rw [modify_ne _ _ hj]
      exact ⟨rfl, rfl, rfl, rfl⟩
  | yield hn h => exact ht.steps (yield_quiet h)
  | exec hn h =>
    rcases ee_cases h with ⟨hrc, -⟩ | ⟨-, space, entry, -, vmm, he⟩
    · exact absurd rfl hrc
    · rw [he]
      exact ht.replaced vmm space entry

theorem Dispatched.current {v : Word} (h : Dispatched cpu o n a b c (some v) o') (ht : TableInv o.kernel)
    (hl : o.kernel.Live) : o'.kernel.current = o.kernel.current := by
  generalize hres : some v = res at h
  cases h with
  | memory vmm hk hp => rw [hk]
  | fork h => exact ((fork_inv h).sameCaller ht).current
  | exit h => exact (exit_marks h).current
  | wait vmm hn hbuf h => exact (wait_sameCaller h).current
  | kill h => exact (signal_marks h).current
  | futexWait vmm hn ha hbuf h => exact (futexWait_marks h).current
  | futexWake vmm h => exact (futexWake_marks h).current
  | action vmm handlers mask hn hi h9 => rfl
  | @yield loaded k' hn h =>
    refine (yield_live hl h).2 ?_
    cases loaded with
    | none => rfl
    | some cpu => cases hres
  | exec hn h =>
    rcases ee_cases h with ⟨hrc, -⟩ | ⟨-, space, entry, -, vmm, he⟩
    · exact absurd rfl hrc
    · rw [he]
      exact modifyRef_current _ _ _

theorem Dispatched.pending (h : Dispatched cpu o n a b c res o') (hp : o.execPending = none) :
    o'.execPending = none ∨ ∃ entry, o'.execPending = some (o.kernel.current, entry) := by
  cases h with
  | memory vmm hk hp' => exact .inl (hp'.trans hp)
  | exec hn h =>
    rcases ee_cases h with ⟨hrc, -⟩ | ⟨-, space, entry, he, -⟩
    · exact absurd rfl hrc
    · exact .inr ⟨entry, he⟩
  | fork | exit | wait | kill | futexWait | futexWake | action | yield => exact .inl hp

theorem SignalMarks.table (h : SignalMarks k k') (ht : TableInv k) : TableInv k' := by
  obtain ⟨vmm, frames, f, rfl, hf⟩ := h
  have hframes : TableInv { k with frames } := ht.congr (fun _ => ⟨rfl, rfl, rfl, rfl⟩) rfl rfl ⟨rfl, rfl⟩
  refine hframes.step (.blocked vmm fun p => ?_)
  obtain ⟨pending, saved, active, he⟩ := hf p
  rw [he]
  exact ⟨rfl, rfl, rfl, rfl, rfl⟩

theorem SignalMarks.current (h : SignalMarks k k') : k'.current = k.current := by
  obtain ⟨vmm, frames, f, rfl, -⟩ := h
  exact modifyRef_current _ _ _

theorem SignalMarks.state (h : SignalMarks k k') (ref : PcbRef) :
    (k'.pcb ref).state = (k.pcb ref).state := by
  obtain ⟨vmm, frames, f, rfl, hf⟩ := h
  have hkept : ∀ p : Pcb, (f p).state = p.state := by
    intro p
    obtain ⟨pending, saved, active, he⟩ := hf p
    rw [he]
  cases ref with
  | idle =>
    rcases modifyRef_idle ({ k with vmm, frames } : Kernel) f k.current with he | he
    · exact congrArg Pcb.state he
    · exact (congrArg Pcb.state he).trans (hkept _)
  | slot i =>
    rcases modifyRef_processes ({ k with vmm, frames } : Kernel) f k.current i with he | he
    · exact congrArg Pcb.state he
    · exact (congrArg Pcb.state he).trans (hkept _)

theorem startPending_none (r : FramePtr)
    (h : o.execPending = none ∨ ∃ entry, o.execPending = some (q, entry)) :
    (o.startPending q r).execPending = none := by
  unfold Os.startPending
  rcases h with hp | ⟨entry, hp⟩
  · rw [hp]
    exact hp
  · rw [hp]
    simp

theorem finish_sysInv {r f : FramePtr} (ht : TableInv od.kernel)
    (hc : od.kernel.current = q) (hp : od.execPending = none ∨ ∃ entry, od.execPending = some (q, entry))
    (h : syscallFinish q number r od = .ok (f, o')) : SysInv o' := by
  obtain ⟨k1, o1, hsignal, ho1, hend⟩ := finish_inv h
  have hmarks := signalStep_marks hsignal
  obtain ⟨frames, hframes⟩ := startPending_kernel { od with kernel := k1 } q r
  rw [← ho1] at hframes
  have ht1 : TableInv o1.kernel := by
    rw [hframes]
    exact (hmarks.table ht).congr (fun _ => ⟨rfl, rfl, rfl, rfl⟩) rfl rfl ⟨rfl, rfl⟩
  have hp1 : o1.execPending = none := by
    rw [ho1]
    exact startPending_none r hp
  rcases hend with ⟨-, hblock, hpend⟩ | ⟨hstate, -, rfl⟩
  · exact ⟨ht1.steps (block_quiet hblock), block_live hblock, hpend.trans hp1⟩
  · refine ⟨ht1, fun i hi _ => ?_, hp1⟩
    have hq : q = .slot i := by
      rw [hframes] at hi
      rw [← hc, ← hmarks.current]
      exact hi
    rw [hq] at hstate
    exact hstate

theorem SignalEntry.inv (h : SignalEntry o e number r od) (hinv : SysInv o) :
    TableInv od.kernel ∧ od.kernel.current = o.kernel.current ∧
      (od.execPending = none ∨ ∃ entry, od.execPending = some (o.kernel.current, entry)) := by
  have hframe : ∀ {k : Kernel} {p : FramePtr} {regs : Registers}, TableInv k →
      TableInv (k.setFrame p regs) :=
    fun ht => ht.congr (fun _ => ⟨rfl, rfl, rfl, rfl⟩) rfl rfl ⟨rfl, rfl⟩
  cases h with
  | called h =>
    have hd := dispatch_inv h
    exact ⟨hframe (hd.table (hframe hinv.table)), hd.current (hframe hinv.table) hinv.live,
      hd.pending hinv.pending⟩
  | resumed r registers => exact ⟨hframe (hframe hinv.table), rfl, .inl hinv.pending⟩

theorem sysStep_call {dev : Devices} (h : sysStep o (.syscall dev cpu r registers) = some o') :
    (∃ cpu' k', schedulerYield cpu (o.enter r registers).kernel = .ok (some cpu', k') ∧
      o' = { o.enter r registers with kernel := k' }) ∨
    ∃ od f, SignalEntry o (.syscall dev cpu r registers) registers.eax r od ∧
      syscallFinish o.kernel.current registers.eax (.stack r) od = .ok (f, o') := by
  obtain ⟨⟨f, o1⟩, hcall, rfl⟩ := Option.map_eq_some_iff.mp h
  obtain ⟨⟨res, od⟩, hdispatch, hend⟩ := bind_eq_ok.mp (toOption_eq_some hcall)
  have hregs : (o.enter r registers).kernel.frames (.stack r) = registers := by
    simp [Os.enter, Kernel.setFrame]
  rw [hregs] at hdispatch hend
  cases res with
  | none =>
    cases hend
    refine .inl ?_
    generalize hnone : (none : Option Word) = res at hdispatch
    cases dispatch_inv hdispatch with
    | @yield loaded k' hn hy =>
      cases loaded with
      | none => cases hnone
      | some cpu' => exact ⟨cpu', k', hy, rfl⟩
    | _ => cases hnone
  | some v =>
    obtain ⟨⟨f', o2⟩, hfinish, hend⟩ := bind_eq_ok.mp hend
    cases hend
    exact .inr ⟨_, f', .called hdispatch, hfinish⟩

theorem sysStep_resumed (h : sysStep o (.resumed r registers) = some o') :
    ∃ od f, SignalEntry o (.resumed r registers) 7 r od ∧
    syscallFinish o.kernel.current 7 (.stack r) od = .ok (f, o') := by
  obtain ⟨⟨f, o1⟩, hcall, rfl⟩ := Option.map_eq_some_iff.mp h
  exact ⟨_, f, .resumed r registers, toOption_eq_some hcall⟩

theorem sysStep_inv (hinv : SysInv o) (h : sysStep o e = some o') : SysInv o' := by
  cases e with
  | os op =>
    dsimp only [sysStep] at h
    split at h
    · rename_i hmay
      exact ⟨osStep_table hinv.table h, osStep_live hinv.table hinv.live hmay h,
        (osStep_pending hmay h).trans hinv.pending⟩
    · cases h
  | descriptors vfs =>
    cases h
    exact ⟨hinv.table, hinv.live, hinv.pending⟩
  | syscall dev cpu r registers =>
    rcases sysStep_call h with ⟨cpu', k', hy, rfl⟩ | ⟨od, f, hentry, hfinish⟩
    · have ht : TableInv (o.enter r registers).kernel :=
        hinv.table.congr (fun _ => ⟨rfl, rfl, rfl, rfl⟩) rfl rfl ⟨rfl, rfl⟩
      have hl : (o.enter r registers).kernel.Live := hinv.live
      exact ⟨ht.steps (yield_quiet hy), (yield_live hl hy).1, hinv.pending⟩
    · obtain ⟨ht, hc, hp⟩ := hentry.inv hinv
      exact finish_sysInv ht hc hp hfinish
  | resumed r registers =>
    obtain ⟨od, f, hentry, hfinish⟩ := sysStep_resumed h
    obtain ⟨ht, hc, hp⟩ := hentry.inv hinv
    exact finish_sysInv ht hc hp hfinish

theorem SysInv.of_booted (h : o.kernel.Booted) (hp : o.execPending = none) : SysInv o := by
  refine ⟨TableInv.of_booted h, fun i hi => ?_, hp⟩
  rw [h.current] at hi
  cases hi

theorem sysRun_inv {events : List SysEvent} (h : o.kernel.Booted) (hp : o.execPending = none)
    (hrun : runs sysStep o events = some o') : SysInv o' :=
  runs_inv SysInv (fun _ _ _ hinv hstep => sysStep_inv hinv hstep) (SysInv.of_booted h hp) hrun

end

def bareDevices : Devices where
  disk := fun _ => oneFile (shortProgram 0 4) 84
  accepts := fun _ => false
  block := { present := false, writable := false, disk := fun _ _ => 0 }
  socket := fun _ _ _ _ => -1

def noCpu : CalleeSaved := { esp := 0, ebp := 0, ebx := 0, esi := 0, edi := 0 }

/-- The registers with which a process calls `n`, from the top of its stack. -/
def callRegisters (n a b c : Word) : Registers :=
  { zeroRegisters with eax := n, ebx := a, ecx := b, edx := c, eip := 0x400010, useresp := userStackTop }

def callOf (n a b c : Word) : SysEvent := .syscall bareDevices noCpu 0x9000 (callRegisters n a b c)

def callParts (n a b c : Word) (o : Os) : Option (Os × FramePtr × Os) := do
  let (res, o1)
    ← (syscallDispatch bareDevices noCpu n a b c (o.enter 0x9000 (callRegisters n a b c))).toOption
  let v ← res
  let od := o1.setResult (.stack 0x9000) v
  let (f, o') ← (syscallFinish o.kernel.current n (.stack 0x9000) od).toOption
  return (od, f, o')

theorem callParts_inv {n a b c : Word} {o od o' : Os} {f : FramePtr}
    (h : callParts n a b c o = some (od, f, o')) :
    SignalEntry o (callOf n a b c) n 0x9000 od ∧
      syscallFinish o.kernel.current n (.stack 0x9000) od = .ok (f, o') ∧
      syscallFromInterrupt bareDevices noCpu (.stack 0x9000)
        (o.enter 0x9000 (callRegisters n a b c)) = .ok (some f, o') := by
  obtain ⟨⟨res, o1⟩, hdispatch, h⟩ := Option.bind_eq_some_iff.mp h
  obtain ⟨v, rfl, hend⟩ := Option.bind_eq_some_iff.mp h
  obtain ⟨⟨f', o2⟩, hfinish, hend⟩ := Option.bind_eq_some_iff.mp hend
  cases hend
  have hd := toOption_eq_some hdispatch
  have hf := toOption_eq_some hfinish
  refine ⟨.called hd, hf, ?_⟩
  have hregs :
      (o.enter 0x9000 (callRegisters n a b c)).kernel.frames (.stack 0x9000) = callRegisters n a b c := by
    simp [Os.enter, Kernel.setFrame]
  refine bind_eq_ok.mpr ⟨(some v, o1), ?_, bind_eq_ok.mpr ⟨(f, o'), ?_, rfl⟩⟩
  · rw [hregs]
    exact hd
  · rw [hregs]
    exact hf

def handlerRun : List SysEvent :=
  [.os (.createUser 0x400000), .os (.enter true 0), callOf 17 1 0xbfe000 0]

end Ceblar
