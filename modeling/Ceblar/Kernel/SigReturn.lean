import Ceblar.Kernel.SyscallRun

/-! # Returning from a signal handler

`SYS_SIGRETURN` goes by `scheduler_current`, which is not the process any more if it went to sleep
in its handler when no other was ready.
-/

namespace Ceblar

/-! ## The signals of a process in the table -/

structure Pcb.Steady (p p' : Pcb) : Prop where
  handlers : p'.signalHandlers = p.signalHandlers
  mask : p'.signalMask = p.signalMask
  active : p'.signalActive = p.signalActive
  saved : p'.signalSavedFrame = p.signalSavedFrame
  user : p.userMode = true → p'.userMode = true

section

variable {k k' : Kernel} {o o' : Os} {c : Nat}

theorem Pcb.Fixed.steady {p p' : Pcb} (h : p.Fixed p') : p.Steady p' :=
  ⟨h.handlers, h.mask, h.active, h.saved, fun hu => h.mode.trans hu⟩

theorem Pcb.Steady.refl (p : Pcb) : p.Steady p := (Pcb.Fixed.refl p).steady

theorem Pcb.Steady.trans {p p1 p' : Pcb} (h1 : p.Steady p1) (h2 : p1.Steady p') : p.Steady p' :=
  ⟨h2.handlers.trans h1.handlers, h2.mask.trans h1.mask, h2.active.trans h1.active,
    h2.saved.trans h1.saved, fun hu => h2.user (h1.user hu)⟩

theorem steady_modifyRef {f : Pcb → Pcb} {ref : PcbRef} (hf : ∀ p : Pcb, p.Steady (f p)) (c : Nat) :
    (k.processes c).Steady ((k.modifyRef f ref).processes c) := by
  rcases modifyRef_processes k f ref c with he | he
  · rw [he]
    exact Pcb.Steady.refl _
  · rw [he]
    exact hf _

theorem replaced_steady (vmm : Vmm) (space : Nat) (entry : Word) (ref : PcbRef) (c : Nat) :
    (k.processes c).Steady
      ((({ k with vmm } : Kernel).modifyRef (fun p => p.replace space entry) ref).processes c) := by
  refine @steady_modifyRef { k with vmm } _ ref ?_ c
  exact fun _ => ⟨rfl, rfl, rfl, rfl, fun _ => rfl⟩

theorem enterUserRef_steady (ref : PcbRef) (c : Nat) :
    (k.processes c).Steady ((processEnterUserRef ref k).processes c) := by
  rcases enterUserRef_cases k ref with ⟨-, he⟩ | ⟨vmm, he⟩
  · rw [he]
    exact Pcb.Steady.refl _
  · rw [he]
    refine @steady_modifyRef { k with vmm, current := ref } _ ref ?_ c
    exact fun _ => ⟨rfl, rfl, rfl, rfl, id⟩

theorem ee_steady {disk : Disk} {a : Word} {rc : Int} (h : ee disk a o = .ok (rc, o')) (c : Nat) :
    (o.kernel.processes c).Steady (o'.kernel.processes c) := by
  rcases ee_cases h with ⟨-, ⟨vmm, he⟩, -⟩ | ⟨-, space, entry, -, vmm, he⟩
  · rw [he]
    exact Pcb.Steady.refl _
  · rw [he]
    exact replaced_steady vmm space entry _ c

theorem kernelOp_steady {op : KernelOp} {s' : System} (ha : (o.kernel.processes c).allocated = true)
    (hs : kernelStep (System.boot o.kernel) op = some s') :
    (o.kernel.processes c).Steady (s'.kernel.processes c) := by
  cases op with
  | createEntry | createThread | createUser | createFromPath | fork =>
    obtain ⟨res, hf, rfl⟩ := kernelStep_creates rfl hs
    exact (hf.signals ha).steady
  | timerTick r registers =>
    obtain ⟨⟨f, htick⟩, -⟩ := after_map_inv hs
    exact (tick_signals htick c).steady
  | blockCurrent r registers =>
    obtain ⟨⟨f, hblock⟩, -⟩ := after_map_inv hs
    exact (block_signals hblock c).steady
  | wait child status =>
    obtain ⟨⟨rc, hwait⟩, -⟩ := after_map_inv hs
    exact (wait_signals hwait c).steady
  | add | exitWithStatus | sendSignal | futexWait | futexWake | pollTimeouts | timerIrq | memory =>
    exact ((kernelStep_marks rfl hs).sameSignals c).steady

theorem osStep_steady {op : OsOp} (ha : (o.kernel.processes c).allocated = true)
    (hs : osStep o op = some o') :
    (o.kernel.processes c).Steady (o'.kernel.processes c) := by
  cases op with
  | kernel op hr =>
    obtain ⟨s', hstep, rfl⟩ := Option.map_eq_some_iff.mp hs
    exact kernelOp_steady ha hstep
  | createFromFile disk path =>
    obtain ⟨-, vmm, i, hc⟩ := osStep_file hs
    exact (Creation.signals (k := { o.kernel with vmm }) hc ha).steady
  | exec disk a =>
    obtain ⟨⟨rc, o1⟩, hexec, rfl⟩ := Option.map_eq_some_iff.mp hs
    exact ee_steady (toOption_eq_some hexec) c
  | execPath disk path =>
    obtain ⟨⟨rc, o1⟩, hexec, rfl⟩ := Option.map_eq_some_iff.mp hs
    rcases execPath_cases (toOption_eq_some hexec) with ⟨-, ⟨vmm, he⟩ | ⟨space, entry, vmm, he⟩⟩
    · rw [he]
      exact Pcb.Steady.refl _
    · rw [he]
      exact (replaced_steady vmm space entry o.kernel.current c).trans (enterUserRef_steady _ c)
  | yield cpu =>
    obtain ⟨⟨loaded, k⟩, hyield, rfl⟩ := Option.map_eq_some_iff.mp hs
    exact (yield_signals (toOption_eq_some hyield) c).steady
  | enter user i =>
    obtain ⟨-, -, rfl | ⟨vmm, -, rfl⟩⟩ := osStep_enter hs
    · exact Pcb.Steady.refl _
    · have hrun : ∀ p : Pcb, p.Steady { p with state := .running, interruptFrame := none } :=
        fun _ => ⟨rfl, rfl, rfl, rfl, id⟩
      exact @steady_modifyRef { o.kernel with vmm, current := .slot i } _ (.slot i) hrun c

/-- A call changes where the signals of a process go only if it is the process's own `SYS_SIGACTION`. -/
theorem Dispatched.steady {cpu : CalleeSaved} {n a b d : Word} {res : Option Word}
    (h : Dispatched cpu o n a b d res o') (ht : TableInv o.kernel)
    (ha : (o.kernel.processes c).allocated = true) :
    (o.kernel.processes c).Steady (o'.kernel.processes c) ∨
    n.toNat = 17 ∧ o.kernel.current = .slot c ∧
    (o'.kernel.processes c).signalActive = (o.kernel.processes c).signalActive ∧
      (o'.kernel.processes c).signalSavedFrame = (o.kernel.processes c).signalSavedFrame ∧
      (o'.kernel.processes c).userMode = (o.kernel.processes c).userMode := by
  cases h with
  | memory vmm hk hp =>
    rw [hk]
    exact .inl (Pcb.Steady.refl _)
  | fork h => exact .inl ((fork_inv h).signals ha).steady
  | exit h => exact .inl ((exit_marks h).sameSignals c).steady
  | wait vmm hn hbuf h => exact .inl (wait_signals h c).steady
  | kill h => exact .inl ((signal_marks h).sameSignals c).steady
  | futexWait vmm hn hr hbuf h => exact .inl ((futexWait_marks h).sameSignals c).steady
  | futexWake vmm h => exact .inl ((futexWake_marks h).sameSignals c).steady
  | @action v i vmm handlers mask hn hi h9 =>
    by_cases hic : c = i
    · subst hic
      refine .inr ⟨hn, ?_, ?_⟩
      · -- the slot that was found is the caller's
        obtain ⟨-, hpid, -⟩ := findPid_some hi
        cases hcur : o.kernel.current with
        | idle =>
          rw [hcur] at hpid
          exact absurd (hpid.trans ht.idlePid) (ht.pid_ne_zero ha)
        | slot j =>
          rw [hcur] at hpid
          rw [ht.slot_unique ha (ht.current j hcur) hpid]
      · dsimp only
        rw [modify_self]
        exact ⟨rfl, rfl, rfl⟩
    · refine .inl ?_
      dsimp only
      rw [modify_ne _ _ hic]
      exact Pcb.Steady.refl _
  | yield hn h => exact .inl (yield_signals h c).steady
  | exec hn h => exact .inl (ee_steady h c)

end

/-! ## In a handler -/

structure InHandler (c : Nat) (frame : Registers) (k : Kernel) : Prop where
  active : (k.processes c).signalActive = true
  saved : (k.processes c).signalSavedFrame = frame
  user : (k.processes c).userMode = true

/-- The process is in the table, and the step is not its `SYS_SIGRETURN`. -/
def Meanwhile (c : Nat) (o : Os) (e : SysEvent) : Prop :=
  (o.kernel.processes c).allocated = true ∧
    ∀ dev cpu r registers, e = .syscall dev cpu r registers → o.kernel.current = .slot c →
    registers.eax ≠ sysSigreturn

def EntersHandler (c : Nat) (o : Os) (e : SysEvent) : Prop :=
  (o.kernel.processes c).signalActive = false ∧
    ∃ o', sysStep o e = some o' ∧ (o'.kernel.processes c).signalActive = true

section

variable {k k' : Kernel} {o o' od : Os} {c : Nat} {frame : Registers} {number : Word} {q : PcbRef}
    {r f : FramePtr}

theorem InHandler.steady (h : InHandler c frame k) (hs : (k.processes c).Steady (k'.processes c)) :
    InHandler c frame k' :=
  ⟨hs.active.trans h.active, hs.saved.trans h.saved, hs.user h.user⟩

theorem SignalMarks.others (h : SignalMarks k k') (hc : k.current ≠ .slot c) :
    k'.processes c = k.processes c := by
  obtain ⟨vmm, frames, g, rfl, -⟩ := h
  cases hk : k.current with
  | idle => rfl
  | slot j => exact modify_ne _ _ fun he => hc (hk.trans (congrArg PcbRef.slot he.symm))

theorem finish_signals (h : syscallFinish q number r o = .ok (f, o')) :
    ∃ k1, signalStep number r o.kernel = .ok k1 ∧
    ∀ i, (k1.processes i).Fixed (o'.kernel.processes i) := by
  obtain ⟨k1, o1, hsignal, ho1, hend⟩ := finish_inv h
  obtain ⟨frames, hframes⟩ := startPending_kernel { o with kernel := k1 } q r
  rw [← ho1] at hframes
  have h1 : SameSignals k1 o1.kernel := by
    rw [hframes]
    exact SameSignals.refl k1
  refine ⟨k1, hsignal, ?_⟩
  rcases hend with ⟨-, hblock, -⟩ | ⟨-, -, rfl⟩
  · exact h1.trans (block_signals hblock)
  · exact h1

theorem InHandler.finish (h : InHandler c frame o.kernel)
    (hn : o.kernel.current = .slot c → number ≠ sysSigreturn)
    (hf : syscallFinish q number r o = .ok (f, o')) : InHandler c frame o'.kernel := by
  obtain ⟨k1, hsignal, hend⟩ := finish_signals hf
  refine InHandler.steady ?_ (hend c).steady
  by_cases hc : o.kernel.current = .slot c
  · unfold signalStep at hsignal
    rw [if_neg (hn hc)] at hsignal
    rw [deliver_active hsignal (by rw [hc]; exact h.active)]
    exact h
  · refine h.steady ?_
    rw [(signalStep_marks hsignal).others hc]
    exact Pcb.Steady.refl _

theorem SignalEntry.inHandler {e : SysEvent} {p : Word} (hentry : SignalEntry o e number p od)
    (hinv : SysInv o) (ha : (o.kernel.processes c).allocated = true)
    (h : InHandler c frame o.kernel) : InHandler c frame od.kernel := by
  cases hentry with
  | @called dev cpu p v registers o1 hcall =>
    have ht : TableInv (o.enter p registers).kernel :=
      hinv.table.congr (fun _ => ⟨rfl, rfl, rfl, rfl⟩) rfl rfl ⟨rfl, rfl⟩
    rcases (dispatch_inv hcall).steady ht ha with hs | ⟨-, -, hactive, hsaved, hmode⟩
    · exact h.steady hs
    · exact ⟨hactive.trans h.active, hsaved.trans h.saved, hmode.trans h.user⟩
  | resumed p registers => exact h.steady (Pcb.Steady.refl _)

theorem sysStep_inHandler {e : SysEvent} (hinv : SysInv o) (hm : Meanwhile c o e)
    (h : InHandler c frame o.kernel) (hs : sysStep o e = some o') :
    InHandler c frame o'.kernel := by
  obtain ⟨ha, hreturn⟩ := hm
  cases e with
  | os op =>
    dsimp only [sysStep] at hs
    split at hs
    · exact h.steady (osStep_steady ha hs)
    · cases hs
  | descriptors vfs =>
    cases hs
    exact h
  | syscall dev cpu p registers =>
    rcases sysStep_call hs with ⟨cpu', k', hy, rfl⟩ | ⟨od, f, hentry, hfinish⟩
    · exact h.steady (yield_signals hy c).steady
    · refine (hentry.inHandler hinv ha h).finish (fun hc => ?_) hfinish
      exact hreturn dev cpu p registers rfl ((hentry.inv hinv).2.1.symm.trans hc)
  | resumed p registers =>
    obtain ⟨od, f, hentry, hfinish⟩ := sysStep_resumed hs
    exact (hentry.inHandler hinv ha h).finish (fun _ => by decide) hfinish

theorem sysRun_inHandler {events : List SysEvent} (hinv : SysInv o)
    (hm : Along (Meanwhile c) sysStep o events) (h : InHandler c frame o.kernel)
    (hrun : runs sysStep o events = some o') :
    SysInv o' ∧ InHandler c frame o'.kernel ∧
    Along (fun o e => ¬EntersHandler c o e) sysStep o events := by
  induction events generalizing o with
  | nil =>
    cases hrun
    exact ⟨hinv, h, trivial⟩
  | cons e events ih =>
    obtain ⟨hhead, htail⟩ := hm
    rw [runs_cons] at hrun
    obtain ⟨o1, hstep, hrun⟩ := Option.bind_eq_some_iff.mp hrun
    obtain ⟨hinv', h', hnone⟩ :=
      ih (sysStep_inv hinv hstep) (htail o1 hstep) (sysStep_inHandler hinv hhead h hstep) hrun
    refine ⟨hinv', h', fun henters => ?_, fun o2 hstep2 => ?_⟩
    · exact absurd (h.active.symm.trans henters.1) (by decide)
    · rw [hstep] at hstep2
      cases hstep2
      exact hnone

theorem enters_saves (hc : o.kernel.current = .slot c)
    (h : syscallFinish q number r o = .ok (f, o'))
    (hbefore : (o.kernel.processes c).signalActive = false)
    (hafter : (o'.kernel.processes c).signalActive = true) :
    InHandler c (o.kernel.frames r) o'.kernel := by
  obtain ⟨k1, hsignal, hend⟩ := finish_signals h
  have hactive : (k1.processes c).signalActive = true := (hend c).active.symm.trans hafter
  have hpcb : o.kernel.pcb o.kernel.current = o.kernel.processes c := by
    rw [hc]
    rfl
  refine InHandler.steady ?_ (hend c).steady
  unfold signalStep at hsignal
  split at hsignal
  · -- a return leaves a process that is in no handler alone
    cases hsignal
    unfold processSignalReturn at hactive
    simp [hpcb, hbefore] at hactive
  · rcases deliver_inv hsignal with ⟨vmm, x, rfl⟩ | ⟨huser, -, s, vmm, x, -, -, -, -, rfl⟩
    · simp [Kernel.withPending, hc, Kernel.modifyRef, Kernel.modify, hbefore] at hactive
    · rw [hpcb] at huser
      refine ⟨hactive, ?_, ?_⟩
      · simp [Kernel.enterHandler, hc, Kernel.modifyRef, Kernel.modify]
      · simpa [Kernel.enterHandler, hc, Kernel.modifyRef, Kernel.modify, Kernel.setFrame] using huser

theorem sigreturn_call {dev : Devices} {cpu : CalleeSaved} {p : Word} {registers : Registers}
    (hn : registers.eax = sysSigreturn)
    (h : syscallFromInterrupt dev cpu (.stack p) (o.enter p registers) = .ok (some f, o')) :
    syscallFinish o.kernel.current sysSigreturn (.stack p)
      ((o.enter p registers).setResult (.stack p) 0) = .ok (f, o') := by
  obtain ⟨⟨res, od⟩, hdispatch, hend⟩ := bind_eq_ok.mp h
  have hregs : (o.enter p registers).kernel.frames (.stack p) = registers := by
    simp [Os.enter, Kernel.setFrame]
  rw [hregs, hn] at hdispatch hend
  cases hdispatch
  obtain ⟨⟨f', o2⟩, hfinish, hend⟩ := bind_eq_ok.mp hend
  cases hend
  exact hfinish

theorem sigreturn_current {p : FramePtr} (h : InHandler c frame o.kernel)
    (hc : o.kernel.current = .slot c) (hp : o.execPending = none) (hl : o.kernel.Live)
    (hf : syscallFinish (.slot c) sysSigreturn p o = .ok (f, o')) :
    f = p ∧ o'.kernel.frames p = frame ∧ (o'.kernel.processes c).signalActive = false := by
  obtain ⟨k1, o1, hsignal, ho1, hend⟩ := finish_inv hf
  have hk1 : k1 = (o.kernel.setFrame p frame).modifyRef (fun q => { q with signalActive := false })
      (.slot c) := by
    unfold signalStep at hsignal
    rw [if_pos rfl] at hsignal
    cases hsignal
    have hactive : (o.kernel.pcb (.slot c)).signalActive = true := h.active
    have hsaved : (o.kernel.pcb (.slot c)).signalSavedFrame = frame := h.saved
    unfold processSignalReturn
    dsimp only
    rw [hc, hactive, hsaved]
    rfl
  have hkernel : o1.kernel = k1 := by
    rw [ho1]
    unfold Os.startPending
    rw [hp]
  have hstate : ((k1.pcb (.slot c)).state ≠ .blocked ∧ (k1.pcb (.slot c)).state ≠ .zombie) := by
    rw [hk1, modifyRef_pcb]
    exact hl c hc h.user
  rw [hkernel] at hend
  rcases hend with ⟨hstopped, -⟩ | ⟨-, rfl, rfl⟩
  · exact absurd hstopped (not_or.mpr hstate)
  · rw [hkernel, hk1]
    refine ⟨rfl, ?_, ?_⟩
    · rw [modifyRef_frames]
      simp [Kernel.setFrame]
    · simp [Kernel.modifyRef, Kernel.modify]

end

/-- Whatever happens while a handler runs, the next `SYS_SIGRETURN` of its process gives the frame
back word for word exactly if the scheduler takes it for the current process. -/
theorem sigreturn_restores_iff {o0 o : Os} (h0 : o0.kernel.Booted) (hp0 : o0.execPending = none)
    {before : List SysEvent} (hbefore : runs sysStep o0 before = some o)
    -- the handler is entered at `r`
    {c : Nat} {e : SysEvent} {number r : Word} {od o1 : Os} {f1 : FramePtr}
      (hc : o.kernel.current = .slot c)
    (hentry : SignalEntry o e number r od)
      (hfinish : syscallFinish o.kernel.current number (.stack r) od = .ok (f1, o1))
    (hout : (od.kernel.processes c).signalActive = false)
      (hin : (o1.kernel.processes c).signalActive = true)
    -- what happens in between
    {events : List SysEvent} {o2 : Os} (hmeanwhile : Along (Meanwhile c) sysStep o1 events)
    (hrun : runs sysStep o1 events = some o2)
    -- the process calls `SYS_SIGRETURN`, as the current process or after it went to sleep alone
    {dev : Devices} {cpu : CalleeSaved} {r2 : Word} {registers : Registers} {f : FramePtr} {o3 : Os}
    (hcaller : o2.kernel.current = .slot c ∨ o2.kernel.current = .idle)
      (hnumber : registers.eax = sysSigreturn)
    (hreturn : syscallFromInterrupt dev cpu (.stack r2) (o2.enter r2 registers) = .ok (some f, o3)) :
    (f = .stack r2 ∧ o3.kernel.frames f = od.kernel.frames (.stack r) ∧
      (o3.kernel.processes c).signalActive = false ∧
      Along (fun o e => ¬EntersHandler c o e) sysStep o1 events) ↔ o2.kernel.current = .slot c := by
  have hinv := sysRun_inv h0 hp0 hbefore
  obtain ⟨ht, hcur, hp⟩ := hentry.inv hinv
  have hsaved := enters_saves (hcur.trans hc) hfinish hout hin
  obtain ⟨hinv2, h2, hnone⟩ := sysRun_inHandler (finish_sysInv ht hcur hp hfinish) hmeanwhile hsaved hrun
  have hcall := sigreturn_call hnumber hreturn
  have h3 : InHandler c (od.kernel.frames (.stack r))
      ((o2.enter r2 registers).setResult (.stack r2) 0).kernel :=
    h2.steady (Pcb.Steady.refl _)
  rcases hcaller with hslot | hidle
  · rw [hslot] at hcall
    obtain ⟨rfl, hframe, hactive⟩ := sigreturn_current h3 hslot hinv2.pending hinv2.live hcall
    exact iff_of_true ⟨rfl, hframe, hactive, hnone⟩ hslot
  · refine iff_of_false (fun hdone => ?_) (by simp [hidle])
    -- the idle process is in no handler, so the call is passed over
    have hstill := h3.finish (fun hc => absurd (hidle.symm.trans hc) (by simp)) hcall
    exact absurd (hstill.active.symm.trans hdone.2.2.1) (by decide)

def meanwhileTest (o : Os) : SysEvent → Bool
  | .syscall _ _ _ registers => (o.kernel.processes 0).allocated && registers.eax != sysSigreturn
  | _ => (o.kernel.processes 0).allocated

theorem meanwhileTest_ok (o : Os) (e : SysEvent) (h : meanwhileTest o e = true) : Meanwhile 0 o e := by
  cases e with
  | syscall dev cpu r registers =>
    simp only [meanwhileTest, Bool.and_eq_true, bne_iff_ne] at h
    refine ⟨h.1, ?_⟩
    rintro _ _ _ _ ⟨rfl⟩ -
    exact h.2
  | os op => exact ⟨h, fun _ _ _ _ he => by cases he⟩
  | descriptors vfs => exact ⟨h, fun _ _ _ _ he => by cases he⟩
  | resumed r registers => exact ⟨h, fun _ _ _ _ he => by cases he⟩

def busyHandler : List SysEvent :=
  [callOf 6 0 0 0, callOf 14 257 1 0, .os (.timerTick 0x9000 zeroRegisters)]

theorem sigreturn_restores_iff_busyHandler : ∃ o od o1 o2 f o3,
    runs sysStep coldOs handlerRun = some o ∧ SignalEntry o (callOf 14 257 1 0) 14 0x9000 od ∧
    runs sysStep o1 busyHandler = some o2 ∧
    syscallFromInterrupt bareDevices noCpu (.stack 0x9000)
      (o2.enter 0x9000 (callRegisters 18 0 0 0)) = .ok (some f, o3) ∧
    f = .stack 0x9000 ∧ o3.kernel.frames f = od.kernel.frames (.stack 0x9000) ∧
    (o3.kernel.processes 0).signalActive = false ∧
      Along (fun o e => ¬EntersHandler 0 o e) sysStep o1 busyHandler := by
  have hview : ((runs sysStep coldOs handlerRun).bind fun o => (callParts 14 257 1 0 o).bind fun x =>
      (runs sysStep x.2.2 busyHandler).bind fun o2 => (callParts 18 0 0 0 o2).map fun _ =>
        (o.kernel.current, (x.1.kernel.processes 0).signalActive, (x.2.2.kernel.processes 0).signalActive,
          alongCheck meanwhileTest sysStep x.2.2 busyHandler, o2.kernel.current)) =
      some (.slot 0, false, true, true, .slot 0) := by
    decide +kernel
  obtain ⟨o, ho, hview⟩ := Option.bind_eq_some_iff.mp hview
  obtain ⟨⟨od, f1, o1⟩, hentered, hview⟩ := Option.bind_eq_some_iff.mp hview
  obtain ⟨o2, ho2, hview⟩ := Option.bind_eq_some_iff.mp hview
  obtain ⟨⟨or, f, o3⟩, hreturned, hx⟩ := Option.map_eq_some_iff.mp hview
  simp only [Prod.mk.injEq] at hx
  obtain ⟨hc, hout, hin, hcheck, hcaller⟩ := hx
  obtain ⟨hentry, hfinish, -⟩ := callParts_inv hentered
  obtain ⟨-, -, hreturn⟩ := callParts_inv hreturned
  refine ⟨o, od, o1, o2, f, o3, ho, hentry, ho2, hreturn, ?_⟩
  exact (sigreturn_restores_iff coldOs_booted.1 rfl ho hc hentry hfinish hout hin
    (along_of_check meanwhileTest_ok hcheck) ho2 (.inl hcaller) rfl hreturn).mpr hcaller

/-- The handler waits on a futex with nothing else to run. The kernel goes back to it, but as far as
the scheduler knows the idle process is running, and `SYS_SIGRETURN` does nothing. -/
theorem sigreturn_after_sleep : ∃ o od o1 f2 o2 f o3,
    runs sysStep coldOs handlerRun = some o ∧ SignalEntry o (callOf 14 257 1 0) 14 0x9000 od ∧
    syscallFinish o.kernel.current 14 (.stack 0x9000) od = .ok (.stack 0x9000, o1) ∧
    (od.kernel.processes 0).signalActive = false ∧ (o1.kernel.processes 0).signalActive = true ∧
    -- the wait returns to its caller
    syscallFromInterrupt bareDevices noCpu (.stack 0x9000)
      (o1.enter 0x9000 (callRegisters 15 0xbfe000 0x2f616468 0)) =
      .ok (some f2, o2) ∧ f2 = .stack 0x9000 ∧
    syscallFromInterrupt bareDevices noCpu (.stack 0x9000)
      (o2.enter 0x9000 (callRegisters 18 0 0 0)) = .ok (some f, o3) ∧
    ¬(f = .stack 0x9000 ∧ o3.kernel.frames f = od.kernel.frames (.stack 0x9000) ∧
      (o3.kernel.processes 0).signalActive = false) := by
  have hview : ((runs sysStep coldOs handlerRun).bind fun o => (callParts 14 257 1 0 o).bind fun x =>
      (callParts 15 0xbfe000 0x2f616468 0 x.2.2).bind fun y => (callParts 18 0 0 0 y.2.2).map fun z =>
        ((x.1.kernel.processes 0).signalActive, x.2.1, (x.2.2.kernel.processes 0).signalActive, y.2.1,
          (z.2.2.kernel.processes 0).signalActive)) =
      some (false, .stack 0x9000, true, .stack 0x9000, true) := by
    decide +kernel
  obtain ⟨o, ho, hview⟩ := Option.bind_eq_some_iff.mp hview
  obtain ⟨⟨od, f1, o1⟩, hentered, hview⟩ := Option.bind_eq_some_iff.mp hview
  obtain ⟨⟨ow, f2, o2⟩, hwait, hview⟩ := Option.bind_eq_some_iff.mp hview
  obtain ⟨⟨or, f, o3⟩, hreturned, hx⟩ := Option.map_eq_some_iff.mp hview
  simp only [Prod.mk.injEq] at hx
  obtain ⟨hout, rfl, hin, rfl, hstill⟩ := hx
  obtain ⟨hentry, hfinish, -⟩ := callParts_inv hentered
  refine ⟨o, od, o1, _, o2, f, o3, ho, hentry, hfinish, hout, hin, (callParts_inv hwait).2.2, rfl,
    (callParts_inv hreturned).2.2, fun hdone => ?_⟩
  exact absurd (hstill.symm.trans hdone.2.2) (by decide)

end Ceblar
