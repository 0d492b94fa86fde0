import Ceblar.Kernel.SigReturn

/-! # Signal 9

`process_signal_action` refuses signal 9, and a new process has no handlers.
-/

namespace Ceblar

def Uncatchable (k : Kernel) : Prop :=
  ∀ i, (k.processes i).allocated = true → (k.processes i).signalHandlers 9 = 0

section

variable {k k' : Kernel} {f : Pcb → Pcb}

theorem Uncatchable.congr (h : Uncatchable k) (hp : k'.processes = k.processes) : Uncatchable k' := by
  unfold Uncatchable
  rw [hp]
  exact h

theorem Uncatchable.modify (h : Uncatchable k)
    (hf : ∀ p, (f p).signalHandlers = p.signalHandlers ∧ ((f p).allocated = true → p.allocated = true))
    (i : Nat) :
    Uncatchable (k.modify i f) := by
  intro j hj
  by_cases hij : j = i
  · subst hij
    rw [modify_self] at hj ⊢
    rw [(hf _).1]
    exact h j ((hf _).2 hj)
  · rw [modify_ne _ _ hij] at hj ⊢
    exact h j hj

theorem Uncatchable.modifyRef (h : Uncatchable k)
    (hf : ∀ p, (f p).signalHandlers = p.signalHandlers ∧ ((f p).allocated = true → p.allocated = true))
    (ref : PcbRef) :
    Uncatchable (k.modifyRef f ref) := by
  cases ref with
  | idle => exact h
  | slot i => exact h.modify hf i

theorem Uncatchable.kept (h : Uncatchable k) (hs : SameSignals k k')
    (ha : ∀ i, (k'.processes i).allocated = (k.processes i).allocated) : Uncatchable k' := by
  intro i hi
  rw [(hs i).handlers]
  exact h i ((ha i).symm.trans hi)

theorem Uncatchable.marks (h : Uncatchable k) (hm : Marks k k') : Uncatchable k' :=
  h.kept hm.sameSignals fun i => @Marks.kept k k' _ Pcb.allocated hm (fun _ _ => rfl) i

theorem Uncatchable.steps {ends : Word → Prop} (h : Uncatchable k) (hs : SameSignals k k')
    (hq : Steps ends k k') :
    Uncatchable k' := h.kept hs fun i => (hq.pcb i).allocated

theorem Claimed.uncatchable {j : Nat} (h : Claimed k j k') (hk : Uncatchable k) : Uncatchable k' := by
  intro i hi
  by_cases hij : i = j
  · subst hij
    exact h.handlers hi 9
  · rw [h.others i hij] at hi ⊢
    exact hk i hi

theorem Creation.uncatchable {res : Option Nat × Kernel} (h : Creation k res) (hk : Uncatchable k) :
    Uncatchable res.2 := by
  cases h with
  | refused vmm => exact hk
  | failed h => exact h.uncatchable hk
  | made h ha => exact h.uncatchable hk

theorem Forked.uncatchable {res : Option Nat × Kernel} (h : Forked k res) (hk : Uncatchable k) :
    Uncatchable res.2 := by
  cases h with
  | creation h => exact h.uncatchable hk
  | ended h ha hexit => exact (h.uncatchable hk).marks (exit_marks hexit)

end

/-! ## Runs -/

section

variable {k k' : Kernel} {o o' od : Os}

theorem wait_uncatchable {child status rc : Word} (h : Uncatchable k)
    (hw : processWait child status k = .ok (rc, k')) :
    Uncatchable k' := by
  rcases wait_inv hw with ⟨-, -, rfl⟩ | ⟨i, -, ⟨-, -, vmm, -, rfl⟩ | ⟨-, -, rfl⟩⟩
  · exact h
  · refine Uncatchable.modify (h.congr ?_) ?_ i
    · rfl
    · exact fun _ => ⟨rfl, fun ha => by cases ha⟩
  · refine h.modifyRef ?_ _
    exact fun _ => ⟨rfl, id⟩

theorem kernelOp_uncatchable {op : KernelOp} {s' : System} (ht : TableInv o.kernel)
    (h : Uncatchable o.kernel) (hs : kernelStep (System.boot o.kernel) op = some s') :
    Uncatchable s'.kernel := by
  cases op with
  | createEntry | createThread | createUser | createFromPath | fork =>
    obtain ⟨res, hf, rfl⟩ := kernelStep_creates rfl hs
    exact hf.uncatchable h
  | timerTick r registers =>
    obtain ⟨⟨f, htick⟩, -⟩ := after_map_inv hs
    have hframe : Uncatchable (o.kernel.setFrame (.stack r) registers) := h
    exact hframe.steps (tick_signals htick) (tick_quiet ht.ticks ht.idleTicks htick)
  | blockCurrent r registers =>
    obtain ⟨⟨f, hblock⟩, -⟩ := after_map_inv hs
    have hframe : Uncatchable (o.kernel.setFrame (.stack r) registers) := h
    exact hframe.steps (block_signals hblock) (block_quiet hblock)
  | wait child status =>
    obtain ⟨⟨rc, hwait⟩, -⟩ := after_map_inv hs
    exact wait_uncatchable h hwait
  | add | exitWithStatus | sendSignal | futexWait | futexWake | pollTimeouts | timerIrq | memory =>
    exact h.marks (kernelStep_marks rfl hs)

theorem replaced_uncatchable (h : Uncatchable k) (vmm : Vmm) (space : Nat) (entry : Word) (ref : PcbRef) :
    Uncatchable (({ k with vmm } : Kernel).modifyRef (fun p => p.replace space entry) ref) := by
  refine Uncatchable.modifyRef (h.congr ?_) ?_ ref
  · rfl
  · exact fun _ => ⟨rfl, id⟩

theorem ee_uncatchable {disk : Disk} {a : Word} {rc : Int} (h : Uncatchable o.kernel)
    (he : ee disk a o = .ok (rc, o')) :
    Uncatchable o'.kernel := by
  rcases ee_cases he with ⟨-, ⟨vmm, hk⟩, -⟩ | ⟨-, space, entry, -, vmm, hk⟩
  · rw [hk]
    exact h
  · rw [hk]
    exact replaced_uncatchable h vmm space entry _

theorem osStep_uncatchable {op : OsOp} (ht : TableInv o.kernel) (h : Uncatchable o.kernel)
    (hs : osStep o op = some o') :
    Uncatchable o'.kernel := by
  cases op with
  | kernel op hr =>
    obtain ⟨s', hstep, rfl⟩ := Option.map_eq_some_iff.mp hs
    exact kernelOp_uncatchable ht h hstep
  | createFromFile disk path =>
    obtain ⟨-, vmm, i, hc⟩ := osStep_file hs
    have hv : Uncatchable { o.kernel with vmm } := h
    exact hc.uncatchable hv
  | exec disk a =>
    obtain ⟨⟨rc, o1⟩, hexec, rfl⟩ := Option.map_eq_some_iff.mp hs
    exact ee_uncatchable h (toOption_eq_some hexec)
  | execPath disk path =>
    obtain ⟨⟨rc, o1⟩, hexec, rfl⟩ := Option.map_eq_some_iff.mp hs
    rcases execPath_cases (toOption_eq_some hexec) with ⟨-, ⟨vmm, he⟩ | ⟨space, entry, vmm, he⟩⟩
    · rw [he]
      exact h
    · rw [he]
      have hnew := replaced_uncatchable h vmm space entry o.kernel.current
      rcases enterUserRef_cases
        (({ o.kernel with vmm } : Kernel).modifyRef (fun p => p.replace space entry) o.kernel.current)
        o.kernel.current with ⟨-, he'⟩ | ⟨vmm', he'⟩
      · rw [he']
        exact hnew
      · rw [he']
        refine Uncatchable.modifyRef (hnew.congr ?_) ?_ _
        · rfl
        · exact fun _ => ⟨rfl, id⟩
  | yield cpu =>
    obtain ⟨⟨loaded, k⟩, hyield, rfl⟩ := Option.map_eq_some_iff.mp hs
    exact h.steps (yield_signals (toOption_eq_some hyield)) (yield_quiet (toOption_eq_some hyield))
  | enter user i =>
    obtain ⟨-, -, rfl | ⟨vmm, -, rfl⟩⟩ := osStep_enter hs
    · exact h
    · change Uncatchable (o.kernel.entered vmm i)
      unfold Kernel.entered
      refine Uncatchable.modify (k := { o.kernel with vmm, current := .slot i }) h ?_ i
      exact fun _ => ⟨rfl, id⟩

theorem Dispatched.uncatchable {cpu : CalleeSaved} {n a b d : Word} {res : Option Word}
    (hd : Dispatched cpu o n a b d res o') (h : Uncatchable o.kernel) : Uncatchable o'.kernel := by
  cases hd with
  | memory vmm hk hp =>
    rw [hk]
    exact h
  | fork hf => exact (fork_inv hf).uncatchable h
  | exit he => exact h.marks (exit_marks he)
  | wait vmm hn hbuf hw =>
    have hv : Uncatchable { o.kernel with vmm } := h
    exact wait_uncatchable hv hw
  | kill hk => exact h.marks (signal_marks hk)
  | futexWait vmm hn ha hbuf hw =>
    have hv : Uncatchable { o.kernel with vmm } := h
    exact hv.marks (futexWait_marks hw)
  | futexWake vmm hw =>
    have hv : Uncatchable { o.kernel with vmm } := h
    exact hv.marks (futexWake_marks hw)
  | @action v i vmm handlers mask hn hi h9 =>
    intro j hj
    by_cases hij : j = i
    · subst hij
      dsimp only at hj ⊢
      rw [modify_self] at hj ⊢
      exact h9.trans (h j hj)
    · dsimp only at hj ⊢
      rw [modify_ne _ _ hij] at hj ⊢
      exact h j hj
  | yield hn hy => exact h.steps (yield_signals hy) (yield_quiet hy)
  | exec hn he => exact ee_uncatchable h he

theorem SignalMarks.uncatchable (hm : SignalMarks k k') (h : Uncatchable k) : Uncatchable k' := by
  obtain ⟨vmm, frames, g, rfl, hg⟩ := hm
  have hv : Uncatchable { k with vmm, frames } := h
  refine hv.modifyRef (fun p => ?_) _
  obtain ⟨pending, saved, active, he⟩ := hg p
  rw [he]
  exact ⟨rfl, id⟩

theorem finish_uncatchable {q : PcbRef} {number : Word} {r f : FramePtr} (h : Uncatchable od.kernel)
    (hf : syscallFinish q number r od = .ok (f, o')) : Uncatchable o'.kernel := by
  obtain ⟨k1, o1, hsignal, ho1, hend⟩ := finish_inv hf
  obtain ⟨frames, hframes⟩ := startPending_kernel { od with kernel := k1 } q r
  rw [← ho1] at hframes
  have h1 : Uncatchable o1.kernel := by
    rw [hframes]
    exact (signalStep_marks hsignal).uncatchable h
  rcases hend with ⟨-, hblock, -⟩ | ⟨-, -, rfl⟩
  · exact h1.steps (block_signals hblock) (block_quiet hblock)
  · exact h1

theorem SignalEntry.uncatchable {e : SysEvent} {number p : Word} (hentry : SignalEntry o e number p od)
    (h : Uncatchable o.kernel) : Uncatchable od.kernel := by
  cases hentry with
  | @called dev cpu p v registers o1 hcall => exact (dispatch_inv hcall).uncatchable h
  | resumed p registers => exact h

theorem sysStep_uncatchable {e : SysEvent} (hinv : SysInv o) (h : Uncatchable o.kernel)
    (hs : sysStep o e = some o') :
    Uncatchable o'.kernel := by
  cases e with
  | os op =>
    dsimp only [sysStep] at hs
    split at hs
    · exact osStep_uncatchable hinv.table h hs
    · cases hs
  | descriptors vfs =>
    cases hs
    exact h
  | syscall dev cpu p registers =>
    rcases sysStep_call hs with ⟨cpu', k', hy, rfl⟩ | ⟨od, f, hentry, hfinish⟩
    · have hframe : Uncatchable (o.enter p registers).kernel := h
      exact hframe.steps (yield_signals hy) (yield_quiet hy)
    · exact finish_uncatchable (hentry.uncatchable h) hfinish
  | resumed p registers =>
    obtain ⟨od, f, hentry, hfinish⟩ := sysStep_resumed hs
    exact finish_uncatchable (hentry.uncatchable h) hfinish

theorem sysRun_uncatchable {events : List SysEvent} (h : o.kernel.Booted) (hp : o.execPending = none)
    (hrun : runs sysStep o events = some o') : Uncatchable o'.kernel := by
  refine (runs_inv (fun o => SysInv o ∧ Uncatchable o.kernel) (fun o e o' h hs => ?_)
    ⟨SysInv.of_booted h hp, ?_⟩ hrun).2
  · exact ⟨sysStep_inv h.1 hs, sysStep_uncatchable h.1 h.2 hs⟩
  · intro i hi
    rw [h.free i] at hi
    cases hi

end

/-- Whatever the processes do, none of them ever has a handler for signal 9. -/
theorem kill_never_caught (o o' : Os) (h0 : o.kernel.Booted) (hp0 : o.execPending = none)
    (events : List SysEvent) (hrun : runs sysStep o events = some o') (i : Nat)
    (ha : (o'.kernel.processes i).allocated = true) :
    (o'.kernel.processes i).signalHandlers 9 = 0 := sysRun_uncatchable h0 hp0 hrun i ha

theorem kill_never_caught_asked :
    ∃ o, runs sysStep coldOs (handlerRun ++ [callOf 17 9 0xbfe000 0]) = some o ∧
    (o.kernel.processes 0).signalHandlers 1 ≠ 0 ∧ (o.kernel.processes 0).signalHandlers 9 = 0 := by
  have hview : (runs sysStep coldOs (handlerRun ++ [callOf 17 9 0xbfe000 0])).map (fun o =>
      ((o.kernel.processes 0).allocated, decide ((o.kernel.processes 0).signalHandlers 1 ≠ 0))) =
        some (true, true) := by
    decide +kernel
  obtain ⟨o, hrun, hx⟩ := Option.map_eq_some_iff.mp hview
  obtain ⟨ha, hone⟩ := Prod.mk.inj hx
  exact ⟨o, hrun, of_decide_eq_true hone, kill_never_caught coldOs o coldOs_booted.1 rfl _ hrun 0 ha⟩

end Ceblar
