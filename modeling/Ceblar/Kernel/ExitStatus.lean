import Ceblar.Kernel.ExecTable
import Ceblar.Kernel.PidHistory

/-! # The status of a process that has ended

`process_exit_with_status`, and with it signal 9, does not ask whether the process has ended before.
-/

namespace Ceblar

/-! ## A process that has ended -/

/-- The process in slot `i` has ended with `code`, and nobody has waited for it. -/
structure Ended (i : Nat) (pid code : Word) (k : Kernel) : Prop where
  allocated : (k.processes i).allocated = true
  pid : (k.processes i).pid = pid
  state : (k.processes i).state = .zombie
  code : (k.processes i).exitCode = code

section

variable {k k1 k' : Kernel} {i j : Nat} {pid code : Word}

theorem Ended.congr (h : Ended i pid code k) (he : k'.processes i = k.processes i) :
    Ended i pid code k' := by
  obtain ⟨h1, h2, h3, h4⟩ := h
  rw [← he] at h1 h2 h3 h4
  exact ⟨h1, h2, h3, h4⟩

theorem Ended.steps {ends : Word → Prop} (h : Ended i pid code k) (hs : Steps ends k k')
    (hne : ¬ends pid) :
    Ended i pid code k' where
  allocated := (hs.pcb i).allocated.trans h.allocated
  pid := (hs.pcb i).pid.trans h.pid
  state := (hs.pcb i).stays h.state
  code := by
    rcases (hs.pcb i).code with he | he
    · exact he.trans h.code
    · exact absurd (h.pid ▸ he) hne

theorem Ended.quiet (h : Ended i pid code k) (hs : Quiet k k') : Ended i pid code k' := h.steps hs id

theorem Ended.claimed (h : Ended i pid code k) (hc : Claimed k j k') : Ended i pid code k' := by
  refine h.congr (hc.others i ?_)
  rintro rfl
  exact absurd h.allocated (by simp [hc.free])

theorem Ended.creation {res : Option Nat × Kernel} (h : Ended i pid code k) (hc : Creation k res) :
    Ended i pid code res.2 := by
  cases hc with
  | refused vmm => exact h.congr rfl
  | failed hj => exact h.claimed hj
  | made hj ha => exact h.claimed hj

theorem Ended.woken (h : Ended i pid code k) (hw : WokenAndAdded j k k1 k') : Ended i pid code k' := by
  obtain ⟨hwoken, rc, hadd⟩ := hw
  refine Ended.quiet (h.congr (hwoken.others i ?_)) (schedulerAdd_relinks hadd).quiet
  rintro rfl
  exact absurd (h.state.symm.trans hwoken.blocked) (by decide)

theorem exit_ends {status : Word} {rc : Int} (hi : findPid k pid (fun _ => true) = some i)
    (h : processExitWithStatus pid status k = .ok (rc, k')) : Ended i pid status k' := by
  obtain ⟨ha, hp, -⟩ := findPid_some hi
  unfold processExitWithStatus at h
  rw [hi] at h
  obtain ⟨k2, hloop, hk⟩ := bind_eq_ok.mp h
  cases hk
  refine forRangeE_ok (fun _ s => Ended i pid status s) ?_ (fun j _ s s' hs hstep => ?_) hloop
  · refine forRange_inv (fun _ s => Ended i pid status s) _ ?_ fun j _ s hs => ?_
    · refine ⟨?_, ?_, ?_, ?_⟩
      all_goals rw [modify_self]
      · exact ha
      · exact hp
    · dsimp only
      split
      · by_cases hj : i = j
        · subst hj
          refine ⟨?_, ?_, ?_, ?_⟩
          all_goals rw [modify_self]
          · exact hs.allocated
          · exact hs.pid
          · exact hs.state
          · exact hs.code
        · exact hs.congr (modify_ne _ _ hj)
      · exact hs
  · rcases wakeWaiter_inv hstep with ⟨-, rfl⟩ | ⟨-, k1, hw, -⟩
    · exact hs
    · exact hs.woken hw

theorem Ended.modifyRef (h : Ended i pid code k) {ref : PcbRef} (hne : ref ≠ .slot i)
    (f : Pcb → Pcb) (vmm : Vmm) :
    Ended i pid code (({ k with vmm } : Kernel).modifyRef f ref) := by
  cases ref with
  | idle => exact h.congr rfl
  | slot j => exact h.congr (modify_ne _ _ fun he => hne (congrArg PcbRef.slot he.symm))

theorem Ended.enterUser (h : Ended i pid code k) {ref : PcbRef} (hne : ref ≠ .slot i) :
    Ended i pid code (processEnterUserRef ref k) := by
  rcases enterUserRef_cases k ref with ⟨-, he⟩ | ⟨vmm, he⟩
  · rwa [he]
  · rw [he]
    exact Ended.modifyRef (k := { k with current := ref }) (h.congr rfl) hne _ vmm

end

/-! ## One step -/

def KernelOp.byKernel : KernelOp → Bool
  | .timerTick _ _ | .blockCurrent _ _ | .pollTimeouts | .timerIrq => true
  | _ => false

def OsOp.byKernel : OsOp → Bool
  | .kernel op _ => op.byKernel
  | _ => false

def ByOthers (i : Nat) (o : Os) (op : OsOp) : Prop := op.byKernel = true ∨ o.kernel.current ≠ .slot i

def LeftAlone (i : Nat) (pid code : Word) (o : Os) (op : OsOp) : Prop :=
  Ended i pid code o.kernel → ByOthers i o op

def OsOp.Overwrites (pid code : Word) : OsOp → Prop
  | .kernel (.exitWithStatus target status) _ => target = pid ∧ status ≠ code
  | .kernel (.sendSignal target signal) _ => target = pid ∧ signal = 9 ∧ 128 + 9 ≠ code
  | _ => False

/-- `process_wait`, called by the parent, takes the process out of the table and reports `code`. -/
def Reaped (i : Nat) (pid code : Word) (o : Os) (op : OsOp) (o' : Os) : Prop :=
  ∃ status h, op = .kernel (.wait pid status) h ∧
    (o.kernel.processes i).parentPid = (o.kernel.pcb o.kernel.current).pid ∧
    processWait pid status o.kernel = .ok (pid, o'.kernel) ∧ (o'.kernel.processes i).allocated = false ∧
    (status ≠ 0 → ∃ vmm, o.kernel.vmm.kernelStore32 status code = .ok vmm ∧
      o'.kernel.vmm = ((o.kernel.processes i).addressSpace.map (vmmDestroyAddressSpace vmm)).getD vmm)

section

variable {o o' : Os} {i : Nat} {pid code : Word}

theorem Reaped.freed {op : OsOp} (h : Reaped i pid code o op o') :
    (o'.kernel.processes i).allocated = false := by
  obtain ⟨status, hr, -, -, -, hfree, -⟩ := h
  exact hfree

theorem wait_reaps (h : Ended i pid code o.kernel) {status rc : Word}
    {hr : (KernelOp.wait pid status).readsFile = false}
    (hfind : findPid o.kernel pid (fun p => p.parentPid == (o.kernel.pcb o.kernel.current).pid) = some i)
    (hwait : processWait pid status o.kernel = .ok (rc, o'.kernel)) :
    Reaped i pid code o (.kernel (.wait pid status) hr) o' := by
  have hcall := hwait
  rcases wait_inv hwait with ⟨hnone, -⟩ | ⟨j, hj, ⟨-, rfl, vmm, hstore, he⟩ | ⟨hlive, -⟩⟩
  · cases hnone.symm.trans hfind
  · obtain rfl : j = i := Option.some.inj (hj.symm.trans hfind)
    obtain ⟨-, -, hparent⟩ := findPid_some hfind
    refine ⟨status, hr, rfl, by simpa using hparent, hcall, ?_, fun hs => ⟨vmm, ?_, ?_⟩⟩
    · rw [he, modify_self]
    · rwa [if_neg hs, h.code] at hstore
    · rw [he]
      rfl
  · obtain rfl : j = i := Option.some.inj (hj.symm.trans hfind)
    exact absurd h.state hlive

theorem wait_ended (h : Ended i pid code o.kernel) {child status rc : Word}
    {hr : (KernelOp.wait child status).readsFile = false} (hne : o.kernel.current ≠ .slot i)
    (hwait : processWait child status o.kernel = .ok (rc, o'.kernel)) :
    Ended i pid code o'.kernel ∨ Reaped i pid code o (.kernel (.wait child status) hr) o' := by
  by_cases hfind :
    findPid o.kernel child (fun p => p.parentPid == (o.kernel.pcb o.kernel.current).pid) = some i
  · obtain ⟨-, hp, -⟩ := findPid_some hfind
    obtain rfl : child = pid := hp.symm.trans h.pid
    exact .inr (wait_reaps h hfind hwait)
  refine .inl ?_
  rcases wait_inv hwait with ⟨-, -, he⟩ | ⟨j, hj, ⟨-, -, vmm, -, he⟩ | ⟨-, -, he⟩⟩
  · rw [he]
    exact h
  · have hij : i ≠ j := by
      rintro rfl
      exact hfind hj
    rw [he]
    exact h.congr (modify_ne _ _ hij)
  · rw [he]
    exact h.modifyRef hne _ _

theorem kernelOp_ended {op : KernelOp} {hr : op.readsFile = false} {s' : System} (ht : TableInv o.kernel)
    (h : Ended i pid code o.kernel) (hby : ByOthers i o (.kernel op hr))
    (hs : kernelStep (System.boot o.kernel) op = some s') (he : o'.kernel = s'.kernel) :
    (OsOp.kernel op hr).Overwrites pid code ∧ (∃ status ≠ code, Ended i pid status o'.kernel) ∨
    ¬(OsOp.kernel op hr).Overwrites pid code ∧
    (Ended i pid code o'.kernel ∨ Reaped i pid code o (.kernel op hr) o') := by
  -- aimed at this process, an exit sets the code that it carries
  have hexit : ∀ {target status : Word} {rc : Int},
      processExitWithStatus target status o.kernel = .ok (rc, s'.kernel) →
      (target = pid ∧ status ≠ code) ∧ (∃ status ≠ code, Ended i pid status s'.kernel) ∨
      ¬(target = pid ∧ status ≠ code) ∧ Ended i pid code s'.kernel := by
    intro target status rc hend
    by_cases htarget : target = pid
    · subst htarget
      have hfound := exit_ends ((findPid_eq_some ht).mpr ⟨⟨h.allocated, h.pid⟩, rfl⟩) hend
      by_cases hcode : status = code
      · subst hcode
        exact .inr ⟨fun hn => hn.2 rfl, hfound⟩
      · exact .inl ⟨⟨rfl, hcode⟩, status, hcode, hfound⟩
    · exact .inr ⟨fun hn => htarget hn.1, h.steps (exit_steps hend) fun hp => htarget hp.symm⟩
  rw [he]
  cases op with
  | createEntry | createThread | createUser | createFromPath | fork =>
    obtain ⟨res, hf, rfl⟩ := kernelStep_creates rfl hs
    refine .inr ⟨id, .inl ?_⟩
    cases hf with
    | creation hc => exact h.creation hc
    | ended hj ha hend =>
      refine (h.claimed hj).steps (exit_steps hend) fun hp => ?_
      have h1 := h.claimed hj
      obtain rfl := (ht.created hj).slot_unique h1.allocated ha (h1.pid.trans hp)
      exact absurd (h.allocated.symm.trans hj.free) (by decide)
  | add j =>
    obtain ⟨-, rc, hadd, -⟩ := add_inv hs
    exact .inr ⟨id, .inl (h.quiet (schedulerAdd_relinks hadd).quiet)⟩
  | timerTick r registers =>
    obtain ⟨⟨f, htick⟩, -⟩ := after_map_inv hs
    have hframe : Ended i pid code (o.kernel.setFrame (.stack r) registers) := h.congr rfl
    exact .inr
      ⟨id, .inl (hframe.quiet (tick_quiet (k := o.kernel.setFrame _ _) ht.ticks ht.idleTicks htick))⟩
  | blockCurrent r registers =>
    obtain ⟨⟨f, hblock⟩, -⟩ := after_map_inv hs
    have hframe : Ended i pid code (o.kernel.setFrame (.stack r) registers) := h.congr rfl
    exact .inr ⟨id, .inl (hframe.quiet (block_quiet hblock))⟩
  | exitWithStatus target status =>
    obtain ⟨⟨rc, hend⟩, -⟩ := after_map_inv hs
    exact (hexit hend).imp_right (And.imp_right .inl)
  | wait child status =>
    obtain ⟨⟨rc, hwait⟩, -⟩ := after_map_inv hs
    have hne := hby.resolve_left (by simp [OsOp.byKernel, KernelOp.byKernel])
    rw [← he] at hwait ⊢
    exact .inr ⟨id, wait_ended h hne hwait⟩
  | sendSignal target signal =>
    obtain ⟨⟨rc, hsignal⟩, -⟩ := after_map_inv hs
    by_cases h9 : signal = 9
    · subst h9
      rw [signal_nine] at hsignal
      simpa only [OsOp.Overwrites, true_and] using (hexit hsignal).imp_right (And.imp_right .inl)
    · exact .inr ⟨fun hn => h9 hn.2.1, .inl (h.quiet (signal_quiet h9 hsignal))⟩
  | futexWait key expected timeout =>
    obtain ⟨⟨rc, hwait⟩, -⟩ := after_map_inv hs
    have hne := hby.resolve_left (by simp [OsOp.byKernel, KernelOp.byKernel])
    refine .inr ⟨id, .inl ?_⟩
    rcases futexWait_inv hwait with ⟨-, vmm, hk⟩ | ⟨-, vmm, deadline, hk⟩
    · rw [hk]
      exact h.congr rfl
    · rw [hk]
      exact h.modifyRef hne _ _
  | futexWake key count =>
    obtain ⟨⟨rc, hwake⟩, -⟩ := after_map_inv hs
    exact .inr ⟨id, .inl (h.quiet (futexWake_quiet hwake))⟩
  | pollTimeouts => exact .inr ⟨id, .inl (h.quiet (poll_quiet (after_inv hs).1))⟩
  | timerIrq =>
    obtain ⟨hk, -⟩ : (.ok (timerIrq o.kernel) : Except Halt Kernel) = .ok s'.kernel ∧ _ := after_inv hs
    rw [← Except.ok.inj hk]
    exact .inr ⟨id, .inl (h.congr rfl)⟩
  | memory call =>
    obtain ⟨vmm, -, rfl⟩ := memory_inv hs
    exact .inr ⟨id, .inl (h.congr rfl)⟩

theorem osStep_ended {op : OsOp} (ht : TableInv o.kernel) (h : Ended i pid code o.kernel)
    (hby : ByOthers i o op) (hs : osStep o op = some o') :
    op.Overwrites pid code ∧ (∃ status ≠ code, Ended i pid status o'.kernel) ∨
    ¬op.Overwrites pid code ∧ (Ended i pid code o'.kernel ∨ Reaped i pid code o op o') := by
  cases op with
  | kernel op hr =>
    obtain ⟨s', hstep, rfl⟩ := Option.map_eq_some_iff.mp hs
    exact kernelOp_ended ht h hby hstep rfl
  | createFromFile disk path =>
    obtain ⟨-, vmm, j, hc⟩ := osStep_file hs
    exact .inr ⟨id, .inl (Ended.creation (k := { o.kernel with vmm }) (h.congr rfl) hc)⟩
  | exec disk a =>
    have hne := hby.resolve_left (by simp [OsOp.byKernel])
    obtain ⟨⟨rc, o1⟩, hexec, rfl⟩ := Option.map_eq_some_iff.mp hs
    refine .inr ⟨id, .inl ?_⟩
    rcases ee_cases (toOption_eq_some hexec) with ⟨-, ⟨vmm, he⟩, -⟩ | ⟨-, space, entry, -, vmm, he⟩
    · rw [he]
      exact h.congr rfl
    · rw [he]
      exact h.modifyRef hne _ _
  | execPath disk path =>
    have hne := hby.resolve_left (by simp [OsOp.byKernel])
    obtain ⟨⟨rc, o1⟩, hexec, rfl⟩ := Option.map_eq_some_iff.mp hs
    refine .inr ⟨id, .inl ?_⟩
    rcases execPath_cases (toOption_eq_some hexec) with ⟨-, ⟨vmm, he⟩ | ⟨space, entry, vmm, he⟩⟩
    · rw [he]
      exact h.congr rfl
    · rw [he]
      exact (h.modifyRef hne _ _).enterUser hne
  | yield cpu =>
    obtain ⟨⟨loaded, k⟩, hyield, rfl⟩ := Option.map_eq_some_iff.mp hs
    exact .inr ⟨id, .inl (h.quiet (yield_quiet (toOption_eq_some hyield)))⟩
  | enter user j =>
    obtain ⟨-, hz, rfl | ⟨vmm, -, rfl⟩⟩ := osStep_enter hs
    · exact .inr ⟨id, .inl h⟩
    · have hij : i ≠ j := by
        rintro rfl
        exact hz h.state
      have hsame : (o.kernel.entered vmm j).processes i = o.kernel.processes i := modify_ne _ _ hij
      exact .inr ⟨id, .inl (h.congr hsame)⟩

end

/-! ## Until the parent waits -/

/-- In every state of the run up to the parent's `process_wait`, the process is a zombie with
`code`, and the parent is told `code`. -/
def Final (i : Nat) (pid code : Word) : Os → List OsOp → Prop
  | o, [] => Ended i pid code o.kernel
  | o, op :: ops => Ended i pid code o.kernel ∧
    ∀ o', osStep o op = some o' → Reaped i pid code o op o' ∨ Final i pid code o' ops

theorem Final.ended {i : Nat} {pid code : Word} {o : Os} {ops : List OsOp} (h : Final i pid code o ops) :
    Ended i pid code o.kernel := by
  cases ops with
  | nil => exact h
  | cons op ops => exact h.1

def Spared (i : Nat) (pid code : Word) : Os → List OsOp → Prop
  | _, [] => True
  | o, op :: ops => ∀ o', osStep o op = some o' →
    ¬op.Overwrites pid code ∧ ((o'.kernel.processes i).allocated = true → Spared i pid code o' ops)

/-- Whatever other processes do, a status is final exactly if no exit and no signal 9 is aimed at
the zombie with another status. -/
theorem exit_status_final_iff {o0 o : Os} (h0 : o0.kernel.Booted) {before : List OsOp}
    (hbefore : runs osStep o0 before = some o) {i : Nat} {pid code : Word}
    (hz : Ended i pid code o.kernel) (ops : List OsOp)
    (hby : Along (LeftAlone i pid code) osStep o ops) :
    Final i pid code o ops ↔ Spared i pid code o ops := by
  have ht := osRun_table h0 hbefore
  clear h0 hbefore
  induction ops generalizing o with
  | nil => exact iff_of_true hz trivial
  | cons op ops ih =>
    obtain ⟨hop, hrest⟩ := hby
    constructor
    · rintro ⟨-, hfinal⟩ o' hstep
      rcases osStep_ended ht hz (hop hz) hstep with ⟨-, status, hne, hend⟩ | ⟨hspared, hkept⟩
      · rcases hfinal o' hstep with hreaped | hfinal'
        · exact absurd hend.allocated (by simp [hreaped.freed])
        · exact absurd (hend.code.symm.trans hfinal'.ended.code) hne
      · refine ⟨hspared, fun ha => ?_⟩
        rcases hfinal o' hstep with hreaped | hfinal'
        · exact absurd ha (by simp [hreaped.freed])
        · exact (ih hfinal'.ended (hrest o' hstep) (osStep_table ht hstep)).mp hfinal'
    · intro hspared
      refine ⟨hz, fun o' hstep => ?_⟩
      obtain ⟨hop', htail⟩ := hspared o' hstep
      rcases osStep_ended ht hz (hop hz) hstep with ⟨hover, -⟩ | ⟨-, hend | hreaped⟩
      · exact absurd hover hop'
      · exact .inr ((ih hend (hrest o' hstep) (osStep_table ht hstep)).mpr (htail hend.allocated))
      · exact .inl hreaped

def endedRun : List OsOp :=
  [.createEntry 0x1000, .add 0, .timerTick 0x9000 zeroRegisters, .createThread 0x2000, .add 1,
    .exitWithStatus 258 5]

def waitedRun : List OsOp := [.sendSignal 258 15, .wait 258 0]

def notSecond (o : Os) (_ : OsOp) : Bool := o.kernel.current ≠ .slot 1

theorem leftAlone_of_notSecond {pid code : Word} (o : Os) (op : OsOp) (h : notSecond o op = true) :
    LeftAlone 1 pid code o op := fun _ => .inr (of_decide_eq_true h)

theorem endedRun_ended (ops : List OsOp)
    (hops : ((runs osStep coldOs endedRun).map fun o => alongCheck notSecond osStep o ops) = some true) :
    ∃ o, runs osStep coldOs endedRun = some o ∧ Ended 1 258 5 o.kernel ∧
    Along (LeftAlone 1 258 5) osStep o ops := by
  have hend :
      ((runs osStep coldOs endedRun).map fun o =>
        ((o.kernel.processes 1).allocated, (o.kernel.processes 1).pid,
      (o.kernel.processes 1).state, (o.kernel.processes 1).exitCode)) = some (true, 258, .zombie, 5) := by
    decide +kernel
  obtain ⟨o, ho, he⟩ := Option.map_eq_some_iff.mp hend
  rw [ho] at hops
  simp only [Prod.mk.injEq] at he
  exact ⟨o, ho, ⟨he.1, he.2.1, he.2.2.1, he.2.2.2⟩,
    along_of_check leftAlone_of_notSecond (Option.some.inj hops)⟩

theorem exit_status_final_iff_waitedRun :
    ∃ o, runs osStep coldOs endedRun = some o ∧ Ended 1 258 5 o.kernel ∧
    Along (LeftAlone 1 258 5) osStep o waitedRun ∧ Final 1 258 5 o waitedRun := by
  obtain ⟨o, ho, hz, hby⟩ := endedRun_ended waitedRun (by decide +kernel)
  refine ⟨o, ho, hz, hby,
    (exit_status_final_iff coldOs_booted.kernel ho hz waitedRun hby).mpr fun o1 _ => ⟨?_, ?_⟩⟩
  · exact fun hover => absurd hover.2.1 (by decide)
  · exact fun _ o2 _ => ⟨id, fun _ => trivial⟩

/-- A signal 9 reaches the zombie, whose status is 137 from then on. -/
theorem zombie_killed_again : ∃ o, runs osStep coldOs endedRun = some o ∧ Ended 1 258 5 o.kernel ∧
    Along (LeftAlone 1 258 5) osStep o [.kernel (.sendSignal 258 9) rfl] ∧
    ¬Final 1 258 5 o [.kernel (.sendSignal 258 9) rfl] := by
  obtain ⟨o, ho, hz, hby⟩ := endedRun_ended [.kernel (.sendSignal 258 9) rfl] (by decide +kernel)
  refine ⟨o, ho, hz, hby, fun hfinal => ?_⟩
  have hkill :
      ((runs osStep coldOs endedRun).bind fun o =>
        (osStep o (.kernel (.sendSignal 258 9) rfl)).map fun o' =>
      (o'.kernel.processes 1).exitCode) = some 137 := by
    decide +kernel
  rw [ho] at hkill
  obtain ⟨o', hstep, hcode⟩ := Option.map_eq_some_iff.mp hkill
  rcases hfinal.2 o' hstep with ⟨status, hr, hop, -⟩ | hend
  · cases hop
  · exact absurd (hcode.symm.trans hend.ended.code) (by decide)

end Ceblar
