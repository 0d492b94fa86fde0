import Ceblar.Kernel.Create

/-! # One process runs at a time

A process in state RUNNING is the current one, after every step of every run. -/

namespace Ceblar

/-- All entry points, in any order. A process may be added here more than once. -/
inductive SchedOp where
  | op (o : KernelOp)
  | yield (cpu : CalleeSaved)
  | setCurrent (i : Nat)
  | enterUser (i : Nat)

def schedStep (k : Kernel) : SchedOp → Option Kernel
  | .op o => (kernelStep { kernel := k, added := fun _ => false } o).map System.kernel
  | .yield cpu => (schedulerYield cpu k).toOption.map Prod.snd
  | .setCurrent i => if k.mayEnter i then some (schedulerSetCurrent i k) else none
  | .enterUser i => if k.mayEnter i then some (processEnterUser i k) else none

/-! ## Steps that start nobody -/

def RunsAsCurrent (k : Kernel) : Prop := ∀ i, (k.processes i).state = .running → k.current = .slot i

structure Calm (k k' : Kernel) : Prop where
  state : ∀ i, (k'.processes i).state = .running → (k.processes i).state = .running
  current : k'.current = k.current

section

variable {k k1 k' : Kernel} {i : Nat} {ref : PcbRef} {rc : Int} {r : FramePtr}
variable {f : Pcb → Pcb} {key pid : Word} {res : Option Nat × Kernel}

theorem Calm.refl (k : Kernel) : Calm k k := ⟨fun _ => id, rfl⟩

theorem Calm.trans (h1 : Calm k k1) (h2 : Calm k1 k') : Calm k k' :=
  ⟨fun i hi => h1.state i (h2.state i hi), h2.current.trans h1.current⟩

theorem RunsAsCurrent.calm (h : RunsAsCurrent k) (hc : Calm k k') : RunsAsCurrent k' :=
  fun i hi => hc.current.trans (h i (hc.state i hi))

theorem calm_of_eq (hp : k'.processes = k.processes) (hc : k'.current = k.current) : Calm k k' :=
  ⟨fun _ hi => hp ▸ hi, hc⟩

theorem calm_vmm (k : Kernel) (m : Vmm) : Calm k { k with vmm := m } := calm_of_eq rfl rfl

theorem calm_modify (hf : (f (k.processes i)).state = .running → (k.processes i).state = .running) :
    Calm k (k.modify i f) := by
  refine ⟨fun j hj => ?_, rfl⟩
  by_cases hij : j = i
  · subst hij
    rw [modify_self] at hj
    exact hf hj
  · rwa [modify_ne _ _ hij] at hj

theorem calm_modifyRef (hf : ∀ p, (f p).state = .running → p.state = .running) :
    Calm k (k.modifyRef f ref) := by
  refine ⟨fun j hj => ?_, modifyRef_current _ _ _⟩
  rcases modifyRef_processes k f ref j with he | he
  · rwa [he] at hj
  · rw [he] at hj
    exact hf _ hj

theorem Relinks.calm (h : Relinks k k') : Calm k k' := by
  obtain ⟨n, h, rfl⟩ := h
  exact ⟨fun _ => id, rfl⟩

theorem Woken.calm (h : Woken i k k1) : Calm k k1 := by
  refine ⟨fun j hj => ?_, h.current⟩
  by_cases hij : j = i
  · subst hij
    rw [h.ready] at hj
    cases hj
  · rwa [h.others j hij] at hj

theorem WokenAndAdded.calm (h : WokenAndAdded i k k1 k') : Calm k k' := by
  obtain ⟨hw, rc, hadd⟩ := h
  exact hw.calm.trans (schedulerAdd_relinks hadd).calm

theorem Claimed.calm (h : Claimed k i k') : Calm k k' := by
  refine ⟨fun j hj => ?_, h.current⟩
  by_cases hij : j = i
  · subst hij
    rw [h.state] at hj
    cases hj
  · rwa [h.others j hij] at hj

theorem calm_rule (k : Kernel) : WakeRule (Calm k) where
  wake h hw := h.trans hw.calm
  zombie _ _ h := h.trans (calm_modify fun hs => by cases hs)
  orphan _ h := h.trans (calm_modify id)
  pending _ _ h := h.trans (calm_modify id)

theorem exit_calm {status : Word} (h : processExitWithStatus pid status k = .ok (rc, k')) :
    Calm k k' := (calm_rule k).exit (Calm.refl k) h

theorem signal_calm {signal : Word} (h : processSendSignal pid signal k = .ok (rc, k')) :
    Calm k k' := (calm_rule k).signal (Calm.refl k) h

theorem futexWake_calm {count : Word} (h : processFutexWake key count k = .ok (rc, k')) :
    Calm k k' := (calm_rule k).futexWake (Calm.refl k) h

theorem wait_calm {child status rc : Word} (h : processWait child status k = .ok (rc, k')) :
    Calm k k' := by
  rcases wait_inv h with ⟨-, -, rfl⟩ | ⟨i, -, ⟨-, -, vmm, -, rfl⟩ | ⟨-, -, rfl⟩⟩
  · exact Calm.refl _
  · refine (calm_vmm k _).trans (calm_modify ?_)
    exact fun hs => by cases hs
  · refine calm_modifyRef ?_
    exact fun p hs => by cases hs

theorem futexWait_calm {expected timeout : Word}
    (h : processFutexWait key expected timeout k = .ok (rc, k')) : Calm k k' := by
  rcases futexWait_inv h with ⟨-, vmm, rfl⟩ | ⟨-, vmm, deadline, rfl⟩
  · exact calm_vmm k vmm
  · refine (calm_vmm k vmm).trans (calm_modifyRef ?_)
    exact fun p hs => by cases hs

theorem Creation.calm (h : Creation k res) : Calm k res.2 := by
  cases h with
  | refused vmm => exact calm_vmm k vmm
  | failed hj => exact hj.calm
  | made hj ha => exact hj.calm

theorem Forked.calm (h : Forked k res) : Calm k res.2 := by
  cases h with
  | creation hc => exact hc.calm
  | ended hj ha hexit => exact hj.calm.trans (exit_calm hexit)

/-! ## Switches -/

theorem poll_running (h : RunsAsCurrent k) (hpoll : processPollTimeouts k = .ok k') :
    RunsAsCurrent k' := by
  refine forRangeE_ok (fun _ s => RunsAsCurrent s) h (fun i _ s s' hs hstep => ?_) hpoll
  rcases pollSlot_inv hstep with ⟨-, rfl⟩ | ⟨-, hc, rfl⟩ | ⟨-, -, k1, hw, -⟩
  · exact hs
  · -- the process that polls was itself blocked, and goes on
    intro j hj
    by_cases hij : j = i
    · rw [hij]
      exact hc
    · rw [modify_ne _ _ hij] at hj
      exact hs j hj
  · exact hs.calm hw.calm

def NoneRuns (k : Kernel) : Prop := ∀ i, (k.processes i).state ≠ .running

theorem NoneRuns.calm (h : NoneRuns k) (hc : Calm k k') : NoneRuns k' := fun i hi => h i (hc.state i hi)

theorem NoneRuns.asCurrent (h : NoneRuns k) : RunsAsCurrent k := fun i hi => absurd hi (h i)

theorem requeue_noneRuns (h : RunsAsCurrent k) (href : ref = k.current) (hr : requeue ref k = .ok k') :
    NoneRuns k' := by
  unfold requeue at hr
  split at hr
  · cases hr
    intro i hi
    have := h i hi
    rw [← href] at this
    cases this
  · rename_i c
    have hothers : ∀ i, i ≠ c → (k.processes i).state ≠ .running := by
      intro i hi hrun
      have := h i hrun
      rw [← href] at this
      cases this
      exact hi rfl
    split at hr
    · refine NoneRuns.calm (fun i hi => ?_) (enqueue_relinks hr).calm
      by_cases hic : i = c
      · subst hic
        rw [modify_self] at hi
        cases hi
      · rw [modify_ne _ _ hic] at hi
        exact hothers i hic hi
    · rename_i hc
      cases hr
      intro i hi
      by_cases hic : i = c
      · exact hc (hic ▸ hi)
      · exact hothers i hic hi

theorem activate_running (h : NoneRuns k) (i : Nat) : RunsAsCurrent (activate i k) := by
  intro j hj
  by_cases hij : j = i
  · rw [hij]
    rfl
  · rw [activate_ne k hij] at hj
    exact absurd hj (h j)

theorem activateRef_running (h : NoneRuns k) (ref : PcbRef) : RunsAsCurrent (activateRef ref k) := by
  cases ref with
  | idle => exact fun j hj => absurd hj (h j)
  | slot i => exact activate_running h i

theorem settle_running (h : ∀ i, (k.processes i).state = .running → ref = .slot i) :
    RunsAsCurrent (settle ref k) := by
  intro i hi
  have href := h i hi
  unfold settle
  dsimp only
  rw [href]
  exact if_pos hi

theorem restart_only (h : NoneRuns k) :
    ∀ i, ((k.modifyRef (fun p => { p with state := .running }) ref).processes i).state = .running →
    ref = .slot i := by
  intro i hi
  cases ref with
  | idle => exact absurd hi (h i)
  | slot c =>
    by_cases hic : i = c
    · rw [hic]
    · rw [modifyRef_ne k _ hic] at hi
      exact absurd hi (h i)

theorem tick_running {f : FramePtr} (h : RunsAsCurrent k) (ht : schedulerTimerTick r k = .ok (f, k')) :
    RunsAsCurrent k' := by
  obtain ⟨k1, hpoll, ⟨-, -, rfl⟩ | ⟨k2, n, k3, hreq, hnext, hend⟩⟩ := tick_cases ht
  · refine (poll_running h hpoll).calm (calm_modifyRef ?_)
    exact fun p => id
  · have hstamp : RunsAsCurrent (stamp r k1) := by
      refine (poll_running h hpoll).calm (calm_modifyRef ?_)
      exact fun p => id
    have hnone : NoneRuns k3 :=
      (requeue_noneRuns hstamp (modifyRef_current _ _ _).symm hreq).calm (nextReady_relinks hnext).calm
    cases hend with
    | again => exact hnone.asCurrent
    | none hne =>
      refine settle_running fun i hi => ?_
      unfold restore at hi
      split at hi
      · exact restart_only hnone i hi
      · exact absurd hi (hnone i)
    | other hne => exact activate_running hnone _

theorem suspend_noneRuns (h : RunsAsCurrent k) : NoneRuns (suspend r k) := by
  intro i hi
  unfold suspend at hi
  cases hc : k.current with
  | idle =>
    rw [hc] at hi
    have := h i hi
    rw [hc] at this
    cases this
  | slot c =>
    rw [hc] at hi
    by_cases hic : i = c
    · subst hic
      simp only [Kernel.modifyRef, modify_self] at hi
      split at hi
      · cases hi
      · rename_i hn
        exact hn hi
    · simp only [Kernel.modifyRef, modify_ne _ _ hic] at hi
      have := h i hi
      rw [hc] at this
      cases this
      exact hic rfl

theorem block_running {f : FramePtr} (h : RunsAsCurrent k)
    (hb : schedulerBlockCurrent r k = .ok (f, k')) :
    RunsAsCurrent k' := by
  obtain ⟨n, k2, hnext, hend⟩ := block_inv hb
  have hnone : NoneRuns k2 := (suspend_noneRuns h).calm (nextReady_relinks hnext).calm
  cases hend with
  | none k1 hk1 =>
    refine settle_running fun i hi => ?_
    rw [hk1] at hi
    split at hi
    · exact restart_only hnone i hi
    · exact absurd hi (hnone i)
  | other i => exact activate_running hnone i

theorem yield_running {cpu : CalleeSaved} {loaded : Option CalleeSaved} (h : RunsAsCurrent k)
    (hy : schedulerYield cpu k = .ok (loaded, k')) : RunsAsCurrent k' := by
  obtain ⟨k2, n, k3, hreq, hnext, hend⟩ := yield_inv hy
  have hticks : RunsAsCurrent (k.modifyRef (fun p => { p with ticks := 0 }) k.current) := by
    refine h.calm (calm_modifyRef ?_)
    exact fun p => id
  have hnone : NoneRuns k3 :=
    (requeue_noneRuns hticks (modifyRef_current _ _ _).symm hreq).calm (nextReady_relinks hnext).calm
  cases hend with
  | again => exact hnone.asCurrent
  | other hne k1 hk1 =>
    rw [hk1]
    refine (activateRef_running hnone n).calm (calm_modifyRef ?_)
    exact fun p => id

theorem setCurrent_running {i : Nat} (h : RunsAsCurrent k) (hm : k.mayEnter i = true) :
    RunsAsCurrent (schedulerSetCurrent i k) := by
  intro j hj
  by_cases hij : j = i
  · rw [hij]
    rfl
  · have hne : (schedulerSetCurrent i k).processes j = k.processes j := modify_ne _ _ hij
    rw [hne] at hj
    have hcur := h j hj
    unfold Kernel.mayEnter at hm
    simp only [decide_eq_true_eq] at hm
    rcases hm with hm | hm
    · rw [hm] at hcur
      cases hcur
      exact absurd rfl hij
    · rw [hm] at hcur
      cases hcur

theorem enterUser_running {i : Nat} (h : RunsAsCurrent k) (hm : k.mayEnter i = true) :
    RunsAsCurrent (processEnterUser i k) := by
  unfold processEnterUser
  split
  · exact h
  · have hset := setCurrent_running h hm
    refine (hset.calm (calm_vmm _ _)).calm (calm_modify fun _ => ?_)
    have hself : (schedulerSetCurrent i k).processes i =
        { k.processes i with state := .running, interruptFrame := none } := modify_self _ _ _
    change ((schedulerSetCurrent i k).processes i).state = .running
    rw [hself]

end

/-! ## Over a run -/

structure OneRunning (k : Kernel) : Prop where
  unique : ∀ i j, (k.processes i).state = .running → (k.processes j).state = .running → i = j
  current : ∀ i, (k.processes i).state = .running → k.current = .slot i

theorem kernelStep_running {s s' : System} {op : KernelOp} (h : RunsAsCurrent s.kernel)
    (hs : kernelStep s op = some s') : RunsAsCurrent s'.kernel := by
  cases op with
  | createEntry | createThread | createUser | createFromPath | fork =>
    obtain ⟨res, hf, rfl⟩ := kernelStep_creates rfl hs
    exact h.calm hf.calm
  | add i =>
    obtain ⟨-, rc, hadd, -⟩ := add_inv hs
    exact h.calm (schedulerAdd_relinks hadd).calm
  | timerTick r registers =>
    obtain ⟨⟨f, ht⟩, -⟩ := after_map_inv hs
    refine tick_running (h.calm ?_) ht
    exact calm_of_eq rfl rfl
  | blockCurrent r registers =>
    obtain ⟨⟨f, hb⟩, -⟩ := after_map_inv hs
    refine block_running (h.calm ?_) hb
    exact calm_of_eq rfl rfl
  | exitWithStatus pid status =>
    obtain ⟨⟨rc, he⟩, -⟩ := after_map_inv hs
    exact h.calm (exit_calm he)
  | wait child status =>
    obtain ⟨⟨rc, hw⟩, -⟩ := after_map_inv hs
    exact h.calm (wait_calm hw)
  | sendSignal pid signal =>
    obtain ⟨⟨rc, hsig⟩, -⟩ := after_map_inv hs
    exact h.calm (signal_calm hsig)
  | futexWait key expected timeout =>
    obtain ⟨⟨rc, hw⟩, -⟩ := after_map_inv hs
    exact h.calm (futexWait_calm hw)
  | futexWake key count =>
    obtain ⟨⟨rc, hw⟩, -⟩ := after_map_inv hs
    exact h.calm (futexWake_calm hw)
  | pollTimeouts => exact poll_running h (after_inv hs).1
  | timerIrq =>
    obtain ⟨he, -⟩ : (.ok (timerIrq s.kernel) : Except Halt Kernel) = .ok s'.kernel ∧ _ := after_inv hs
    rw [← Except.ok.inj he]
    exact h.calm (calm_of_eq rfl rfl)
  | memory call =>
    obtain ⟨vmm, -, rfl⟩ := memory_inv hs
    exact h

theorem toOption_map_snd {α : Type} {x : Except Halt (α × Kernel)} {k : Kernel}
    (h : x.toOption.map Prod.snd = some k) : ∃ a, x = .ok (a, k) := by
  cases x with
  | error e => cases h
  | ok r =>
    obtain ⟨a, k1⟩ := r
    cases h
    exact ⟨a, rfl⟩

theorem schedStep_running {k k' : Kernel} {op : SchedOp} (h : RunsAsCurrent k)
    (hs : schedStep k op = some k') :
    RunsAsCurrent k' := by
  cases op with
  | op o =>
    obtain ⟨s, hstep, rfl⟩ := Option.map_eq_some_iff.mp hs
    have hstart : RunsAsCurrent (System.kernel { kernel := k, added := fun _ => false }) := h
    exact kernelStep_running hstart hstep
  | yield cpu =>
    obtain ⟨a, hy⟩ := toOption_map_snd hs
    exact yield_running h hy
  | setCurrent i =>
    dsimp only [schedStep] at hs
    split at hs
    · rename_i hm
      cases hs
      exact setCurrent_running h hm
    · cases hs
  | enterUser i =>
    dsimp only [schedStep] at hs
    split at hs
    · rename_i hm
      cases hs
      exact enterUser_running h hm
    · cases hs

theorem one_runs_at_a_time {k k' : Kernel} (h0 : k.Booted) {ops : List SchedOp}
    (hrun : runs schedStep k ops = some k') : OneRunning k' := by
  have hboot : RunsAsCurrent k := by
    intro i hi
    rw [h0.state i] at hi
    cases hi
  have h : RunsAsCurrent k' :=
    runs_inv RunsAsCurrent (fun _ _ _ h hs => schedStep_running h hs) hboot hrun
  refine ⟨fun i j hi hj => ?_, h⟩
  have heq := (h i hi).symm.trans (h j hj)
  cases heq
  rfl

def turnsRun : List SchedOp :=
  [.op (.createEntry 0x100000), .op (.add 0), .op (.createEntry 0x100000), .op (.add 1),
    .op (.timerTick 0x9000 zeroRegisters), .op (.timerTick 0x9000 zeroRegisters),
    .yield ⟨0x110000, 0, 0, 0, 0⟩, .op (.blockCurrent 0x9000 zeroRegisters), .setCurrent 1]

theorem one_runs_at_a_time_turnsRun : ∃ k, runs schedStep coldKernel turnsRun = some k ∧
    (k.processes 1).state = .running ∧ OneRunning k := by
  have hend : ((runs schedStep coldKernel turnsRun).map fun k => (k.processes 1).state) =
      some .running := by
    decide +kernel
  obtain ⟨k, hrun, hstate⟩ := Option.map_eq_some_iff.mp hend
  exact ⟨k, hrun, hstate, one_runs_at_a_time coldKernel_booted hrun⟩

end Ceblar
