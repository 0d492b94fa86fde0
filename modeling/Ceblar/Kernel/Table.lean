import Ceblar.Scheduler.Run

/-! # The process table over runs

What the operations leave alone in the table, and what holds of it in every state of a run.
-/

namespace Ceblar

/-! ## What a step may do to a process -/

structure Pcb.Step (ends : Word → Prop) (p p' : Pcb) : Prop where
  pid : p'.pid = p.pid
  allocated : p'.allocated = p.allocated
  generation : p'.generation = p.generation
  ticks : p.ticks = 0 → p'.ticks = 0
  parent : p'.parentPid = p.parentPid ∨ ends p.parentPid ∧ p'.parentPid = 0
  waits : p'.waitForPid = p.waitForPid ∨ ends p.waitForPid ∧ p'.waitForPid = 0
  code : p'.exitCode = p.exitCode ∨ ends p.pid
  stays : p.state = .zombie → p'.state = .zombie
  dies : p'.state = .zombie → p.state = .zombie ∨ ends p.pid

structure Steps (ends : Word → Prop) (k k' : Kernel) : Prop where
  pcb : ∀ i, (k.processes i).Step ends (k'.processes i)
  count : k'.processCount = k.processCount
  idlePid : k'.idle.pid = k.idle.pid
  idleTicks : k.idle.ticks = 0 → k'.idle.ticks = 0
  /-- Whoever runs now did before or was taken from the table. -/
  current : ∀ i, k'.current = .slot i → k.current = .slot i ∨ (k.processes i).allocated = true

abbrev Quiet (k k' : Kernel) : Prop := Steps (fun _ => False) k k'

section

variable {ends : Word → Prop} {k k1 k2 k' : Kernel} {i : Nat}

theorem Pcb.Step.refl (p : Pcb) : p.Step ends p :=
  ⟨rfl, rfl, rfl, id, .inl rfl, .inl rfl, .inl rfl, id, .inl⟩

theorem Pcb.Step.trans {p p1 p2 : Pcb} (h1 : p.Step ends p1) (h2 : p1.Step ends p2) : p.Step ends p2 where
  pid := h2.pid.trans h1.pid
  allocated := h2.allocated.trans h1.allocated
  generation := h2.generation.trans h1.generation
  ticks h := h2.ticks (h1.ticks h)
  parent := by
    rcases h1.parent with e1 | ⟨d1, z1⟩
    · rw [← e1]
      exact h2.parent
    · refine .inr ⟨d1, ?_⟩
      rcases h2.parent with e2 | ⟨-, z2⟩
      · rw [e2, z1]
      · exact z2
  waits := by
    rcases h1.waits with e1 | ⟨d1, z1⟩
    · rw [← e1]
      exact h2.waits
    · refine .inr ⟨d1, ?_⟩
      rcases h2.waits with e2 | ⟨-, z2⟩
      · rw [e2, z1]
      · exact z2
  code := by
    rcases h1.code with e1 | d1
    · rw [← e1, ← h1.pid]
      exact h2.code
    · exact .inr d1
  stays h := h2.stays (h1.stays h)
  dies h := by
    rcases h2.dies h with hz | hd
    · exact h1.dies hz
    · exact .inr (h1.pid ▸ hd)

theorem Steps.refl (k : Kernel) : Steps ends k k :=
  ⟨fun _ => Pcb.Step.refl _, rfl, rfl, id, fun _ => .inl⟩

theorem Steps.trans (h1 : Steps ends k k1) (h2 : Steps ends k1 k2) : Steps ends k k2 where
  pcb i := (h1.pcb i).trans (h2.pcb i)
  count := h2.count.trans h1.count
  idlePid := h2.idlePid.trans h1.idlePid
  idleTicks h := h2.idleTicks (h1.idleTicks h)
  current i h := by
    rcases h2.current i h with h | h
    · exact h1.current i h
    · exact .inr ((h1.pcb i).allocated ▸ h)

theorem Quiet.steps (h : Quiet k k') : Steps ends k k' where
  pcb i :=
    { pid := (h.pcb i).pid
      allocated := (h.pcb i).allocated
      generation := (h.pcb i).generation
      ticks := (h.pcb i).ticks
      parent := (h.pcb i).parent.imp_right fun hf => hf.1.elim
      waits := (h.pcb i).waits.imp_right fun hf => hf.1.elim
      code := (h.pcb i).code.imp_right False.elim
      stays := (h.pcb i).stays
      dies := fun hz => ((h.pcb i).dies hz).imp_right False.elim }
  count := h.count
  idlePid := h.idlePid
  idleTicks := h.idleTicks
  current := h.current

theorem steps_modify {f : Pcb → Pcb} (h : (k.processes i).Step ends (f (k.processes i))) :
    Steps ends k (k.modify i f) where
  pcb j := by
    by_cases hj : j = i
    · subst hj
      rw [modify_self]
      exact h
    · rw [modify_ne _ _ hj]
      exact Pcb.Step.refl _
  count := rfl
  idlePid := rfl
  idleTicks := id
  current _ := .inl

theorem Relinks.quiet (h : Relinks k k') : Quiet k k' := by
  obtain ⟨n, h, rfl⟩ := h
  exact ⟨fun i => ⟨rfl, rfl, rfl, id, .inl rfl, .inl rfl, .inl rfl, id, .inl⟩, rfl, rfl, id,
    fun _ => .inl⟩

theorem steps_of_eq (hp : k'.processes = k.processes) (hn : k'.processCount = k.processCount)
    (hi : k'.idle = k.idle) (hc : k'.current = k.current) : Steps ends k k' where
  pcb i := by
    rw [hp]
    exact Pcb.Step.refl _
  count := hn
  idlePid := by rw [hi]
  idleTicks := by
    rw [hi]
    exact id
  current i h := .inl (hc ▸ h)

theorem steps_vmm (k : Kernel) (m : Vmm) : Steps ends k { k with vmm := m } := steps_of_eq rfl rfl rfl rfl

theorem Pcb.Step.of_eq {p p' : Pcb} (hpid : p'.pid = p.pid) (ha : p'.allocated = p.allocated)
    (hg : p'.generation = p.generation) (ht : p'.ticks = p.ticks)
    (hparent : p'.parentPid = p.parentPid) (hw : p'.waitForPid = p.waitForPid)
    (hcode : p'.exitCode = p.exitCode) (hs : p'.state = .zombie ↔ p.state = .zombie) :
    p.Step ends p' :=
  ⟨hpid, ha, hg, fun h => ht.trans h, .inl hparent, .inl hw, .inl hcode, hs.mpr, fun h => .inl (hs.mp h)⟩

end

section

variable {ends : Word → Prop} {k k' : Kernel} {i : Nat}

theorem nextReadyLoop_runnable {fuel : Nat} (h : nextReadyLoop fuel k = .ok (.slot i, k')) :
    (k.sched.slots i).Runnable := by
  induction fuel generalizing k with
  | zero => simp [nextReadyLoop] at h
  | succ fuel ih =>
    unfold nextReadyLoop at h
    split at h
    · cases h
    · rename_i x _
      have hpop := (relinks_head k (k.processes x).next).trans (relinks_setNext _ x none)
      dsimp only at h
      split at h
      · rename_i hx
        cases h
        exact (relink_runnable hpop i).mp hx
      · exact (relink_runnable hpop i).mp (ih h)

theorem nextReady_relinks {n : PcbRef} (h : nextReady k = .ok (n, k')) :
    Relinks k k' := nextReadyLoop_relinks h

theorem steps_activate (h : (k.sched.slots i).Runnable) : Steps ends k (activate i k) := by
  obtain ⟨ha, hs⟩ := h
  have hstate : (k.processes i).state = .ready := hs
  have hstep : Steps ends k (k.modify i fun p => { p with state := .running }) :=
    steps_modify (.of_eq rfl rfl rfl rfl rfl rfl rfl (by simp [hstate]))
  refine ⟨hstep.pcb, rfl, rfl, id, fun j hj => .inr ?_⟩
  cases hj
  exact ha

theorem steps_modifyRef {f : Pcb → Pcb} {ref : PcbRef} (hf : ∀ p : Pcb, p.Step ends (f p)) :
    Steps ends k (k.modifyRef f ref) := by
  cases ref with
  | idle => exact ⟨fun j => Pcb.Step.refl _, rfl, (hf _).pid, (hf _).ticks, fun _ => .inl⟩
  | slot i => exact steps_modify (hf _)

theorem requeue_steps {ref : PcbRef} (h : requeue ref k = .ok k') : Steps ends k k' := by
  unfold requeue at h
  split at h
  · cases h
    exact Steps.refl k
  · split at h
    · rename_i hs
      refine .trans (steps_modify (.of_eq rfl rfl rfl rfl rfl rfl rfl (by simp [hs])))
        (enqueue_relinks h).quiet.steps
    · cases h
      exact Steps.refl k

end

/-! ## Waking a process -/

structure Woken (i : Nat) (k k1 : Kernel) : Prop where
  blocked : (k.processes i).state = .blocked
  ready : (k1.processes i).state = .ready
  pid : (k1.processes i).pid = (k.processes i).pid
  allocated : (k1.processes i).allocated = (k.processes i).allocated
  generation : (k1.processes i).generation = (k.processes i).generation
  ticks : (k1.processes i).ticks = (k.processes i).ticks
  parent : (k1.processes i).parentPid = (k.processes i).parentPid
  code : (k1.processes i).exitCode = (k.processes i).exitCode
  next : (k1.processes i).next = (k.processes i).next
  cpu : (k1.processes i).cpuState = (k.processes i).cpuState
  space : (k1.processes i).addressSpace = (k.processes i).addressSpace
  others : ∀ j, j ≠ i → k1.processes j = k.processes j
  count : k1.processCount = k.processCount
  idle : k1.idle = k.idle
  current : k1.current = k.current
  readyHead : k1.readyHead = k.readyHead

section

variable {ends : Word → Prop} {k k1 k' : Kernel} {i : Nat}
variable {key pid : Word} {rc : Int} {P : Kernel → Prop}

theorem woken_modify {f : Pcb → Pcb} (hs :
      (k.processes i).state = .blocked) (hf : ∀ p, (f p).state = .ready)
    (hsame : ∀ p, (f p).pid = p.pid ∧ (f p).allocated = p.allocated ∧
      (f p).generation = p.generation ∧ (f p).ticks = p.ticks ∧
      (f p).parentPid = p.parentPid ∧ (f p).exitCode = p.exitCode ∧ (f p).next = p.next ∧
      (f p).cpuState = p.cpuState ∧ (f p).addressSpace = p.addressSpace) : Woken i k (k.modify i f) := by
  obtain ⟨h1, h2, h3, h4, h5, h6, h7, h8, h9⟩ := hsame (k.processes i)
  refine ⟨hs, ?_, ?_, ?_, ?_, ?_, ?_, ?_, ?_, ?_, ?_, fun j hj => modify_ne _ _ hj, rfl, rfl, rfl, rfl⟩
  all_goals rw [modify_self]
  · exact hf _
  all_goals assumption

theorem Woken.congr (h : Woken i k k1) (hp : k'.processes = k1.processes)
    (hn : k'.processCount = k1.processCount) (hi : k'.idle = k1.idle) (hc : k'.current = k1.current)
    (hr : k'.readyHead = k1.readyHead) : Woken i k k' := by
  constructor
  case others =>
    intro j hj
    rw [hp]
    exact h.others j hj
  case blocked => exact h.blocked
  case count => exact hn.trans h.count
  case idle => exact hi.trans h.idle
  case current => exact hc.trans h.current
  case readyHead => exact hr.trans h.readyHead
  all_goals rw [hp]
  · exact h.ready
  · exact h.pid
  · exact h.allocated
  · exact h.generation
  · exact h.ticks
  · exact h.parent
  · exact h.code
  · exact h.next
  · exact h.cpu
  · exact h.space

theorem Woken.setEax (h : Woken i k k1) (p : Option FramePtr) (v : Word) : Woken i k (k1.setEax p v) := by
  unfold Kernel.setEax
  split
  · exact h
  · exact h.congr rfl rfl rfl rfl rfl

@[simp] theorem setEax_processes (k : Kernel) (p : Option FramePtr) (v : Word) :
    (k.setEax p v).processes = k.processes := by
  unfold Kernel.setEax
  split
  · rfl
  · rfl

@[simp] theorem setEax_vmm (k : Kernel) (p : Option FramePtr) (v : Word) :
    (k.setEax p v).vmm = k.vmm := by
  unfold Kernel.setEax
  split
  · rfl
  · rfl

theorem Woken.sched (h : Woken i k k1) : k1.sched = k.sched.setState i .ready := by
  have hslots : ∀ j, (k1.processes j).slot = Function.update k.sched.slots i
      { k.sched.slots i with state := .ready } j := by
    intro j
    by_cases hj : j = i
    · subst hj
      simp [Pcb.slot, Kernel.sched, h.ready, h.allocated, h.next, h.cpu]
    · simp [hj, h.others j hj, Kernel.sched]
  simp only [Kernel.sched, Sched.setState, Sched.set, h.current, h.readyHead, Sched.mk.injEq, and_true]
  exact funext hslots

theorem Woken.steps (h : Woken i k k1) (hw : (k1.processes i).waitForPid = (k.processes i).waitForPid ∨
    ends (k.processes i).waitForPid ∧ (k1.processes i).waitForPid = 0) : Steps ends k k1 where
  pcb j := by
    by_cases hj : j = i
    · subst hj
      exact ⟨h.pid, h.allocated, h.generation, fun ht => h.ticks.trans ht, .inl h.parent, hw, .inl h.code,
        fun hz => by simp [h.blocked] at hz, fun hz => by simp [h.ready] at hz⟩
    · rw [h.others j hj]
      exact Pcb.Step.refl _
  count := h.count
  idlePid := by rw [h.idle]
  idleTicks := by
    rw [h.idle]
    exact id
  current j hj := .inl (h.current ▸ hj)

def WokenAndAdded (i : Nat) (k k1 k' : Kernel) : Prop :=
  Woken i k k1 ∧ ∃ rc, schedulerAdd i k1 = .ok (rc, k')

theorem WokenAndAdded.steps (h : WokenAndAdded i k k1 k')
    (hw : (k1.processes i).waitForPid = (k.processes i).waitForPid ∨
      ends (k.processes i).waitForPid ∧ (k1.processes i).waitForPid = 0) : Steps ends k k' := by
  obtain ⟨hwoken, rc, hadd⟩ := h
  exact (hwoken.steps hw).trans (schedulerAdd_relinks hadd).quiet.steps

theorem pollSlot_inv {now : Word} (h : pollSlot now i k = .ok k') :
    (k.processes i).due now = false ∧ k' = k ∨
    (k.processes i).due now = true ∧ k.current = .slot i ∧
      k' = k.modify i (fun p =>
        { p with futexKey := 0, futexExpected := 0, futexDeadline := 0, state := .running }) ∨
    (k.processes i).due now = true ∧ k.current ≠ .slot i ∧
      ∃ k1, WokenAndAdded i k k1 k' ∧
      (k1.processes i).waitForPid = (k.processes i).waitForPid ∧ k1.vmm = k.vmm := by
  unfold pollSlot at h
  cases hd : (k.processes i).due now with
  | false =>
    rw [hd] at h
    cases h
    exact .inl ⟨rfl, rfl⟩
  | true =>
    have hs : (k.processes i).state = .blocked := by
      unfold Pcb.due at hd
      simp only [Bool.and_eq_true, beq_iff_eq] at hd
      exact hd.1.1.1.2
    rw [hd, if_pos rfl] at h
    dsimp only at h
    split at h
    · rename_i hc
      cases h
      exact .inr (.inl ⟨rfl, hc, modify_modify _ _ _ _⟩)
    · rename_i hc
      obtain ⟨⟨rc, k2⟩, hadd, hk⟩ := bind_eq_ok.mp h
      cases hk
      refine .inr (.inr ⟨rfl, hc, _, ⟨?_, rc, hadd⟩, ?_, ?_⟩)
      · refine Woken.setEax ?_ _ _
        rw [modify_modify]
        exact woken_modify hs (fun p => rfl) fun p => ⟨rfl, rfl, rfl, rfl, rfl, rfl, rfl, rfl, rfl⟩
      · rw [setEax_processes]
        simp
      · rw [setEax_vmm]
        rfl

theorem wakeFutex_inv {count : Word} {w w' : Nat} (h : wakeFutex key count i (w, k) = .ok (w', k')) :
    ¬((count = 0 ∨ w < count.toNat) ∧ (k.processes i).state = .blocked ∧ (k.processes i).futexKey = key) ∧
      w' = w ∧ k' = k ∨
    ((count = 0 ∨ w < count.toNat) ∧ (k.processes i).state = .blocked ∧
      (k.processes i).futexKey = key) ∧ w' = w + 1 ∧
      ∃ k1, WokenAndAdded i k k1 k' ∧ (k1.processes i).waitForPid = (k.processes i).waitForPid := by
  unfold wakeFutex at h
  dsimp only at h
  split at h
  · rename_i hc
    obtain ⟨⟨rc, k2⟩, hadd, hk⟩ := bind_eq_ok.mp h
    cases hk
    refine .inr ⟨hc, rfl, _, ⟨?_, rc, hadd⟩, ?_⟩
    · refine Woken.setEax (woken_modify hc.2.1 ?_ ?_) _ _
      · exact fun p => rfl
      · exact fun p => ⟨rfl, rfl, rfl, rfl, rfl, rfl, rfl, rfl, rfl⟩
    · rw [setEax_processes]
      simp
  · rename_i hc
    cases h
    exact .inl ⟨hc, rfl, rfl⟩

theorem wakeWaiter_inv {j : Nat} (h : wakeWaiter i pid j k = .ok k') :
    (k.processes j).waitsFor pid = false ∧ k' = k ∨
    (k.processes j).waitsFor pid = true ∧ ∃ k1, WokenAndAdded j k k1 k' ∧
    (k1.processes j).waitForPid = 0 ∧
      (k1.processes j).waitStatus = (k.processes i).exitCode ∧
      k1.frames = (k.setEax (k.processes j).interruptFrame pid).frames := by
  unfold wakeWaiter at h
  cases hd : (k.processes j).waitsFor pid with
  | false =>
    rw [hd] at h
    cases h
    exact .inl ⟨rfl, rfl⟩
  | true =>
    have hs : (k.processes j).state = .blocked := by
      unfold Pcb.waitsFor at hd
      simp only [Bool.and_eq_true, beq_iff_eq] at hd
      exact hd.1.2
    rw [hd, if_pos rfl] at h
    dsimp only at h
    generalize hk2 : k.modify j _ = k2 at h
    have hwoken : Woken j k k2 := by
      rw [← hk2]
      refine woken_modify hs ?_ ?_
      · exact fun p => rfl
      · exact fun p => ⟨rfl, rfl, rfl, rfl, rfl, rfl, rfl, rfl, rfl⟩
    have hpcb : (k2.processes j).waitForPid = 0 ∧ (k2.processes j).waitStatus = (k.processes i).exitCode ∧
        (k2.processes j).interruptFrame = (k.processes j).interruptFrame := by
      rw [← hk2, modify_self]
      exact ⟨rfl, rfl, rfl⟩
    obtain ⟨vmm, h⟩ :
      ∃ vmm, schedulerAdd j (({ k2 with vmm } : Kernel).setEax (k2.processes j).interruptFrame pid) >>=
        (fun x => pure x.2) = .ok k' := by
      split at h
      · exact ⟨_, h⟩
      · obtain ⟨vmm, -, h⟩ := bind_eq_ok.mp h
        exact ⟨vmm, h⟩
    obtain ⟨⟨rc, k3⟩, hadd, hk⟩ := bind_eq_ok.mp h
    cases hk
    refine .inr ⟨rfl, _, ⟨?_, rc, hadd⟩, ?_, ?_, ?_⟩
    · refine Woken.setEax ?_ _ _
      exact hwoken.congr rfl rfl rfl rfl rfl
    · rw [setEax_processes]
      exact hpcb.1
    · rw [setEax_processes]
      exact hpcb.2.1
    · rw [hpcb.2.2, ← hk2]
      unfold Kernel.setEax
      split
      · rfl
      · rfl

theorem signal_inv {signal : Word} (hne : signal ≠ 9)
    (h : processSendSignal pid signal k = .ok (rc, k')) :
    k' = k ∨ ∃ i pending, k' = k.modify i (fun p => { p with pendingSignals := pending }) ∨
      ∃ k1 k2, k1 = k.modify i (fun p => { p with pendingSignals := pending }) ∧
      WokenAndAdded i k1 k2 k' ∧
        (k2.processes i).waitForPid = (k.processes i).waitForPid := by
  unfold processSendSignal at h
  split at h
  · cases h
    exact .inl rfl
  · split at h
    · cases h
      exact .inl rfl
    · rename_i i hi
      refine .inr ⟨i, (k.processes i).pendingSignals ||| 1 <<< signal.toNat, ?_⟩
      have hk1 : k.modify i
          (fun p => { p with pendingSignals := p.pendingSignals ||| 1 <<< signal.toNat }) =
          k.modify i fun p =>
            { p with pendingSignals := (k.processes i).pendingSignals ||| 1 <<< signal.toNat } := rfl
      dsimp only at h
      rw [hk1] at h
      generalize hk2 : k.modify i _ = k1 at h
      split at h
      · rename_i hs
        obtain ⟨⟨rc', k2⟩, hadd, hk⟩ := bind_eq_ok.mp h
        cases hk
        refine .inr ⟨k1, _, rfl, ⟨woken_modify hs ?_ ?_, rc', hadd⟩, ?_⟩
        · exact fun p => rfl
        · exact fun p => ⟨rfl, rfl, rfl, rfl, rfl, rfl, rfl, rfl, rfl⟩
        · rw [modify_self, ← hk2, modify_self]
      · cases h
        exact .inl rfl

theorem signal_nine (pid : Word) (k : Kernel) :
    processSendSignal pid 9 k = processExitWithStatus pid (128 + 9) k := by
  unfold processSendSignal
  rw [if_neg (by decide), if_pos rfl]

structure WakeRule (P : Kernel → Prop) : Prop where
  wake : ∀ {i : Nat} {k k1 k' : Kernel}, P k → WokenAndAdded i k k1 k' → P k'
  zombie : ∀ {k : Kernel} (i : Nat) (status : Word), P k →
    P (k.modify i fun p => { p with state := .zombie, exitCode := status })
  orphan : ∀ {k : Kernel} (i : Nat), P k → P (k.modify i fun p => { p with parentPid := 0 })
  pending : ∀ {k : Kernel} (i : Nat) (signals : Word), P k →
    P (k.modify i fun p => { p with pendingSignals := signals })

theorem WakeRule.futexWake (hP : WakeRule P) {count : Word} (h0 : P k)
    (h : processFutexWake key count k = .ok (rc, k')) : P k' := by
  unfold processFutexWake at h
  split at h
  · cases h
    exact h0
  · obtain ⟨⟨w, k1⟩, hloop, hk⟩ := bind_eq_ok.mp h
    cases hk
    refine forRangeE_ok (fun _ (s : Nat × Kernel) => P s.2) h0 (fun i _ s s' hs hstep => ?_) hloop
    rcases wakeFutex_inv hstep with ⟨-, -, he⟩ | ⟨-, -, k1, hw, -⟩
    · rwa [he]
    · exact hP.wake hs hw

theorem WakeRule.exit (hP : WakeRule P) {status : Word} (h0 : P k)
    (h : processExitWithStatus pid status k = .ok (rc, k')) : P k' := by
  unfold processExitWithStatus at h
  split at h
  · cases h
    exact h0
  · rename_i i _
    obtain ⟨k1, hloop, hk⟩ := bind_eq_ok.mp h
    cases hk
    refine forRangeE_ok (fun _ s => P s) ?_ (fun j _ s s' hs hstep => ?_) hloop
    · refine forRange_inv (fun _ s => P s) _ (hP.zombie i status h0) fun j _ s hs => ?_
      dsimp only
      split
      · exact hP.orphan j hs
      · exact hs
    · rcases wakeWaiter_inv hstep with ⟨-, rfl⟩ | ⟨-, k1, hw, -⟩
      · exact hs
      · exact hP.wake hs hw

theorem WakeRule.signal (hP : WakeRule P) {signal : Word} (h0 : P k)
    (h : processSendSignal pid signal k = .ok (rc, k')) : P k' := by
  by_cases h9 : signal = 9
  · subst h9
    rw [signal_nine] at h
    exact hP.exit h0 h
  · rcases signal_inv h9 h with rfl | ⟨i, signals, rfl | ⟨k1, k2, rfl, hw, -⟩⟩
    · exact h0
    · exact hP.pending i signals h0
    · exact hP.wake (hP.pending i signals h0) hw

/-! ## What each operation may do -/

theorem poll_quiet (h : processPollTimeouts k = .ok k') : Quiet k k' := by
  refine forRangeE_ok (fun _ s => Quiet k s) (Steps.refl k) (fun i _ s s' hs hstep => hs.trans ?_) h
  rcases pollSlot_inv hstep with ⟨-, rfl⟩ | ⟨hd, -, rfl⟩ | ⟨-, -, k1, hw, he, -⟩
  · exact Steps.refl _
  · refine steps_modify (.of_eq rfl rfl rfl rfl rfl rfl rfl ?_)
    unfold Pcb.due at hd
    simp only [Bool.and_eq_true, beq_iff_eq] at hd
    simp [hd.1.1.1.2]
  · exact hw.steps (.inl he)

theorem futexWake_quiet {count : Word} (h : processFutexWake key count k = .ok (rc, k')) :
    Quiet k k' := by
  unfold processFutexWake at h
  split at h
  · cases h
    exact Steps.refl k
  · obtain ⟨⟨w, k1⟩, hloop, hk⟩ := bind_eq_ok.mp h
    cases hk
    refine forRangeE_ok (fun _ s => Quiet k s.2) (Steps.refl k)
      (fun i _ s s' hs hstep => hs.trans ?_) hloop
    rcases wakeFutex_inv hstep with ⟨-, -, he⟩ | ⟨-, -, k1, hw, he⟩
    · rw [he]
      exact Steps.refl s.2
    · exact hw.steps (.inl he)

theorem signal_quiet {signal : Word} (hne : signal ≠ 9)
    (h : processSendSignal pid signal k = .ok (rc, k')) : Quiet k k' := by
  have hpending : ∀ (i : Nat) (pending : Word),
      Quiet k (k.modify i fun p => { p with pendingSignals := pending }) :=
    fun i pending => steps_modify (.of_eq rfl rfl rfl rfl rfl rfl rfl Iff.rfl)
  rcases signal_inv hne h with rfl | ⟨i, pending, rfl | ⟨k1, k2, rfl, hw, he⟩⟩
  · exact Steps.refl _
  · exact hpending i pending
  · refine (hpending i pending).trans (hw.steps (.inl ?_))
    rw [he, modify_self]

theorem orphan_steps (pid : Word) (k : Kernel) : Steps (· = pid) k (orphanZombies pid k) := by
  refine forRange_inv (fun _ s => Steps (· = pid) k s) _ (Steps.refl k) fun j _ s hs => hs.trans ?_
  dsimp only
  split
  · rename_i hj
    simp only [Bool.and_eq_true, beq_iff_eq] at hj
    exact steps_modify ⟨rfl, rfl, rfl, id, .inr ⟨hj.1.2, rfl⟩, .inl rfl, .inl rfl, id, .inl⟩
  · exact Steps.refl s

theorem exit_steps {status : Word} (h : processExitWithStatus pid status k = .ok (rc, k')) :
    Steps (· = pid) k k' := by
  unfold processExitWithStatus at h
  split at h
  · cases h
    exact Steps.refl k
  · rename_i i hi
    have hpid : (k.processes i).pid = pid := by
      have := List.find?_some hi
      simp only [Bool.and_true, Bool.and_eq_true, beq_iff_eq] at this
      exact this.2
    obtain ⟨k1, hloop, hk⟩ := bind_eq_ok.mp h
    cases hk
    have hzombie :
        Steps (· = pid) k (k.modify i fun p => { p with state := .zombie, exitCode := status }) :=
      steps_modify ⟨rfl, rfl, rfl, id, .inl rfl, .inl rfl, .inr hpid, fun _ => rfl, fun _ => .inr hpid⟩
    refine hzombie.trans ((orphan_steps pid _).trans ?_)
    refine forRangeE_ok (fun _ s => Steps (· = pid) _ s) (Steps.refl _)
      (fun j _ s s' hs hstep => hs.trans ?_) hloop
    rcases wakeWaiter_inv hstep with ⟨-, rfl⟩ | ⟨hd, k1, hw, he, -⟩
    · exact Steps.refl _
    · refine hw.steps (.inr ⟨?_, he⟩)
      unfold Pcb.waitsFor at hd
      simp only [Bool.and_eq_true, beq_iff_eq] at hd
      exact hd.2

theorem signal_steps {signal : Word} (h : processSendSignal pid signal k = .ok (rc, k')) :
    Steps (fun p => signal = 9 ∧ p = pid) k k' := by
  by_cases h9 : signal = 9
  · subst h9
    rw [signal_nine] at h
    simpa using exit_steps h
  · exact (signal_quiet h9 h).steps

theorem settle_steps (h : Steps ends k k') : Steps ends k (settle k.current k') := by
  refine ⟨h.pcb, h.count, h.idlePid, h.idleTicks, fun i hi => .inl ?_⟩
  unfold settle at hi
  dsimp only at hi
  split at hi
  · exact hi
  · cases hi

theorem restart_steps {ref : PcbRef} (hr : (k.pcb ref).state ≠ .zombie) :
    Steps ends k (k.modifyRef (fun p => { p with state := .running }) ref) := by
  cases ref with
  | idle => exact ⟨fun j => Pcb.Step.refl _, rfl, rfl, id, fun _ => .inl⟩
  | slot i =>
    have hs : (k.processes i).state ≠ .zombie := hr
    unfold Kernel.modifyRef
    refine steps_modify (.of_eq rfl rfl rfl rfl rfl rfl rfl ?_)
    simp [hs]

theorem poll_ticks (ht : ∀ i, (k.processes i).ticks = 0) (hidle : k.idle.ticks = 0)
    (hpoll : processPollTimeouts k = .ok k') : (k'.pcb k'.current).ticks = 0 := by
  cases hc : k'.current with
  | idle => exact (poll_quiet hpoll).idleTicks hidle
  | slot i => exact ((poll_quiet hpoll).pcb i).ticks (ht i)

theorem tick_quiet {r f : FramePtr} (ht : ∀ i, (k.processes i).ticks = 0) (hidle : k.idle.ticks = 0)
    (h : schedulerTimerTick r k = .ok (f, k')) : Quiet k k' := by
  obtain ⟨k1, k2, n, k3, hpoll, hreq, hnext, hend⟩ := tick_inv (fun _ => poll_ticks ht hidle) h
  refine (poll_quiet hpoll).trans ?_
  have hstamp : Quiet k1 (stamp r k1) :=
    steps_modifyRef fun p => ⟨rfl, rfl, rfl, fun _ => rfl, .inl rfl, .inl rfl, .inl rfl, id, .inl⟩
  have h3 : Quiet k1 k3 := (hstamp.trans (requeue_steps hreq)).trans (nextReady_relinks hnext).quiet
  cases hend with
  | again => exact h3
  | none hne =>
    refine settle_steps (h3.trans ?_)
    unfold restore
    split
    · rename_i hr
      exact restart_steps (by simp [hr.2])
    · exact Steps.refl k3
  | other hne =>
    have hrun := (relink_runnable (nextReady_relinks hnext) _).mpr (nextReadyLoop_runnable hnext)
    exact h3.trans (steps_activate hrun)

theorem block_quiet {r f : FramePtr} (h : schedulerBlockCurrent r k = .ok (f, k')) : Quiet k k' := by
  obtain ⟨n, k2, hnext, hend⟩ := block_inv h
  have hsuspend : Quiet k (suspend r k) := by
    refine steps_modifyRef fun p => .of_eq rfl rfl rfl rfl rfl rfl rfl ?_
    dsimp only
    split
    · rename_i hs
      simp [hs]
    · exact Iff.rfl
  have h2 : Quiet k k2 := hsuspend.trans (nextReady_relinks hnext).quiet
  cases hend with
  | none k1 hk1 =>
    refine settle_steps (h2.trans ?_)
    rw [hk1]
    split
    · rename_i hr
      exact restart_steps hr.2.2
    · exact Steps.refl k2
  | other i =>
    have hrun := (relink_runnable (nextReady_relinks hnext) _).mpr (nextReadyLoop_runnable hnext)
    exact h2.trans (steps_activate hrun)

theorem steps_activateRef {n : PcbRef} (h : ∀ i, n = .slot i → (k.sched.slots i).Runnable) :
    Quiet k (activateRef n k) := by
  cases n with
  | idle => exact ⟨fun _ => Pcb.Step.refl _, rfl, rfl, id, fun i hi => by cases hi⟩
  | slot i => exact steps_activate (h i rfl)

theorem yield_quiet {cpu : CalleeSaved} {loaded : Option CalleeSaved}
    (h : schedulerYield cpu k = .ok (loaded, k')) :
    Quiet k k' := by
  obtain ⟨k2, n, k3, hreq, hnext, hend⟩ := yield_inv h
  have hstamp : Quiet k (k.modifyRef (fun p => { p with ticks := 0 }) k.current) :=
    steps_modifyRef fun p => ⟨rfl, rfl, rfl, fun _ => rfl, .inl rfl, .inl rfl, .inl rfl, id, .inl⟩
  refine ((hstamp.trans (requeue_steps hreq)).trans (nextReady_relinks hnext).quiet).trans ?_
  cases hend with
  | again => exact Steps.refl _
  | other hne k1 h1 =>
    rw [h1]
    refine Steps.trans (steps_activateRef ?_) (steps_modifyRef ?_)
    · rintro i rfl
      exact (relink_runnable (nextReady_relinks hnext) _).mpr (nextReadyLoop_runnable hnext)
    · exact fun p => .of_eq rfl rfl rfl rfl rfl rfl rfl Iff.rfl

theorem wait_inv {child status rc : Word} (h : processWait child status k = .ok (rc, k')) :
    (findPid k child (fun p => p.parentPid == (k.pcb k.current).pid) = none ∧ rc = -1 ∧ k' = k) ∨
    ∃ i, findPid k child (fun p => p.parentPid == (k.pcb k.current).pid) = some i ∧
      ((k.processes i).state = .zombie ∧ rc = child ∧
        (∃ vmm, (if status = 0 then pure k.vmm else k.vmm.kernelStore32 status
          (k.processes i).exitCode) = .ok vmm ∧ k' = ({ k with
                  vmm := ((k.processes i).addressSpace.map (vmmDestroyAddressSpace vmm)).getD vmm } :
            Kernel).modify i fun p =>
              { p with
                addressSpace := none
                parentPid := 0
                state := .ready
                next := none
                interruptFrame := none
                allocated := false }) ∨
      (k.processes i).state ≠ .zombie ∧ rc = 0 ∧ k' = k.modifyRef
        (fun p => { p with waitForPid := child, waitStatusPtr := status, state := .blocked })
          k.current) := by
  unfold processWait at h
  dsimp only at h
  split at h
  · rename_i hf
    cases h
    exact .inl ⟨hf, rfl, rfl⟩
  · rename_i i hf
    refine .inr ⟨i, hf, ?_⟩
    split at h
    · rename_i hz
      refine .inl ⟨hz, ?_⟩
      split at h
      · rename_i h0
        cases h
        exact ⟨rfl, k.vmm, by rw [if_pos h0]; rfl, rfl⟩
      · rename_i h0
        obtain ⟨vmm, hstore, hk⟩ := bind_eq_ok.mp h
        cases hk
        exact ⟨rfl, vmm, by rw [if_neg h0]; exact hstore, rfl⟩
    · rename_i hz
      cases h
      exact .inr ⟨hz, rfl, rfl⟩

theorem futexWait_inv {expected timeout : Word}
    (h : processFutexWait key expected timeout k = .ok (rc, k')) :
    rc ≠ 0 ∧ (∃ vmm, k' = { k with vmm }) ∨
    rc = 0 ∧ ∃ vmm deadline, k' = ({ k with vmm } : Kernel).modifyRef
      (fun p =>
        { p with futexKey := key, futexExpected := expected, futexDeadline := deadline, state := .blocked })
      k.current := by
  unfold processFutexWait at h
  split at h
  · cases h
    exact .inl ⟨by decide, k.vmm, rfl⟩
  · split at h
    · cases h
      exact .inl ⟨by decide, k.vmm, rfl⟩
    · obtain ⟨⟨rc1, m1⟩, -, h⟩ := bind_eq_ok.mp h
      dsimp only at h
      split at h
      · cases h
        exact .inl ⟨by decide, m1, rfl⟩
      · obtain ⟨⟨w2, m2⟩, -, h⟩ := bind_eq_ok.mp h
        dsimp only at h
        split at h
        · cases h
          exact .inl ⟨by decide, m2, rfl⟩
        · obtain ⟨⟨w3, m3⟩, -, h⟩ := bind_eq_ok.mp h
          dsimp only at h
          split at h
          · cases h
            exact .inl ⟨by decide, m3, rfl⟩
          · cases h
            exact .inr ⟨rfl, m3, _, rfl⟩

end

end Ceblar
