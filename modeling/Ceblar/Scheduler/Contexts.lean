import Ceblar.Kernel.Create
import Ceblar.Kernel.Marks
import Ceblar.Scheduler.Reach

/-! # Saved contexts

A process can be resumed from `interrupt_frame` or from `cpu_state`.
-/

namespace Ceblar

structure Saved where
  frame : Option FramePtr
  cpu : CpuState
  userMode : Bool

def Pcb.saved (p : Pcb) : Saved where
  frame := p.interruptFrame
  cpu := p.cpuState
  userMode := p.userMode

section

variable {k k1 k' : Kernel} {i : Nat}

/-! ## Switches -/

structure KeepsSaved (k k' : Kernel) : Prop where
  saved : ∀ ref, (k'.pcb ref).saved = (k.pcb ref).saved
  allocated : ∀ i, (k'.processes i).allocated = (k.processes i).allocated

theorem KeepsSaved.refl (k : Kernel) : KeepsSaved k k := ⟨fun _ => rfl, fun _ => rfl⟩

theorem KeepsSaved.trans (h1 : KeepsSaved k k1) (h2 : KeepsSaved k1 k') : KeepsSaved k k' :=
  ⟨fun ref => (h2.saved ref).trans (h1.saved ref), fun i => (h2.allocated i).trans (h1.allocated i)⟩

theorem Marks.keepsSaved (h : Marks k k') : KeepsSaved k k' where
  saved
    | .idle => h.kept_idle fun _ _ => rfl
    | .slot i => h.kept (fun _ _ => rfl) i
  allocated := h.kept fun _ _ => rfl

theorem keepsSaved_settle (k : Kernel) (ref : PcbRef) : KeepsSaved k (settle ref k) :=
  ⟨fun | .idle => rfl | .slot _ => rfl, fun _ => rfl⟩

theorem keepsSaved_activateRef (k : Kernel) (ref : PcbRef) : KeepsSaved k (activateRef ref k) := by
  cases ref with
  | idle => exact ⟨fun | .idle => rfl | .slot _ => rfl, fun _ => rfl⟩
  | slot i =>
    have hrun := (marks_modify k i (f := fun p => { p with state := .running }) fun _ => rfl).keepsSaved
    exact ⟨fun | .idle => rfl | .slot j => hrun.saved (.slot j), hrun.allocated⟩

theorem restart_marks (k : Kernel) (ref : PcbRef) :
    Marks k (k.modifyRef (fun p => { p with state := .running }) ref) :=
  marks_modifyRef k ref fun _ => rfl

theorem restore_marks (k : Kernel) (ref : PcbRef) : Marks k (restore ref k) := by
  unfold restore
  split
  · exact restart_marks k ref
  · exact Marks.refl k

structure Suspends (g : Saved → Saved) (k k' : Kernel) : Prop where
  self : (k'.pcb k.current).saved = g (k.pcb k.current).saved
  others : ∀ ref, ref ≠ k.current → (k'.pcb ref).saved = (k.pcb ref).saved
  allocated : ∀ i, (k'.processes i).allocated = (k.processes i).allocated

theorem modifyRef_pcb_ne (k : Kernel) (f : Pcb → Pcb) {ref ref' : PcbRef} (h : ref' ≠ ref) :
    (k.modifyRef f ref).pcb ref' = k.pcb ref' := by
  cases ref with
  | idle =>
    cases ref' with
    | idle => exact absurd rfl h
    | slot j => rfl
  | slot i =>
    cases ref' with
    | idle => rfl
    | slot j => exact modify_ne k f fun he => h (by rw [he])

theorem KeepsSaved.suspends {f : Pcb → Pcb} {g : Saved → Saved} (h : KeepsSaved k k1)
    (hf : ∀ p : Pcb, (f p).saved = g p.saved) (ha : ∀ p : Pcb, (f p).allocated = p.allocated) :
    Suspends g k (k1.modifyRef f k.current) where
  self := by
    rw [modifyRef_pcb, hf, h.saved]
  others ref hne := by
    rw [modifyRef_pcb_ne _ f hne]
    exact h.saved ref
  allocated i := by
    rcases modifyRef_processes k1 f k.current i with he | he
    · rw [he]
      exact h.allocated i
    · rw [he, ha]
      exact h.allocated i

theorem Suspends.trans {g : Saved → Saved} (h1 : Suspends g k k1) (h2 : KeepsSaved k1 k') :
    Suspends g k k' where
  self := (h2.saved _).trans h1.self
  others ref hne := (h2.saved ref).trans (h1.others ref hne)
  allocated i := (h2.allocated i).trans (h1.allocated i)

theorem tick_suspends {r f : FramePtr} (h : schedulerTimerTick r k = .ok (f, k')) :
    Suspends (fun s => { s with frame := some r }) k k' := by
  obtain ⟨k1, hpoll, hend⟩ := tick_cases h
  have hpolled := (poll_marks hpoll).keepsSaved
  unfold stamp at hend
  rw [(poll_marks hpoll).current] at hend
  rcases hend with ⟨-, -, rfl⟩ | ⟨k2, n, k3, hreq, hnext, hend⟩
  · exact hpolled.suspends (fun _ => rfl) fun _ => rfl
  · have hlist := ((requeue_marks hreq).trans (nextReady_relinks hnext).marks).keepsSaved
    refine Suspends.trans (hpolled.suspends ?_ ?_) (hlist.trans ?_)
    · exact fun _ => rfl
    · exact fun _ => rfl
    cases hend with
    | again => exact KeepsSaved.refl _
    | none _ => exact (restore_marks _ _).keepsSaved.trans (keepsSaved_settle _ _)
    | @other i _ => exact keepsSaved_activateRef k3 (.slot i)

theorem block_suspends {r f : FramePtr} (h : schedulerBlockCurrent r k = .ok (f, k')) :
    Suspends (fun s => { s with frame := some r }) k k' := by
  obtain ⟨n, k2, hnext, hend⟩ := block_inv h
  have hsuspend : Suspends (fun s => { s with frame := some r }) k (suspend r k) :=
    (KeepsSaved.refl k).suspends (fun _ => rfl) fun _ => rfl
  refine hsuspend.trans ((nextReady_relinks hnext).marks.keepsSaved.trans ?_)
  cases hend with
  | none k1 hk1 =>
    refine KeepsSaved.trans ?_ (keepsSaved_settle _ _)
    rw [hk1]
    split
    · exact (restart_marks _ _).keepsSaved
    · exact KeepsSaved.refl _
  | other i => exact keepsSaved_activateRef k2 (.slot i)

theorem yield_suspends {cpu : CalleeSaved} {loaded : Option CalleeSaved}
    (h : schedulerYield cpu k = .ok (loaded, k')) :
    loaded = none ∧ Marks k k' ∨
    (∃ c, loaded = some c) ∧ Suspends (fun s => { s with cpu := s.cpu.save cpu }) k k' := by
  obtain ⟨k2, n, k3, hreq, hnext, hend⟩ := yield_inv h
  have hticks : Marks k (k.modifyRef (fun p => { p with ticks := 0 }) k.current) :=
    marks_modifyRef _ _ fun _ => rfl
  have hlist := hticks.trans ((requeue_marks hreq).trans (nextReady_relinks hnext).marks)
  cases hend with
  | again => exact .inl ⟨rfl, hlist⟩
  | other hne k1 h1 =>
    refine .inr ⟨⟨_, rfl⟩, ?_⟩
    rw [h1]
    exact (hlist.keepsSaved.trans (keepsSaved_activateRef k3 n)).suspends (fun _ => rfl) fun _ => rfl

/-! ## Who goes on -/

def Kernel.Requeues (k : Kernel) (c : Nat) : Prop :=
  (k.processes c).state = .running ∧ (k.processes c).allocated = true ∧ (k.processes c).cpuState.esp ≠ 0

theorem requeue_cases {ref : PcbRef} (h : requeue ref k = .ok k') :
    k' = k ∧ (∀ c, ref = .slot c → (k.processes c).state ≠ .running) ∨
    ∃ c, ref = .slot c ∧ (k'.processes c).state = .ready ∧ Readied c k k' ∧
    (k.Requeues c → k'.HasReady) := by
  unfold requeue at h
  split at h
  · cases h
    exact .inl ⟨rfl, nofun⟩
  next c =>
    split at h
    next hrun =>
      have hsched :
          (k.modify c fun p => { p with state := .ready }).sched = k.sched.setState c .ready :=
          sched_modify k c _
      have hself := modify_self k c fun p => { p with state := .ready }
      have hstate : (k'.processes c).state = .ready := by
        obtain ⟨n, head, hk⟩ := enqueue_relinks h
        rw [hk]
        exact congrArg Pcb.state hself
      refine .inr ⟨c, rfl, hstate, readied_enqueue hsched (.inl h), fun hq => ?_⟩
      have henq := enqueue_enqueued (by rw [hself]; exact hq.2.1) (by rw [hself]; nofun)
          (by rw [hself]; exact hq.2.2) h
      obtain ⟨u, -, hu⟩ := henq.leads
      refine ⟨c, ⟨u, hu⟩, (relink_runnable (enqueue_relinks h) c).mpr ?_⟩
      rw [hsched, setState_slots_eq]
      exact ⟨hq.2.1, rfl⟩
    next hrun =>
      cases h
      refine .inl ⟨rfl, ?_⟩
      rintro _ ⟨⟩
      exact hrun

theorem requeue_first {ref : PcbRef} (h : requeue ref k = .ok k') (hi : k'.First i)
    (hne : .slot i ≠ ref) : k.First i := by
  rcases requeue_cases h with ⟨rfl, -⟩ | ⟨c, rfl, -, hready, -⟩
  · exact hi
  · exact (hready.first hi).resolve_left fun he => hne (by rw [he])

theorem requeue_hasReady {ref : PcbRef} (h : requeue ref k = .ok k') (hr : k.HasReady) : k'.HasReady := by
  rcases requeue_cases h with ⟨rfl, -⟩ | ⟨c, rfl, -, hready, -⟩
  · exact hr
  · exact hready.hasReady hr

theorem suspend_sameList (r : FramePtr) (k : Kernel) : SameList k (suspend r k) := by
  unfold suspend
  cases k.current with
  | idle => exact sameList_of_sched rfl
  | slot c =>
    unfold Kernel.modifyRef
    refine sameList_modify ?_ ?_
    · by_cases hrun : (k.processes c).state = .running
      · simp [Slot.Runnable, Pcb.slot, hrun]
      · simp [Slot.Runnable, Pcb.slot, hrun]
    · rfl

theorem poll_state {c : Nat} (hb : (k.processes c).state ≠ .blocked)
    (h : processPollTimeouts k = .ok k') :
    (k'.processes c).state = (k.processes c).state := by
  refine forRangeE_ok (fun _ s => (s.processes c).state = (k.processes c).state) rfl
    (fun i _ s s' hs hstep => ?_) h
  rw [← hs] at hb ⊢
  rcases pollSlot_inv hstep with ⟨-, rfl⟩ | ⟨hd, -, rfl⟩ | ⟨-, -, k1, hw, -, -⟩
  · rfl
  · rw [modify_ne]
    rintro rfl
    exact hb (due_blocked hd).2
  · have hci : c ≠ i := by
      rintro rfl
      exact hb hw.1.blocked
    obtain ⟨n, head, hk⟩ := schedulerAdd_relinks hw.2.choose_spec
    rw [hk, ← hw.1.others c hci]
    rfl

theorem tick_resumes {r f : FramePtr} (h : schedulerTimerTick r k = .ok (f, k')) :
    (k'.current = k.current ∧ f = r) ∨
    (∃ i, k'.current = .slot i ∧ .slot i ≠ k.current ∧ f = resumeFrame i k' ∧
      (k.First i ∨ (k.processes i).due (timerUptimeMs k) = true)) ∨
    (k'.current = .idle ∧ f = r ∧ ¬k.HasReady ∧ ∃ c, k.current = .slot c ∧
      (k.processes c).state ≠ .running ∧ (k.processes c).state ≠ .ready) := by
  obtain ⟨k1, hpoll, hend⟩ := tick_cases h
  rw [(poll_marks hpoll).current] at hend
  rcases hend with ⟨-, rfl, rfl⟩ | ⟨k2, n, k3, hreq, hnext, hend⟩
  · rw [modifyRef_current]
    exact .inl ⟨(poll_marks hpoll).current, rfl⟩
  have hlist := nextReady_relinks hnext
  have hstamp := sched_stamp r k1
  cases hend with
  | again =>
    refine .inl ⟨?_, rfl⟩
    rw [hlist.marks.current, (requeue_marks hreq).current, stamp, modifyRef_current,
      (poll_marks hpoll).current]
  | @other i hne =>
    refine .inr (.inl ⟨i, rfl, hne, rfl, ?_⟩)
    have hfirst := (sameList_of_sched hstamp).first (requeue_first hreq (nextReady_first hnext) hne)
    exact ((poll_polled hpoll).first i hfirst).imp_right And.left
  | none hne =>
    obtain ⟨c, hc⟩ : ∃ c, k.current = .slot c := by
      cases hk : k.current with
      | idle => exact absurd hk hne
      | slot c => exact ⟨c, rfl⟩
    have hstate : (k3.processes c).state = (k2.processes c).state := by
      obtain ⟨n, head, hk⟩ := hlist
      rw [hk]
      rfl
    rw [hc] at hreq ⊢
    unfold settle restore
    by_cases hgoes : (k3.processes c).state = .running ∨ (k3.processes c).state = .ready
    · refine .inl ⟨if_pos ?_, rfl⟩
      split
      · rw [modifyRef_pcb]
      next hnot => exact hgoes.resolve_right fun hr => hnot ⟨nofun, hr⟩
    · push Not at hgoes
      have hnotReady : ¬(PcbRef.slot c ≠ .idle ∧ (k3.pcb (.slot c)).state = .ready) :=
        fun h => hgoes.2 h.2
      rw [if_neg hnotReady]
      refine .inr (.inr ⟨if_neg hgoes.1, rfl, fun hready => ?_, c, rfl, ?_⟩)
      · have hk1 := (sameList_of_sched hstamp).hasReady ((poll_polled hpoll).hasReady hready)
        exact nextReady_idle hnext (requeue_hasReady hreq hk1)
      · rw [hstate] at hgoes
        rcases requeue_cases hreq with ⟨rfl, -⟩ | ⟨c', hc', hready, -⟩
        · have hsame : ((stamp r k1).processes c).state = (k1.processes c).state :=
            congrArg (fun s => (s.slots c).state) hstamp
          rw [hsame] at hgoes
          constructor
          · intro he
            exact hgoes.1 ((poll_state (by rw [he]; nofun) hpoll).trans he)
          · intro he
            exact hgoes.2 ((poll_state (by rw [he]; nofun) hpoll).trans he)
        · cases hc'
          exact absurd hready hgoes.2

theorem block_resumes {r f : FramePtr} (h : schedulerBlockCurrent r k = .ok (f, k')) :
    (k'.current = k.current ∧ f = r) ∨
    (∃ i, k'.current = .slot i ∧ .slot i ≠ k.current ∧ f = resumeFrame i k' ∧ k.First i) ∨
    (k'.current = .idle ∧ f = r ∧ ¬k.HasReady ∧ ∃ c, k.current = .slot c ∧
      (k.processes c).state ≠ .ready) := by
  have hself := (block_suspends h).self
  obtain ⟨n, k2, hnext, hend⟩ := block_inv h
  cases hend with
  | other i =>
    by_cases hi : .slot i = k.current
    · refine .inl ⟨hi, ?_⟩
      rw [← hi] at hself
      have hframe : ((activate i k2).processes i).interruptFrame = some r := congrArg Saved.frame hself
      rw [resumeFrame, hframe]
      rfl
    · exact .inr (.inl ⟨i, rfl, hi, rfl, (suspend_sameList r k).first (nextReady_first hnext)⟩)
  | none k1 hk1 =>
    cases hc : k.current with
    | idle =>
      refine .inl ⟨?_, rfl⟩
      unfold settle
      dsimp only
      split <;> rfl
    | slot c =>
      rw [hc] at hk1
      have hstate : (k2.processes c).state = ((suspend r k).processes c).state := by
        obtain ⟨n, head, hk⟩ := nextReady_relinks hnext
        rw [hk]
        rfl
      unfold settle
      by_cases hgoes : (k1.processes c).state = .running
      · exact .inl ⟨if_pos hgoes, rfl⟩
      · refine .inr (.inr ⟨if_neg hgoes, rfl, fun hready => ?_, c, rfl, fun hready => ?_⟩)
        · exact nextReady_idle hnext ((suspend_sameList r k).hasReady hready)
        · -- a ready process is made the running one
          have hsuspended : ((suspend r k).processes c).state = .ready := by
            unfold suspend
            rw [hc]
            unfold Kernel.modifyRef
            rw [modify_self]
            simp [hready]
          rw [hsuspended] at hstate
          rw [if_pos ⟨nofun, by simp [Kernel.pcb, hstate], by simp [Kernel.pcb, hstate]⟩] at hk1
          rw [hk1] at hgoes
          unfold Kernel.modifyRef at hgoes
          rw [modify_self] at hgoes
          exact hgoes rfl

theorem yield_resumes {cpu c : CalleeSaved} (h : schedulerYield cpu k = .ok (some c, k')) :
    k'.current ≠ k.current ∧ c = (k'.pcb k'.current).cpuState.load ∧
      ((∃ i, k'.current = .slot i ∧ k.First i) ∨
        k'.current = .idle ∧ ¬k.HasReady ∧ ∀ j, k.current = .slot j → ¬k.Requeues j) := by
  obtain ⟨k2, n, k3, hreq, hnext, hend⟩ := yield_inv h
  have hticks : (k.modifyRef (fun p => { p with ticks := 0 }) k.current).sched = k.sched :=
    sched_modifyRef_same k k.current fun _ => rfl
  generalize hloaded : some c = loaded at hend
  cases hend with
  | again => cases hloaded
  | other hne k1 h1 =>
    cases hloaded
    have hcur : k'.current = n := by
      rw [h1, modifyRef_current]
      cases n with
      | idle => rfl
      | slot i => rfl
    rw [hcur]
    refine ⟨hne, rfl, ?_⟩
    cases n with
    | slot i =>
      exact .inl
        ⟨i, rfl, (sameList_of_sched hticks).first (requeue_first hreq (nextReady_first hnext) hne)⟩
    | idle =>
      refine .inr ⟨rfl, fun hready => ?_, fun j hj hq => ?_⟩
      · exact nextReady_idle hnext (requeue_hasReady hreq ((sameList_of_sched hticks).hasReady hready))
      · rw [hj] at hreq
        rcases requeue_cases hreq with ⟨-, hnot⟩ | ⟨j', hj', -, -, hback⟩
        · refine hnot j rfl ?_
          exact (congrArg (fun s => (s.slots j).state) (hj ▸ hticks)).trans hq.1
        · cases hj'
          refine nextReady_idle hnext (hback ?_)
          unfold Kernel.Requeues Kernel.modifyRef
          rw [modify_self]
          exact hq

end

end Ceblar
