import Ceblar.Kernel.ExecTable

/-! # What the operations leave to the caller

Only `process_wait` and `process_futex_wait` put a process to sleep, and that is the current one.
-/

namespace Ceblar

/-! ## What only the process itself changes -/

structure Pcb.Fixed (p p' : Pcb) : Prop where
  handlers : p'.signalHandlers = p.signalHandlers
  mask : p'.signalMask = p.signalMask
  active : p'.signalActive = p.signalActive
  saved : p'.signalSavedFrame = p.signalSavedFrame
  mode : p'.userMode = p.userMode

def SameSignals (k k' : Kernel) : Prop := ∀ i, (k.processes i).Fixed (k'.processes i)

section

variable {k k1 k' : Kernel} {i : Nat}

theorem Pcb.Fixed.refl (p : Pcb) : p.Fixed p := ⟨rfl, rfl, rfl, rfl, rfl⟩

theorem Pcb.Fixed.trans {p p1 p' : Pcb} (h1 : p.Fixed p1) (h2 : p1.Fixed p') : p.Fixed p' :=
  ⟨h2.handlers.trans h1.handlers, h2.mask.trans h1.mask, h2.active.trans h1.active,
    h2.saved.trans h1.saved, h2.mode.trans h1.mode⟩

theorem SameSignals.refl (k : Kernel) : SameSignals k k := fun _ => Pcb.Fixed.refl _

theorem SameSignals.trans (h1 : SameSignals k k1) (h2 : SameSignals k1 k') : SameSignals k k' :=
  fun i => (h1 i).trans (h2 i)

theorem sameSignals_modify {f : Pcb → Pcb} (hf : ∀ p : Pcb, p.Fixed (f p)) :
    SameSignals k (k.modify i f) := by
  intro j
  by_cases hj : j = i
  · subst hj
    rw [modify_self]
    exact hf _
  · rw [modify_ne _ _ hj]
    exact Pcb.Fixed.refl _

theorem sameSignals_modifyRef {f : Pcb → Pcb} {ref : PcbRef} (hf : ∀ p : Pcb, p.Fixed (f p)) :
    SameSignals k (k.modifyRef f ref) := by
  cases ref with
  | idle => exact SameSignals.refl k
  | slot i => exact sameSignals_modify hf

theorem Marks.sameSignals (h : Marks k k') : SameSignals k k' := by
  intro i
  refine ⟨?_, ?_, ?_, ?_, ?_⟩
  · exact @Marks.kept k k' _ Pcb.signalHandlers h (fun _ _ => rfl) i
  · exact @Marks.kept k k' _ Pcb.signalMask h (fun _ _ => rfl) i
  · exact @Marks.kept k k' _ Pcb.signalActive h (fun _ _ => rfl) i
  · exact @Marks.kept k k' _ Pcb.signalSavedFrame h (fun _ _ => rfl) i
  · exact @Marks.kept k k' _ Pcb.userMode h (fun _ _ => rfl) i

theorem activate_signals (k : Kernel) (i : Nat) : SameSignals k (activate i k) := by
  have hrun : SameSignals k (k.modify i fun p => { p with state := .running }) :=
    sameSignals_modify fun _ => ⟨rfl, rfl, rfl, rfl, rfl⟩
  exact hrun

theorem activateRef_signals (k : Kernel) (ref : PcbRef) : SameSignals k (activateRef ref k) := by
  cases ref with
  | idle => exact SameSignals.refl k
  | slot i => exact activate_signals k i

theorem tick_signals {r f : FramePtr} (h : schedulerTimerTick r k = .ok (f, k')) : SameSignals k k' := by
  obtain ⟨k1, hpoll, ⟨-, -, rfl⟩ | ⟨k2, n, k3, hreq, hnext, hend⟩⟩ := tick_cases h
  · refine (poll_marks hpoll).sameSignals.trans (sameSignals_modifyRef ?_)
    exact fun _ => ⟨rfl, rfl, rfl, rfl, rfl⟩
  · have hstamp : SameSignals k1 (stamp r k1) := sameSignals_modifyRef fun _ => ⟨rfl, rfl, rfl, rfl, rfl⟩
    refine ((poll_marks hpoll).sameSignals.trans hstamp).trans
      (((requeue_marks hreq).sameSignals.trans (nextReady_relinks hnext).marks.sameSignals).trans ?_)
    cases hend with
    | again => exact SameSignals.refl _
    | none hne =>
      have hrestore : SameSignals k3 (restore k1.current k3) := by
        unfold restore
        split
        · exact sameSignals_modifyRef fun _ => ⟨rfl, rfl, rfl, rfl, rfl⟩
        · exact SameSignals.refl _
      exact hrestore
    | other hne => exact activate_signals k3 _

theorem block_signals {r f : FramePtr} (h : schedulerBlockCurrent r k = .ok (f, k')) :
    SameSignals k k' := by
  obtain ⟨n, k2, hnext, hend⟩ := block_inv h
  have hsuspend : SameSignals k (suspend r k) := sameSignals_modifyRef fun _ => ⟨rfl, rfl, rfl, rfl, rfl⟩
  refine (hsuspend.trans (nextReady_relinks hnext).marks.sameSignals).trans ?_
  cases hend with
  | none k1 hk1 =>
    have hrestart : SameSignals k2 k1 := by
      rw [hk1]
      split
      · exact sameSignals_modifyRef fun _ => ⟨rfl, rfl, rfl, rfl, rfl⟩
      · exact SameSignals.refl _
    exact hrestart
  | other i => exact activate_signals k2 i

theorem yield_signals {cpu : CalleeSaved} {loaded : Option CalleeSaved}
    (h : schedulerYield cpu k = .ok (loaded, k')) :
    SameSignals k k' := by
  obtain ⟨k2, n, k3, hreq, hnext, hend⟩ := yield_inv h
  have hstamp : SameSignals k (k.modifyRef (fun p => { p with ticks := 0 }) k.current) :=
    sameSignals_modifyRef fun _ => ⟨rfl, rfl, rfl, rfl, rfl⟩
  refine (hstamp.trans
    ((requeue_marks hreq).sameSignals.trans (nextReady_relinks hnext).marks.sameSignals)).trans ?_
  cases hend with
  | again => exact SameSignals.refl _
  | other hne k1 h1 =>
    rw [h1]
    refine (activateRef_signals k3 n).trans (sameSignals_modifyRef ?_)
    exact fun _ => ⟨rfl, rfl, rfl, rfl, rfl⟩

theorem wait_signals {child status rc : Word} (h : processWait child status k = .ok (rc, k')) :
    SameSignals k k' := by
  rcases wait_inv h with ⟨-, -, rfl⟩ | ⟨i, -, ⟨-, -, vmm, -, rfl⟩ | ⟨-, -, rfl⟩⟩
  · exact SameSignals.refl _
  · intro j
    by_cases hj : j = i
    · subst hj
      rw [modify_self]
      exact ⟨rfl, rfl, rfl, rfl, rfl⟩
    · rw [modify_ne _ _ hj]
      exact Pcb.Fixed.refl _
  · exact sameSignals_modifyRef fun _ => ⟨rfl, rfl, rfl, rfl, rfl⟩

theorem Claimed.signals {j : Nat} (h : Claimed k j k') (ha : (k.processes i).allocated = true) :
    (k.processes i).Fixed (k'.processes i) := by
  rw [h.others i (by rintro rfl; simp [h.free] at ha)]
  exact Pcb.Fixed.refl _

theorem Creation.signals {res : Option Nat × Kernel} (h : Creation k res)
    (ha : (k.processes i).allocated = true) :
    (k.processes i).Fixed (res.2.processes i) := by
  cases h with
  | refused vmm => exact Pcb.Fixed.refl _
  | failed hj => exact hj.signals ha
  | made hj _ => exact hj.signals ha

theorem Forked.signals {res : Option Nat × Kernel} (h : Forked k res)
    (ha : (k.processes i).allocated = true) :
    (k.processes i).Fixed (res.2.processes i) := by
  cases h with
  | creation hc => exact hc.signals ha
  | ended hj _ hexit => exact (hj.signals ha).trans ((exit_marks hexit).sameSignals i)

end

/-! ## Nobody falls asleep -/

def Awake (k k' : Kernel) : Prop :=
  ∀ i, (k'.processes i).state = .blocked → (k.processes i).state = .blocked

section

variable {k k1 k' : Kernel} {i j : Nat} {f : Pcb → Pcb} {rc : Int}

theorem Awake.refl (k : Kernel) : Awake k k := fun _ => id

theorem Awake.trans (h1 : Awake k k1) (h2 : Awake k1 k') : Awake k k' := fun i hi => h1 i (h2 i hi)

theorem awake_modified (hp : k1.processes = k.processes)
    (hf : ∀ p, (f p).state = .blocked → p.state = .blocked) : Awake k (k1.modify i f) := by
  intro j hj
  rw [← hp]
  by_cases hij : j = i
  · subst hij
    rw [modify_self] at hj
    exact hf _ hj
  · rwa [modify_ne _ _ hij] at hj

theorem awake_modify (hf : ∀ p, (f p).state = .blocked → p.state = .blocked) : Awake k (k.modify i f) :=
  awake_modified rfl hf

theorem awake_modifyRef {ref : PcbRef} (hf : ∀ p, (f p).state = .blocked → p.state = .blocked) :
    Awake k (k.modifyRef f ref) := by
  cases ref with
  | idle => exact Awake.refl k
  | slot i => exact awake_modify hf

theorem Relinks.awake (h : Relinks k k') : Awake k k' := by
  obtain ⟨n, head, rfl⟩ := h
  exact fun _ => id

theorem WokenAndAdded.awake (h : WokenAndAdded j k k1 k') : Awake k k' := by
  obtain ⟨hwoken, rc, hadd⟩ := h
  refine Awake.trans (fun i hi => ?_) (schedulerAdd_relinks hadd).awake
  by_cases hij : i = j
  · subst hij
    exact hwoken.blocked
  · rwa [hwoken.others i hij] at hi

theorem poll_awake (h : processPollTimeouts k = .ok k') : Awake k k' := by
  refine forRangeE_ok (fun _ s => Awake k s) (Awake.refl k) (fun i _ s s' hs hstep => hs.trans ?_) h
  rcases pollSlot_inv hstep with ⟨-, rfl⟩ | ⟨-, -, rfl⟩ | ⟨-, -, k1, hw, -, -⟩
  · exact Awake.refl _
  · exact awake_modify fun _ hp => by cases hp
  · exact hw.awake

theorem awake_rule (k : Kernel) : WakeRule (Awake k) where
  wake h hw := h.trans hw.awake
  zombie _ _ h := h.trans (awake_modify fun _ hp => by cases hp)
  orphan _ h := h.trans (awake_modify fun _ => id)
  pending _ _ h := h.trans (awake_modify fun _ => id)

theorem futexWake_awake {key count : Word} (h : processFutexWake key count k = .ok (rc, k')) :
    Awake k k' :=
  (awake_rule k).futexWake (Awake.refl k) h

theorem exit_awake {pid status : Word} (h : processExitWithStatus pid status k = .ok (rc, k')) :
    Awake k k' :=
  (awake_rule k).exit (Awake.refl k) h

theorem signal_awake {pid signal : Word} (h : processSendSignal pid signal k = .ok (rc, k')) :
    Awake k k' :=
  (awake_rule k).signal (Awake.refl k) h

theorem Claimed.awake (h : Claimed k j k') : Awake k k' := by
  intro i hi
  by_cases hij : i = j
  · subst hij
    rw [h.state] at hi
    cases hi
  · rwa [h.others i hij] at hi

theorem Forked.awake {res : Option Nat × Kernel} (h : Forked k res) : Awake k res.2 := by
  cases h with
  | creation hc =>
    cases hc with
    | refused vmm => exact fun _ => id
    | failed hj => exact hj.awake
    | made hj _ => exact hj.awake
  | ended hj _ hexit => exact hj.awake.trans (exit_awake hexit)

theorem requeue_awake {ref : PcbRef} (h : requeue ref k = .ok k') : Awake k k' := by
  unfold requeue at h
  split at h
  · cases h
    exact Awake.refl k
  · split at h
    · refine Awake.trans (awake_modify ?_) (enqueue_relinks h).awake
      exact fun _ hp => by cases hp
    · cases h
      exact Awake.refl k

end

/-! ## Whoever runs is not asleep -/

def Kernel.Live (k : Kernel) : Prop := ∀ i, k.current = .slot i → (k.processes i).userMode = true →
  (k.processes i).state ≠ .blocked ∧ (k.processes i).state ≠ .zombie

section

variable {k k1 k' : Kernel} {i : Nat}

theorem Kernel.Live.kept (h : k.Live) (hc : k'.current = k.current) (hs : SameSignals k k')
    (ha : Awake k k') (hq : Quiet k k') : k'.Live := by
  intro i hi hu
  obtain ⟨hb, hz⟩ := h i (hc ▸ hi) ((hs i).mode ▸ hu)
  exact ⟨fun hb' => hb (ha i hb'), fun hz' => ((hq.pcb i).dies hz').elim hz id⟩

theorem settle_live (ref : PcbRef) (k : Kernel) : (settle ref k).Live := by
  intro i hi _
  unfold settle at hi ⊢
  dsimp only at hi ⊢
  split at hi
  · rename_i hrun
    subst hi
    have hrun' : (k.processes i).state = .running := hrun
    simp [hrun']
  · cases hi

theorem activateRef_live (ref : PcbRef) (k : Kernel) : (activateRef ref k).Live := by
  intro i hi _
  cases ref with
  | idle => cases hi
  | slot j =>
    cases hi
    have hrun :
        ((k.modify i fun p => { p with state := .running }).processes i).state =
          .running := by rw [modify_self]
    have hrun' : ((activateRef (.slot i) k).processes i).state = .running := hrun
    simp [hrun']

theorem activate_live (i : Nat) (k : Kernel) : (activate i k).Live := activateRef_live (.slot i) k

theorem requeue_live {r : Kernel} {n : PcbRef} (h : k.Live) (hreq : requeue k.current k = .ok k1)
    (hnext : nextReady k1 = .ok (n, r)) : r.Live ∧ r.current = k.current := by
  have hlinks := nextReady_relinks hnext
  have hc : r.current = k.current := hlinks.marks.current.trans (requeue_marks hreq).current
  exact ⟨h.kept hc ((requeue_marks hreq).sameSignals.trans hlinks.marks.sameSignals)
    ((requeue_awake hreq).trans hlinks.awake) ((requeue_steps hreq).trans hlinks.quiet), hc⟩

theorem Kernel.Live.modifyRef (h : k.Live) {f : Pcb → Pcb} {ref : PcbRef}
    (hf : ∀ p, (f p).state = p.state ∧ (f p).userMode = p.userMode) : (k.modifyRef f ref).Live := by
  intro i hi hu
  rw [modifyRef_current] at hi
  rcases modifyRef_processes k f ref i with he | he
  · rw [he] at hu ⊢
    exact h i hi hu
  · rw [he, (hf _).2] at hu
    rw [he, (hf _).1]
    exact h i hi hu

theorem tick_live {r f : FramePtr} (h : k.Live) (ht : schedulerTimerTick r k = .ok (f, k')) :
    k'.Live := by
  obtain ⟨k1, hpoll, hend⟩ := tick_cases ht
  have h1 : k1.Live := h.kept (poll_marks hpoll).current (poll_marks hpoll).sameSignals
      (poll_awake hpoll) (poll_quiet hpoll)
  rcases hend with ⟨-, -, rfl⟩ | ⟨k2, n, k3, hreq, hnext, hend⟩
  · exact h1.modifyRef fun _ => ⟨rfl, rfl⟩
  · have hstamp : (stamp r k1).Live := h1.modifyRef fun _ => ⟨rfl, rfl⟩
    have hc : (stamp r k1).current = k1.current := modifyRef_current _ _ _
    cases hend with
    | again => exact (requeue_live hstamp (hc.symm ▸ hreq) hnext).1
    | none hne => exact settle_live _ _
    | other hne => exact activate_live _ _

theorem block_live {r f : FramePtr} (h : schedulerBlockCurrent r k = .ok (f, k')) : k'.Live := by
  obtain ⟨n, k2, -, hend⟩ := block_inv h
  cases hend with
  | none k1 hk1 => exact settle_live _ _
  | other i => exact activate_live _ _

theorem yield_live {cpu : CalleeSaved} {loaded : Option CalleeSaved} (h : k.Live)
    (hy : schedulerYield cpu k = .ok (loaded, k')) :
    k'.Live ∧ (loaded = none → k'.current = k.current) := by
  obtain ⟨k2, n, k3, hreq, hnext, hend⟩ := yield_inv hy
  have hstamp : (k.modifyRef (fun p => { p with ticks := 0 }) k.current).Live :=
    h.modifyRef fun _ => ⟨rfl, rfl⟩
  have hc := modifyRef_current k (fun p => { p with ticks := 0 }) k.current
  cases hend with
  | again =>
    obtain ⟨hlive, hcur⟩ := requeue_live hstamp (hc.symm ▸ hreq) hnext
    exact ⟨hlive, fun _ => hcur.trans hc⟩
  | other hne k1 h1 =>
    subst h1
    refine ⟨(activateRef_live n k3).modifyRef ?_, fun hnone => by cases hnone⟩
    exact fun _ => ⟨rfl, rfl⟩

end

/-! ## The caller -/

structure SameCaller (k k' : Kernel) : Prop where
  current : k'.current = k.current
  fixed : ∀ i, k.current = .slot i → (k.processes i).Fixed (k'.processes i)

def Kernel.inUser (k : Kernel) : Bool :=
  match k.current with
  | .idle => false
  | .slot i => (k.processes i).userMode

section

variable {k k1 k' : Kernel}

theorem SameCaller.trans (h1 : SameCaller k k1) (h2 : SameCaller k1 k') : SameCaller k k' :=
  ⟨h2.current.trans h1.current, fun i hi => (h1.fixed i hi).trans (h2.fixed i (h1.current.trans hi))⟩

theorem SameCaller.live (h : SameCaller k k') (hu : k.inUser = false) : k'.Live := by
  intro i hi hmode
  rw [h.current] at hi
  rw [(h.fixed i hi).mode] at hmode
  simp [Kernel.inUser, hi, hmode] at hu

theorem Marks.sameCaller (h : Marks k k') : SameCaller k k' := ⟨h.current, fun i _ => h.sameSignals i⟩

theorem sameCaller_of_eq (hc : k'.current = k.current) (hp : k'.processes = k.processes) :
    SameCaller k k' :=
  ⟨hc, fun _ _ => hp ▸ Pcb.Fixed.refl _⟩

theorem Claimed.sameCaller {j : Nat} (h : Claimed k j k') (ht : TableInv k) : SameCaller k k' :=
  ⟨h.current, fun i hi => h.signals (ht.current i hi)⟩

theorem Creation.sameCaller {res : Option Nat × Kernel} (h : Creation k res) (ht : TableInv k) :
    SameCaller k res.2 := by
  cases h with
  | refused vmm => exact sameCaller_of_eq rfl rfl
  | failed hj => exact hj.sameCaller ht
  | made hj _ => exact hj.sameCaller ht

theorem Forked.sameCaller {res : Option Nat × Kernel} (h : Forked k res) (ht : TableInv k) :
    SameCaller k res.2 := by
  cases h with
  | creation hc => exact hc.sameCaller ht
  | ended hj _ hexit => exact (hj.sameCaller ht).trans (exit_marks hexit).sameCaller

theorem wait_sameCaller {child status rc : Word} (h : processWait child status k = .ok (rc, k')) :
    SameCaller k k' := by
  refine ⟨?_, fun i _ => wait_signals h i⟩
  rcases wait_inv h with ⟨-, -, rfl⟩ | ⟨i, -, ⟨-, -, vmm, -, rfl⟩ | ⟨-, -, rfl⟩⟩
  · rfl
  · rfl
  · exact modifyRef_current _ _ _

end

end Ceblar
