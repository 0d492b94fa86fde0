import Ceblar.Kernel.ExecTable
import Ceblar.Scheduler.Contexts

/-! # Processes that may go on

A process that is taken from the list again stays `READY`, and one that has stopped goes on as if it
were the idle one.
-/

namespace Ceblar

/-- After an interrupt of slot `c` with the frame `r`: the frame `f` is one of the process that is current
now, and that process runs in its space. -/
def MayGoOn (c : Nat) (r f : FramePtr) (k : Kernel) : Prop :=
  ∃ i, k.current = .slot i ∧ (k.processes i).state = .running ∧
    k.vmm.currentSpace = (k.processes i).addressSpace ∧
    ((k.processes i).interruptFrame = some f ∨ f = processInitialFrame i k ∨ f = r ∧ i = c)

/-! ## Before the interrupted process -/

def Kernel.Before (k : Kernel) (goes : Prop) (c x : Nat) : Prop :=
  ∃ u, k.Leads u x ∧ (goes → c ∉ u) ∧ x ≠ c

def Kernel.Ahead (k : Kernel) (goes : Prop) (c : Nat) : Prop :=
  ∃ x, k.Before goes c x ∧ (k.sched.slots x).Runnable

def Kernel.Promised (k : Kernel) (goes : Prop) (c : Nat) (now : Word) (n : Nat) : Prop :=
  (∃ x, k.Before goes c x ∧ ((k.sched.slots x).Runnable ∨ n ≤ x ∧ (k.processes x).due now = true)) ∨
  (goes → ¬k.OnList c) ∧ ∃ d, d ≠ c ∧ n ≤ d ∧ (k.processes d).due now = true ∧
    (k.processes d).cpuState.esp ≠ 0

section

variable {k k1 k' : Kernel} {goes : Prop} {c d x : Nat} {now : Word} {n : Nat}

theorem Enqueued.before (h : Enqueued d k k') (hd : d ≠ c) (hx : k.Before goes c x) :
    k'.Before goes c x ∨ k'.Before goes c d := by
  obtain ⟨u, hu, hcu, hxc⟩ := hx
  by_cases hdu : d ∈ u
  · obtain ⟨v, hdv, hsub, hv⟩ := seg_upto hu hdu
    exact .inr ⟨v, h.keeps v d hdv hv, fun hg hc => hcu hg (hsub c hc), hd⟩
  · exact .inl ⟨u, h.keeps u x hdu hu, hcu, hxc⟩

theorem Enqueued.before_new (h : Enqueued d k k') (hd : d ≠ c) (hx : k'.Before goes c x) :
    k.Before goes c x ∨ k.Before goes c d ∨ (goes → ¬k.OnList c) := by
  obtain ⟨u, hu, hcu, hxc⟩ := hx
  by_cases hdu : d ∈ u
  · obtain ⟨v, hdv, hsub, hv⟩ := seg_upto hu hdu
    have hcv : goes → c ∉ v := fun hg hc => hcu hg (hsub c hc)
    rcases h.new v d hdv hv with hold | ⟨-, hall⟩
    · exact .inr (.inl ⟨v, hold, hcv, hd⟩)
    · exact .inr (.inr fun hg hon => hcv hg (hall c hon))
  · rcases h.new u x hdu hu with hold | ⟨-, hall⟩
    · exact .inl ⟨u, hold, hcu, hxc⟩
    · exact .inr (.inr fun hg hon => hcu hg (hall c hon))

theorem Enqueued.before_self (h : Enqueued d k k') (hd : d ≠ c) (hoff : goes → ¬k.OnList c) :
    k'.Before goes c d := by
  obtain ⟨u, hdu, hu⟩ := h.leads
  refine ⟨u, hu, fun hg hcu => ?_, hd⟩
  obtain ⟨v, -, hsub, hv⟩ := seg_upto hu hcu
  rcases h.new v c (fun hdv => hdu (hsub d hdv)) hv with hold | ⟨he, -⟩
  · exact hoff hg ⟨v, hold⟩
  · exact hd he.symm

theorem Enqueued.onList (h : Enqueued d k k') (hd : d ≠ c) (hno : ¬k'.Before True c d) :
    k'.OnList c ↔ k.OnList c := by
  constructor
  · rintro ⟨v, hv⟩
    obtain ⟨u, hcu, hu⟩ := seg_before hv
    by_cases hdu : d ∈ u
    · obtain ⟨w, -, hsub, hw⟩ := seg_upto hu hdu
      exact absurd ⟨w, hw, fun _ hc => hcu (hsub c hc), hd⟩ hno
    · rcases h.new u c hdu hu with hold | ⟨he, -⟩
      · exact ⟨u, hold⟩
      · exact absurd he.symm hd
  · rintro ⟨v, hv⟩
    obtain ⟨u, hcu, hu⟩ := seg_before hv
    by_cases hdu : d ∈ u
    · obtain ⟨w, hdw, hsub, hw⟩ := seg_upto hu hdu
      exact absurd ⟨w, h.keeps w d hdw hw, fun _ hc => hcu (hsub c hc), hd⟩ hno
    · exact ⟨u, h.keeps u c hdu hu⟩

theorem before_congr (h : ∀ u x, k'.Leads u x ↔ k.Leads u x) :
    k'.Before goes c x ↔ k.Before goes c x := by
  unfold Kernel.Before
  simp only [h]

theorem onList_congr (h : ∀ u x, k'.Leads u x ↔ k.Leads u x) : k'.OnList x ↔ k.OnList x :=
  exists_congr fun u => h u x

/-! ## Polling -/

theorem WokenAndAdded.list (h : WokenAndAdded d k k1 k') (ha : (k.processes d).allocated = true) :
    (k'.sched.slots d).Runnable ∧
      ((k.processes d).cpuState.esp ≠ 0 ∧ Enqueued d k k' ∨
        (k.processes d).cpuState.esp = 0 ∧ ∀ u x, k'.Leads u x ↔ k.Leads u x) := by
  obtain ⟨hwoken, rc, hadd⟩ := h
  have hrun1 : (k1.sched.slots d).Runnable := ⟨hwoken.allocated.trans ha, hwoken.ready⟩
  have hleads : ∀ u x, k1.Leads u x ↔ k.Leads u x := by
    refine leads_congr ?_ (congrArg Sched.readyHead hwoken.sched)
    rw [hwoken.sched, setState_next]
  refine ⟨(relink_runnable (schedulerAdd_relinks hadd) d).mpr hrun1, ?_⟩
  unfold schedulerAdd at hadd
  rw [hwoken.allocated, ha, hwoken.cpu] at hadd
  by_cases he : (k.processes d).cpuState.esp = 0
  · rw [if_pos (by simp [he])] at hadd
    cases hadd
    exact .inr ⟨he, hleads⟩
  · rw [if_neg (by simpa using he)] at hadd
    obtain ⟨k2, henq, hend⟩ := bind_eq_ok.mp hadd
    cases hend
    have hq := enqueue_enqueued (hwoken.allocated.trans ha) (by rw [hwoken.ready]; nofun)
        (by rw [hwoken.cpu]; exact he) henq
    refine .inl
      ⟨he, fun u x hdu hu => hq.keeps u x hdu ((hleads u x).mpr hu), hq.leads, fun u x hdu hu => ?_⟩
    rcases hq.new u x hdu hu with hold | ⟨hx, hall⟩
    · exact .inl ((hleads u x).mp hold)
    · exact .inr ⟨hx, fun y hy => hall y ((onList_congr hleads).mpr hy)⟩

theorem WokenAndAdded.other (h : WokenAndAdded d k k1 k') (now : Word) (hx : x ≠ d) :
    ((k'.sched.slots x).Runnable ↔ (k.sched.slots x).Runnable) ∧
    (k'.processes x).due now = (k.processes x).due now ∧
      (k'.processes x).cpuState = (k.processes x).cpuState ∧
      (k'.processes x).state = (k.processes x).state := by
  obtain ⟨hwoken, rc, hadd⟩ := h
  obtain ⟨next, head, hk⟩ := schedulerAdd_relinks hadd
  have hsame : k'.processes x = { k.processes x with next := next x } := by
    rw [hk, ← hwoken.others x hx]
    rfl
  refine ⟨?_, ?_, ?_, ?_⟩
  · change (k'.processes x).allocated = true ∧ (k'.processes x).state = .ready ↔ _
    rw [hsame]
    rfl
  · rw [hsame]
    rfl
  · rw [hsame]
  · rw [hsame]

theorem WokenAndAdded.ahead (h : WokenAndAdded d k k1 k') (ha : (k.processes d).allocated = true)
    (hd : d ≠ c) (hahead : k.Ahead goes c) : k'.Ahead goes c := by
  obtain ⟨x, hx, hrun⟩ := hahead
  obtain ⟨hself, hlist⟩ := h.list ha
  have hrun' : (k'.sched.slots x).Runnable := by
    by_cases hxd : x = d
    · rw [hxd]
      exact hself
    · exact (h.other 0 hxd).1.mpr hrun
  rcases hlist with ⟨-, henq⟩ | ⟨-, hsame⟩
  · rcases henq.before hd hx with hx' | hd'
    · exact ⟨x, hx', hrun'⟩
    · exact ⟨d, hd', hself⟩
  · exact ⟨x, (before_congr hsame).mpr hx, hrun'⟩

theorem WokenAndAdded.promised (h : WokenAndAdded d k k1 k') (hdue : (k.processes d).due now = true)
    (hd : d ≠ c) :
    k'.Promised goes c now (d + 1) ↔ k.Promised goes c now d := by
  obtain ⟨hself, hlist⟩ := h.list (due_blocked hdue).1
  have hother : ∀ x, x ≠ d → _ := fun x hx => h.other now hx
  have hnext : ∀ x, x ≠ d → (d + 1 ≤ x ↔ d ≤ x) := fun x hx => by omega
  have hgood : ∀ x, ((k'.sched.slots x).Runnable ∨ d + 1 ≤ x ∧ (k'.processes x).due now = true) ↔
      ((k.sched.slots x).Runnable ∨ d ≤ x ∧ (k.processes x).due now = true) := by
    intro x
    by_cases hx : x = d
    · rw [hx]
      exact iff_of_true (.inl hself) (.inr ⟨le_refl d, hdue⟩)
    · rw [(hother x hx).1, (hother x hx).2.1, hnext x hx]
  unfold Kernel.Promised
  simp only [hgood]
  rcases hlist with ⟨hesp, henq⟩ | ⟨hesp, hsame⟩
  · have hready : (k.sched.slots d).Runnable ∨ d ≤ d ∧ (k.processes d).due now = true :=
      .inr ⟨le_refl d, hdue⟩
    have hback : ∀ x, k'.Before goes c x →
        ((k.sched.slots x).Runnable ∨ d ≤ x ∧ (k.processes x).due now = true) →
        k.Promised goes c now d := by
      intro x hx hrun
      rcases henq.before_new hd hx with hx | hx | hoff
      · exact .inl ⟨x, hx, hrun⟩
      · exact .inl ⟨d, hx, hready⟩
      · exact .inr ⟨hoff, d, hd, le_refl d, hdue, hesp⟩
    constructor
    · rintro (⟨x, hx, hrun⟩ | ⟨hoff, -⟩)
      · exact hback x hx hrun
      · by_cases hbefore : k'.Before True c d
        · obtain ⟨u, hu, hcu, hdc⟩ := hbefore
          exact hback d ⟨u, hu, fun _ => hcu trivial, hdc⟩ hready
        · refine .inr
            ⟨fun hg hon => hoff hg ((henq.onList hd hbefore).mpr hon), d, hd, le_refl d, hdue, hesp⟩
    · rintro (⟨x, hx, hrun⟩ | ⟨hoff, -⟩)
      · rcases henq.before hd hx with hx | hx
        · exact .inl ⟨x, hx, hrun⟩
        · exact .inl ⟨d, hx, hready⟩
      · exact .inl ⟨d, henq.before_self hd hoff, hready⟩
  · simp only [before_congr hsame, onList_congr hsame]
    refine or_congr Iff.rfl (and_congr Iff.rfl (exists_congr fun x => and_congr Iff.rfl ?_))
    by_cases hx : x = d
    · subst hx
      exact iff_of_false (fun h => absurd h.1 (by omega)) fun h => h.2.2 hesp
    · rw [(hother x hx).2.1, (hother x hx).2.2.1, hnext x hx]

structure PolledFor (goes : Prop) (c : Nat) (k k' : Kernel) : Prop where
  ahead : k'.Ahead goes c ↔ k.Promised goes c (timerUptimeMs k) 0
  onList : k'.Ahead True c ∨ (k'.OnList c ↔ k.OnList c)

theorem promised_succ
    (hother : ∀ x, x ≠ c → ((k'.sched.slots x).Runnable ↔ (k.sched.slots x).Runnable) ∧
      (k'.processes x).due now = (k.processes x).due now ∧
      (k'.processes x).cpuState = (k.processes x).cpuState)
    (hsame : ∀ u x, k'.Leads u x ↔ k.Leads u x) (hn : n = c ∨ (k.processes n).due now = false) :
    k'.Promised goes c now (n + 1) ↔ k.Promised goes c now n := by
  have hnext : ∀ x, x ≠ c →
      (n + 1 ≤ x ∧ (k'.processes x).due now = true ↔ n ≤ x ∧ (k.processes x).due now = true) := by
    intro x hx
    rw [(hother x hx).2.1]
    rcases Nat.lt_trichotomy n x with hlt | rfl | hgt
    · exact and_congr_left fun _ => by omega
    · rw [hn.resolve_left hx]
      simp
    · exact iff_of_false (fun h => absurd h.1 (by omega)) fun h => absurd h.1 (by omega)
  unfold Kernel.Promised
  simp only [before_congr hsame, onList_congr hsame]
  refine or_congr (exists_congr fun x => and_congr_right fun hx => ?_)
    (and_congr_right fun _ => exists_congr fun x => and_congr_right fun hx => ?_)
  · obtain ⟨u, -, -, hxc⟩ := hx
    rw [hnext x hxc, (hother x hxc).1]
  · rw [← and_assoc, ← and_assoc, hnext x hx, (hother x hx).2.2]

theorem poll_polledFor (hc : k.current = .slot c)
    (hbound : ∀ i, (k.processes i).allocated = true → i < k.processCount)
    (h : processPollTimeouts k = .ok k') :
    PolledFor goes c k k' := by
  have hloop : k'.current = k.current ∧
      (k'.Promised goes c (timerUptimeMs k) k.processCount ↔ k.Promised goes c (timerUptimeMs k) 0) ∧
      (k'.Ahead True c ∨ (k'.OnList c ↔ k.OnList c)) := by
    refine forRangeE_ok (fun n s => s.current = k.current ∧
      (s.Promised goes c (timerUptimeMs k) n ↔ k.Promised goes c (timerUptimeMs k) 0) ∧
      (s.Ahead True c ∨ (s.OnList c ↔ k.OnList c))) ⟨rfl, Iff.rfl, .inr Iff.rfl⟩
        (fun n _ s s' hs hstep => ?_) h
    obtain ⟨hcur, hpromised, hon⟩ := hs
    rw [← hpromised]
    rcases pollSlot_inv hstep with ⟨hd, rfl⟩ | ⟨hd, hnc, rfl⟩ | ⟨hd, hnc, s1, hw, -, -⟩
    · exact ⟨hcur, promised_succ (fun _ _ => ⟨Iff.rfl, rfl, rfl⟩) (fun _ _ => Iff.rfl) (.inr hd), hon⟩
    · obtain rfl : n = c := PcbRef.slot.inj (hnc.symm.trans (hcur.trans hc))
      have hsame : SameList s (s.modify n fun p =>
          { p with futexKey := 0, futexExpected := 0, futexDeadline := 0, state := .running }) :=
        sameList_modify (by simp [Slot.Runnable, Pcb.slot, (due_blocked hd).2]) rfl
      refine ⟨hcur, promised_succ (fun x hx => ⟨hsame.runnable x, ?_, ?_⟩) hsame.leads (.inl rfl), ?_⟩
      · rw [modify_ne _ _ hx]
      · rw [modify_ne _ _ hx]
      · rw [onList_congr hsame.leads]
        refine hon.imp_left ?_
        rintro ⟨x, hx, hrun⟩
        exact ⟨x, (before_congr hsame.leads).mpr hx, (hsame.runnable x).mpr hrun⟩
    · have hne : n ≠ c := by
        rintro rfl
        exact hnc (hcur.trans hc)
      have ha := (due_blocked hd).1
      refine ⟨?_, hw.promised hd hne, ?_⟩
      · rw [(schedulerAdd_relinks hw.2.choose_spec).marks.current, hw.1.current]
        exact hcur
      · rcases hon with hahead | hon
        · exact .inl (hw.ahead ha hne hahead)
        · rw [← hon]
          obtain ⟨hself, ⟨-, henq⟩ | ⟨-, hsame⟩⟩ := hw.list ha
          · by_cases hbefore : s'.Before True c n
            · exact .inl ⟨n, hbefore, hself⟩
            · exact .inr (henq.onList hne hbefore)
          · exact .inr (onList_congr hsame)
  obtain ⟨-, hpromised, hon⟩ := hloop
  refine ⟨?_, hon⟩
  -- there is nobody due in the slots behind the table
  have hnone : ∀ d, k.processCount ≤ d → (k'.processes d).due (timerUptimeMs k) = true → False := by
    intro d hle hd
    have ha : (k'.processes d).allocated = (k.processes d).allocated :=
      (poll_marks h).kept (fun _ _ => rfl) d
    have := hbound d (ha.symm.trans (due_blocked hd).1)
    omega
  rw [← hpromised]
  constructor
  · rintro ⟨x, hx, hrun⟩
    exact .inl ⟨x, hx, .inl hrun⟩
  · rintro (⟨x, hx, hrun | ⟨hle, hd⟩⟩ | ⟨-, d, -, hle, hd, -⟩)
    · exact ⟨x, hx, hrun⟩
    · exact (hnone x hle hd).elim
    · exact (hnone d hle hd).elim

theorem poll_current_state (hc : k.current = .slot c) (hcount : c < k.processCount)
    (h : processPollTimeouts k = .ok k') :
    (k'.processes c).state = if (k.processes c).due (timerUptimeMs k) then .running
      else (k.processes c).state := by
  have hloop : k'.current = k.current ∧ (k.processCount ≤ c → (k'.processes c).due (timerUptimeMs k) =
      (k.processes c).due (timerUptimeMs k) ∧ (k'.processes c).state = (k.processes c).state) ∧
      (c < k.processCount → (k'.processes c).state =
        if (k.processes c).due (timerUptimeMs k) then .running else (k.processes c).state) := by
    refine forRangeE_ok (fun n s => s.current = k.current ∧
      (n ≤ c → (s.processes c).due (timerUptimeMs k) =
      (k.processes c).due (timerUptimeMs k) ∧ (s.processes c).state = (k.processes c).state) ∧
      (c < n → (s.processes c).state =
        if (k.processes c).due (timerUptimeMs k) then .running else (k.processes c).state))
      ⟨rfl, fun _ => ⟨rfl, rfl⟩, fun h => absurd h (Nat.not_lt_zero c)⟩ (fun n _ s s' hs hstep => ?_) h
    obtain ⟨hcur, hbefore, hafter⟩ := hs
    rcases pollSlot_inv hstep with ⟨hd, rfl⟩ | ⟨hd, hnc, rfl⟩ | ⟨hd, hnc, s1, hw, -, -⟩
    · refine ⟨hcur, fun hle => hbefore (by omega), fun hlt => ?_⟩
      rcases Nat.lt_or_eq_of_le (Nat.le_of_lt_succ hlt) with hlt | rfl
      · exact hafter hlt
      · obtain ⟨hdue, hstate⟩ := hbefore le_rfl
        rw [← hdue, hd, hstate]
        rfl
    · obtain rfl : n = c := PcbRef.slot.inj (hnc.symm.trans (hcur.trans hc))
      refine ⟨hcur, fun hle => absurd hle (by omega), fun _ => ?_⟩
      rw [modify_self, ← (hbefore le_rfl).1, hd]
      rfl
    · have hne : c ≠ n := by
        rintro rfl
        exact hnc (hcur.trans hc)
      obtain ⟨-, hdue, -, hstate⟩ := hw.other (timerUptimeMs k) hne
      rw [hdue, hstate]
      refine ⟨?_, fun hle => hbefore (by omega), fun hlt => hafter (by omega)⟩
      rw [(schedulerAdd_relinks hw.2.choose_spec).marks.current, hw.1.current]
      exact hcur
  exact hloop.2.2 hcount

theorem requeue_list (ha : (k.processes c).allocated = true) (h : requeue (.slot c) k = .ok k') :
    (k'.processes c).state =
      (if (k.processes c).state = .running then .ready else (k.processes c).state) ∧
      (∀ x, x ≠ c → ((k'.sched.slots x).Runnable ↔ (k.sched.slots x).Runnable)) ∧
      ((k.processes c).state = .running ∧ (k.processes c).cpuState.esp ≠ 0 ∧ Enqueued c k k' ∨
        ¬((k.processes c).state = .running ∧ (k.processes c).cpuState.esp ≠ 0) ∧
        ∀ u x, k'.Leads u x ↔ k.Leads u x) := by
  unfold requeue at h
  dsimp only at h
  by_cases hrun : (k.processes c).state = .running
  · rw [if_pos hrun] at h ⊢
    have hsched :
        (k.modify c fun p => { p with state := .ready }).sched = k.sched.setState c .ready :=
        sched_modify k c _
    have hself := modify_self k c fun p => { p with state := .ready }
    generalize (k.modify c fun p => { p with state := .ready }) = k1 at h hsched hself
    have hleads : ∀ u x, k1.Leads u x ↔ k.Leads u x := by
      refine leads_congr ?_ (congrArg Sched.readyHead hsched)
      rw [hsched, setState_next]
    have hlinks := enqueue_relinks h
    refine ⟨?_, fun x hx => ?_, ?_⟩
    · obtain ⟨next, head, hk⟩ := hlinks
      rw [hk]
      exact congrArg Pcb.state hself
    · rw [relink_runnable hlinks, hsched, setState_slots_ne _ _ hx]
    · by_cases hesp : (k.processes c).cpuState.esp = 0
      · dsimp only [enqueue] at h
        rw [if_pos (by simp [hself, hesp])] at h
        cases h
        exact .inr ⟨fun hq => hq.2 hesp, hleads⟩
      · have hq := enqueue_enqueued (by rw [hself]; exact ha) (by rw [hself]; nofun)
            (by rw [hself]; exact hesp) h
        refine .inl ⟨hrun, hesp, fun u x hcu hu => hq.keeps u x hcu ((hleads u x).mpr hu), hq.leads,
          fun u x hcu hu => ?_⟩
        rcases hq.new u x hcu hu with hold | ⟨hx, hall⟩
        · exact .inl ((hleads u x).mp hold)
        · exact .inr ⟨hx, fun y hy => hall y ((onList_congr hleads).mpr hy)⟩
  · rw [if_neg hrun] at h
    cases h
    exact ⟨(if_neg hrun).symm, fun _ _ => Iff.rfl, .inr ⟨fun h => hrun h.1, fun _ _ => Iff.rfl⟩⟩

theorem nextReady_ahead {m : PcbRef} (hgoes : goes ↔ (k.sched.slots c).Runnable)
    (h : nextReady k = .ok (m, k')) :
    k.Ahead goes c ↔ ∃ x, m = .slot x ∧ x ≠ c := by
  constructor
  · rintro ⟨x, ⟨u, hu, hcu, hxc⟩, hrun⟩
    cases m with
    | idle => exact absurd ⟨x, ⟨u, hu⟩, hrun⟩ (nextReady_idle h)
    | slot y =>
      refine ⟨y, rfl, ?_⟩
      rintro rfl
      obtain ⟨v, hv, hpre, hy⟩ := nextReady_first h
      rcases seg_fork hu hv with hxv | hyu | he
      · exact hpre x hxv hrun
      · exact hcu (hgoes.mpr hy) hyu
      · exact hxc he
  · rintro ⟨x, rfl, hxc⟩
    obtain ⟨v, hv, hpre, hx⟩ := nextReady_first h
    exact ⟨x, ⟨v, hv, fun hg hcv => hpre c hcv (hgoes.mp hg), hxc⟩, hx⟩

theorem requeue_ahead (ha : (k.processes c).allocated = true)
    (hgoes : (k.processes c).state = .running → goes) (h : requeue (.slot c) k = .ok k') :
    k'.Ahead goes c ↔ k.Ahead goes c := by
  obtain ⟨-, hrunnable, hlist⟩ := requeue_list ha h
  unfold Kernel.Ahead
  refine exists_congr fun x => ?_
  rcases hlist with ⟨hrun, -, henq⟩ | ⟨-, hsame⟩
  · have hg := hgoes hrun
    have hbefore : k'.Before goes c x ↔ k.Before goes c x := by
      constructor
      · rintro ⟨u, hu, hcu, hxc⟩
        exact ⟨u, (henq.new u x (hcu hg) hu).resolve_right fun he => hxc he.1, hcu, hxc⟩
      · rintro ⟨u, hu, hcu, hxc⟩
        exact ⟨u, henq.keeps u x (hcu hg) hu, hcu, hxc⟩
    rw [hbefore]
    exact and_congr_right fun ⟨_, _, _, hxc⟩ => hrunnable x hxc
  · rw [before_congr hsame]
    exact and_congr_right fun ⟨_, _, _, hxc⟩ => hrunnable x hxc

theorem requeue_onList (ha : (k.processes c).allocated = true) (h : requeue (.slot c) k = .ok k') :
    k'.OnList c ↔ k.OnList c ∨ (k.processes c).state = .running ∧ (k.processes c).cpuState.esp ≠ 0 := by
  obtain ⟨-, -, ⟨hrun, hesp, henq⟩ | ⟨hno, hsame⟩⟩ := requeue_list ha h
  · obtain ⟨u, -, hu⟩ := henq.leads
    exact iff_of_true ⟨u, hu⟩ (.inr ⟨hrun, hesp⟩)
  · rw [onList_congr hsame, or_iff_left hno]

theorem activate_mayGoOn (k : Kernel) (r : FramePtr) (c i : Nat) :
    MayGoOn c r (resumeFrame i (activate i k)) (activate i k) := by
  refine ⟨i, rfl, ?_, ?_, ?_⟩
  · simp [activate, Kernel.modify]
  · rfl
  · unfold resumeFrame
    cases hf : ((activate i k).processes i).interruptFrame with
    | none => exact .inr (.inl rfl)
    | some g => exact .inl rfl

/-! ## The two entries -/

def Kernel.Goes (k : Kernel) (c : Nat) : Prop :=
  (k.processes c).state = .running ∨ (k.processes c).state = .ready ∨
    (k.processes c).due (timerUptimeMs k) = true

/-- Before it comes to slot `c`, the list leads to another process that can run or is due; or
somebody who is due will be put on a list without `c`. If `c` does not go on, it may be passed. -/
def Kernel.NextOther (k : Kernel) (c : Nat) : Prop :=
  (∃ x, k.Before (k.Goes c) c x ∧
    ((k.sched.slots x).Runnable ∨ (k.processes x).due (timerUptimeMs k) = true)) ∨
  (k.Goes c → ¬k.OnList c) ∧
    ∃ d, d ≠ c ∧ (k.processes d).due (timerUptimeMs k) = true ∧ (k.processes d).cpuState.esp ≠ 0

def Kernel.KeepsOn (k : Kernel) (c : Nat) : Prop :=
  k.Goes c ∧ ¬k.OnList c ∧ ((k.processes c).state = .ready ∨ (k.processes c).cpuState.esp = 0) ∧
    k.vmm.currentSpace = (k.processes c).addressSpace

theorem nextOther_iff : k.NextOther c ↔ k.Promised (k.Goes c) c (timerUptimeMs k) 0 := by
  simp [Kernel.NextOther, Kernel.Promised]

/-- What `next_ready` finds in `k2`, after a tick in `k` that interrupts slot `c`. -/
structure AtNext (k k2 : Kernel) (c : Nat) : Prop where
  current : k2.current = .slot c
  allocated : (k2.processes c).allocated = true
  goes : k.Goes c ↔ (k2.processes c).state = .ready
  stops : (k2.processes c).state ≠ .running
  ahead : k2.Ahead (k.Goes c) c ↔ k.NextOther c
  onList : k.Goes c → ¬k.NextOther c →
    (k2.OnList c ↔ k.OnList c ∨ ¬((k.processes c).state = .ready ∨ (k.processes c).cpuState.esp = 0))
  space : k2.vmm.currentSpace = k.vmm.currentSpace
  ownSpace : (k2.processes c).addressSpace = (k.processes c).addressSpace

theorem stamp_slot (hc : k.current = .slot c) (r : FramePtr) :
    stamp r k = k.modify c fun p => { p with interruptFrame := some r, ticks := 0 } := by
  unfold stamp
  rw [hc]
  rfl

theorem SameList.ahead (h : SameList k k') : k'.Ahead goes c ↔ k.Ahead goes c :=
  exists_congr fun x => and_congr (before_congr h.leads) (h.runnable x)

theorem tick_atNext {k2 : Kernel} {r : FramePtr} (hinv : TableInv k) (hc : k.current = .slot c)
    (hpoll : processPollTimeouts k = .ok k1) (hreq : requeue k1.current (stamp r k1) = .ok k2) :
    AtNext k k2 c := by
  have hmarks := poll_marks hpoll
  have hc1 := hmarks.current.trans hc
  have ha := hinv.current c hc
  have hpolled : PolledFor (k.Goes c) c k k1 := poll_polledFor hc hinv.bound hpoll
  have hstate := poll_current_state hc (hinv.bound c ha) hpoll
  have ha1 : (k1.processes c).allocated = true := (hmarks.kept (fun _ _ => rfl) c).trans ha
  have hesp1 : (k1.processes c).cpuState = (k.processes c).cpuState := hmarks.kept (fun _ _ => rfl) c
  have hspace1 : (k1.processes c).addressSpace = (k.processes c).addressSpace :=
    hmarks.kept (fun _ _ => rfl) c
  have hgoes : k.Goes c ↔ (k1.processes c).state = .running ∨ (k1.processes c).state = .ready := by
    unfold Kernel.Goes
    rw [hstate]
    cases hd : (k.processes c).due (timerUptimeMs k) with
    | true => simp
    | false => simp
  have hsame := sameList_of_sched (sched_stamp r k1)
  have hself :
      (stamp r k1).processes c = { k1.processes c with interruptFrame := some r, ticks := 0 } := by
    rw [stamp_slot hc1, modify_self]
  have has : ((stamp r k1).processes c).allocated = true := by
    rw [hself]
    exact ha1
  rw [hc1] at hreq
  have hmarks2 := requeue_marks hreq
  obtain ⟨hstate2, -, -⟩ := requeue_list has hreq
  rw [hself] at hstate2
  dsimp only at hstate2
  refine ⟨?_, (hmarks2.kept (fun _ _ => rfl) c).trans has, ?_, ?_, ?_, fun hg hno => ?_, ?_, ?_⟩
  · rw [hmarks2.current, stamp_slot hc1]
    exact hc1
  · rw [hgoes, hstate2]
    split
    · rename_i hrun
      exact iff_of_true (.inl hrun) rfl
    · rename_i hrun
      exact or_iff_right hrun
  · rw [hstate2]
    split
    · nofun
    · assumption
  · have hrun : ((stamp r k1).processes c).state = .running → k.Goes c := fun hrun => by
      rw [hself] at hrun
      exact hgoes.mpr (.inl hrun)
    rw [requeue_ahead has hrun hreq, hsame.ahead, hpolled.ahead, nextOther_iff]
  · have hon := hpolled.onList.resolve_left fun ⟨x, ⟨u, hu, hcu, hxc⟩, hrun⟩ =>
      hno (nextOther_iff.mpr (hpolled.ahead.mp ⟨x, ⟨u, hu, fun _ => hcu trivial, hxc⟩, hrun⟩))
    rw [requeue_onList has hreq, onList_congr hsame.leads, hon, hself, hesp1]
    refine or_congr Iff.rfl ?_
    dsimp only
    rw [not_or]
    refine and_congr_left fun _ => ?_
    rw [hstate]
    rcases hg with hrun | hready | hd
    · rw [if_neg (by simp [Pcb.due, hrun]), hrun]
      exact iff_of_true rfl nofun
    · rw [if_neg (by simp [Pcb.due, hready]), hready]
      exact iff_of_false nofun fun h => h rfl
    · rw [if_pos hd, (due_blocked hd).2]
      exact iff_of_true rfl nofun
  · rw [hmarks2.vmm.current, stamp_slot hc1]
    exact hmarks.vmm.current
  · have hspace2 : (k2.processes c).addressSpace = ((stamp r k1).processes c).addressSpace :=
      hmarks2.kept (fun _ _ => rfl) c
    rw [hspace2, hself]
    exact hspace1

theorem tick_mayGoOn {r f : FramePtr} (hinv : TableInv k) (hc : k.current = .slot c)
    (h : schedulerTimerTick r k = .ok (f, k')) : MayGoOn c r f k' ↔ k.NextOther c ∨ k.KeepsOn c := by
  obtain ⟨k1, k2, m, k3, hpoll, hreq, hnext, hend⟩ :=
    tick_inv (fun _ => poll_ticks hinv.ticks hinv.idleTicks) h
  have hat := tick_atNext hinv hc hpoll hreq
  have hgoes : k.Goes c ↔ (k2.sched.slots c).Runnable :=
    hat.goes.trans ⟨fun h => ⟨hat.allocated, h⟩, fun h => h.2⟩
  have hother := hat.ahead.symm.trans (nextReady_ahead hgoes hnext)
  have hlinks := nextReady_relinks hnext
  have hc1 : k1.current = .slot c := (poll_marks hpoll).current.trans hc
  rw [hc1] at hend
  cases hend with
  | @other i hne =>
    refine iff_of_true (activate_mayGoOn k3 r c i)
      (.inl (hother.mpr ⟨i, rfl, fun he => hne (by rw [he])⟩))
  | again =>
    obtain ⟨u, hu, -, -, hready⟩ := nextReady_first hnext
    have hstate : (k'.processes c).state = .ready := by
      obtain ⟨next, head, hk⟩ := hlinks
      rw [hk]
      exact hready
    refine iff_of_false ?_ ?_
    · rintro ⟨i, hi, hrun, -⟩
      cases (hlinks.marks.current.trans hat.current).symm.trans hi
      rw [hstate] at hrun
      cases hrun
    · have hno : ¬k.NextOther c := fun h => by
        obtain ⟨x, hx, hxc⟩ := hother.mp h
        exact hxc (PcbRef.slot.inj hx).symm
      rintro (hnext | ⟨hg, hoff, hready, -⟩)
      · exact hno hnext
      · exact ((hat.onList hg hno).mp ⟨u, hu⟩).elim hoff fun h => h hready
  | none hne =>
    have hno : ¬k.NextOther c := fun h => by
      obtain ⟨x, hx, -⟩ := hother.mp h
      cases hx
    rw [or_iff_right hno]
    have hself : ∃ next, k3.processes c = { k2.processes c with next } := by
      obtain ⟨next, head, hk⟩ := hlinks
      exact ⟨next c, by rw [hk]; rfl⟩
    obtain ⟨next, hself⟩ := hself
    have hspace3 : k3.vmm.currentSpace = k.vmm.currentSpace := hlinks.marks.vmm.current.trans hat.space
    have hown3 : (k3.processes c).addressSpace = (k.processes c).addressSpace := by
      rw [hself]
      exact hat.ownSpace
    have hstate3 : (k3.processes c).state = (k2.processes c).state := by rw [hself]
    by_cases hg : k.Goes c
    · have hready : (k3.processes c).state = .ready := hstate3.trans (hat.goes.mp hg)
      have hrestore : restore (.slot c) k3 = k3.modify c fun p => { p with state := .running } :=
        if_pos ⟨nofun, hready⟩
      have hrunning := modify_self k3 c fun p => { p with state := .running }
      have hsettle :
          (settle (.slot c) (k3.modify c fun p => { p with state := .running })).current = .slot c :=
        if_pos (congrArg Pcb.state hrunning)
      have hown4 : ((k3.modify c fun p => { p with state := .running }).processes c).addressSpace =
          (k.processes c).addressSpace := by
        rw [hrunning]
        exact hown3
      have hoff : ¬k2.OnList c := fun hon => nextReady_idle hnext ⟨c, hon, hgoes.mp hg⟩
      rw [hat.onList hg hno, not_or, not_not] at hoff
      rw [hrestore]
      constructor
      · rintro ⟨i, hi, -, hspace, -⟩
        cases hsettle.symm.trans hi
        exact ⟨hg, hoff.1, hoff.2, hspace3.symm.trans (hspace.trans hown4)⟩
      · rintro ⟨-, -, -, hspace⟩
        exact ⟨c, hsettle, congrArg Pcb.state hrunning, hspace3.trans (hspace.trans hown4.symm),
          .inr (.inr ⟨rfl, rfl⟩)⟩
    · have hstop : (k3.processes c).state ≠ .ready := fun he => hg (hat.goes.mpr (hstate3.symm.trans he))
      have hrestore : restore (.slot c) k3 = k3 := if_neg fun h => hstop h.2
      have hsettle : (settle (.slot c) k3).current = .idle :=
        if_neg fun he => hat.stops (hstate3.symm.trans he)
      rw [hrestore]
      refine iff_of_false ?_ fun h => hg h.1
      rintro ⟨i, hi, -⟩
      cases hsettle.symm.trans hi

theorem block_mayGoOn {r f : FramePtr} (hc : k.current = .slot c)
    (hstop : (k.processes c).state = .blocked ∨ (k.processes c).state = .zombie)
    (h : schedulerBlockCurrent r k = .ok (f, k')) : MayGoOn c r f k' ↔ k.HasReady := by
  obtain ⟨n, k2, hnext, hend⟩ := block_inv h
  have hsame := suspend_sameList r k
  cases hend with
  | other i =>
    obtain ⟨u, hu, -, hrun⟩ := hsame.first (nextReady_first hnext)
    exact iff_of_true (activate_mayGoOn k2 r c i) ⟨i, ⟨u, hu⟩, hrun⟩
  | none k1 hk1 =>
    have hstate : (k2.processes c).state = (k.processes c).state := by
      obtain ⟨next, head, hk⟩ := nextReady_relinks hnext
      have hself : ((suspend r k).processes c).state = (k.processes c).state := by
        unfold suspend
        rw [hc]
        unfold Kernel.modifyRef
        rw [modify_self]
        exact if_neg (by rcases hstop with h | h <;> rw [h] <;> nofun)
      rw [hk]
      exact hself
    have hk2 : k1 = k2 := by
      rw [hk1, hc]
      refine if_neg fun ⟨_, hb, hz⟩ => ?_
      exact hstop.elim (fun he => hb (hstate.trans he)) fun he => hz (hstate.trans he)
    have hsettle : (settle (.slot c) k2).current = .idle := by
      refine if_neg fun hrun => ?_
      have hrun' := hstate.symm.trans hrun
      rcases hstop with he | he
      · cases he.symm.trans hrun'
      · cases he.symm.trans hrun'
    rw [hk2, hc]
    refine iff_of_false ?_ fun hready => nextReady_idle hnext (hsame.hasReady hready)
    rintro ⟨i, hi, -⟩
    cases hsettle.symm.trans hi

end

/-- In every state that is reached, an interrupt goes on with a process that may run exactly if
there is another one in time, or the one that was interrupted stays off the list. -/
theorem resumes_runnable_iff {o₀ o : Os} {ops : List OsOp} (h0 : o₀.kernel.Booted)
    (hrun : runs osStep o₀ ops = some o)
    {c : Nat} (hc : o.kernel.current = .slot c) (r : FramePtr) :
    (∀ f k', schedulerTimerTick r o.kernel = .ok (f, k') →
      (MayGoOn c r f k' ↔ o.kernel.NextOther c ∨ o.kernel.KeepsOn c)) ∧
    ((o.kernel.processes c).state = .blocked ∨ (o.kernel.processes c).state = .zombie →
      ∀ f k', schedulerBlockCurrent r o.kernel = .ok (f, k') → (MayGoOn c r f k' ↔ o.kernel.HasReady)) :=
  ⟨fun _ _ h => tick_mayGoOn (osRun_table h0 hrun) hc h, fun hstop _ _ h => block_mayGoOn hc hstop h⟩

def firstRuns (n : Nat) : List OsOp :=
  (List.range n).flatMap (fun i => [.createUser 0x400000, .add i]) ++ [.timerTick 0x9000 zeroRegisters]

theorem resumes_runnable_two : ∃ o f k', runs osStep coldOs (firstRuns 2) = some o ∧
    schedulerTimerTick (.stack 0x9000) o.kernel = .ok (f, k') ∧ MayGoOn 0 (.stack 0x9000) f k' := by
  have hend : ((runs osStep coldOs (firstRuns 2)).bind fun o =>
      (schedulerTimerTick (.stack 0x9000) o.kernel).toOption.map fun _ =>
        (o.kernel.current, o.kernel.readyHead,
        (o.kernel.processes 1).allocated, (o.kernel.processes 1).state)) =
          some (.slot 0, some 1, true, .ready) := by
    decide +kernel
  obtain ⟨o, ho, hend⟩ := Option.bind_eq_some_iff.mp hend
  obtain ⟨⟨f, k'⟩, htick, hview⟩ := Option.map_eq_some_iff.mp hend
  replace htick := toOption_eq_some htick
  simp only [Prod.mk.injEq] at hview
  obtain ⟨hc, hhead, ha, hready⟩ := hview
  refine ⟨o, f, k', ho, htick,
    ((resumes_runnable_iff coldOs_booted.kernel ho hc _).1 f k' htick).mpr (.inl (.inl ?_))⟩
  exact ⟨1, ⟨[], hhead, fun _ => List.not_mem_nil, by decide⟩, .inl ⟨ha, hready⟩⟩

/-- A process alone is interrupted and stays `READY`; one that exits alone goes on in its old frame. -/
theorem stopped_process_resumed :
    (∃ o f k', runs osStep coldOs (firstRuns 1) = some o ∧ o.kernel.current = .slot 0 ∧
      schedulerTimerTick (.stack 0x9000) o.kernel = .ok (f, k') ∧ ¬MayGoOn 0 (.stack 0x9000) f k') ∧
    ∃ o f k', runs osStep coldOs (firstRuns 1 ++ [.kernel (.exitWithStatus 257 0) rfl]) = some o ∧
      o.kernel.current = .slot 0 ∧ (o.kernel.processes 0).state = .zombie ∧
      schedulerBlockCurrent (.stack 0x9000) o.kernel = .ok (f, k') ∧ ¬MayGoOn 0 (.stack 0x9000) f k' := by
  have htick : ((runs osStep coldOs (firstRuns 1)).bind fun o =>
      (schedulerTimerTick (.stack 0x9000) o.kernel).toOption.map fun r => (o.kernel.current, r.2.current,
        (r.2.processes 0).state)) = some (.slot 0, .slot 0, .ready) := by
    decide +kernel
  have hblock : ((runs osStep coldOs (firstRuns 1 ++ [.kernel (.exitWithStatus 257 0) rfl])).bind fun o =>
      (schedulerBlockCurrent (.stack 0x9000) o.kernel).toOption.map fun r => (o.kernel.current,
        (o.kernel.processes 0).state, r.2.current)) = some (.slot 0, .zombie, .idle) := by
    decide +kernel
  obtain ⟨o, ho, hend⟩ := Option.bind_eq_some_iff.mp htick
  obtain ⟨⟨f, k'⟩, htick, hview⟩ := Option.map_eq_some_iff.mp hend
  obtain ⟨o2, ho2, hend2⟩ := Option.bind_eq_some_iff.mp hblock
  obtain ⟨⟨f2, k2⟩, hblock, hview2⟩ := Option.map_eq_some_iff.mp hend2
  simp only [Prod.mk.injEq] at hview hview2
  obtain ⟨hc, hcur, hready⟩ := hview
  obtain ⟨hc2, hzombie, hidle⟩ := hview2
  refine ⟨⟨o, f, k', ho, hc, toOption_eq_some htick, ?_⟩, o2, f2, k2, ho2, hc2, hzombie,
    toOption_eq_some hblock, ?_⟩
  · rintro ⟨i, hi, hrun, -⟩
    cases hcur.symm.trans hi
    cases hready.symm.trans hrun
  · rintro ⟨i, hi, -⟩
    cases hidle.symm.trans hi

end Ceblar
