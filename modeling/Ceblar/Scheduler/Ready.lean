import Ceblar.Kernel.Pids

/-! # The ready list in order

What it holds while no process is lost, and how the operations on processes keep it that way. -/

namespace Ceblar

open Function

/-! ## The list in order -/

/-- The ready list is `l`. It holds added processes that are ready, or were when they came on it,
and all of those but the current one. -/
structure ReadyInv (s : Sched) (added : Nat → Bool) (l : List Nat) : Prop where
  queue : Queue s l
  listed : ∀ i ∈ l, added i = true ∧ ((s.slots i).state = .ready ∨ (s.slots i).state = .zombie)
  ready : ∀ i, added i = true → (s.slots i).state = .ready → s.current ≠ .slot i → i ∈ l
  live : ∀ i, added i = true → (s.slots i).allocated = true ∧ (s.slots i).hasStack = true ∧ i < 32
  current : ∀ i, s.current = .slot i → added i = true
  begun : ∀ i, (s.slots i).state = .blocked ∨ (s.slots i).state = .running → added i = true

def Full (s : Sched) (l : List Nat) : Prop :=
  ∀ i, s.current = .slot i → (s.slots i).state = .ready → i ∈ l

section

variable {s s' : Sched} {added : Nat → Bool} {l : List Nat} {i j : Nat}

theorem ReadyInv.mem (h : ReadyInv s added l) (hf : Full s l) (ha : added i = true)
    (hs : (s.slots i).state = .ready) : i ∈ l := by
  by_cases hc : s.current = .slot i
  · exact hf i hc hs
  · exact h.ready i ha hs hc

theorem ReadyInv.not_mem (h : ReadyInv s added l) (hr : (s.slots i).state ≠ .ready)
    (hz : (s.slots i).state ≠ .zombie) : i ∉ l := fun hi => (h.listed i hi).2.elim hr hz

theorem set_slots_ne (s : Sched) (p : Slot) (h : j ≠ i) : (s.set i p).slots j = s.slots j := by
  simp [Sched.set, h]

theorem set_slots_eq (s : Sched) (i : Nat) (p : Slot) : (s.set i p).slots i = p := by
  simp [Sched.set]

theorem setState_slots_ne (s : Sched) (st : ProcState) (h : j ≠ i) :
    (s.setState i st).slots j = s.slots j :=
  set_slots_ne s _ h

theorem setState_slots_eq (s : Sched) (i : Nat) (st : ProcState) :
    (s.setState i st).slots i = { s.slots i with state := st } := set_slots_eq s i _

theorem ReadyInv.setState {st : ProcState} (h : ReadyInv s added l) (hst : st ≠ .ready)
    (hl : i ∈ l → st = .zombie) (hb : st = .blocked ∨ st = .running → added i = true) :
    ReadyInv (s.setState i st) added l := by
  refine ⟨h.queue.set_state i st, fun j hj => ⟨(h.listed j hj).1, ?_⟩, fun j ha hs hc => ?_,
    fun j ha => ?_, h.current, fun j hs => ?_⟩
  all_goals by_cases hji : j = i
  · subst hji
    rw [setState_slots_eq]
    exact .inr (hl hj)
  · rw [setState_slots_ne s st hji]
    exact (h.listed j hj).2
  · subst hji
    rw [setState_slots_eq] at hs
    exact absurd hs hst
  · rw [setState_slots_ne s st hji] at hs
    exact h.ready j ha hs hc
  · subst hji
    rw [setState_slots_eq]
    exact h.live j ha
  · rw [setState_slots_ne s st hji]
    exact h.live j ha
  · subst hji
    rw [setState_slots_eq] at hs
    exact hb hs
  · rw [setState_slots_ne s st hji] at hs
    exact h.begun j hs

theorem ReadyInv.set {p : Slot} (h : ReadyInv s added l) (ha : added i = false) (hp : p.state = .ready) :
    ReadyInv (s.set i p) added l := by
  have hne : ∀ j, added j = true → j ≠ i := by
    rintro j hj rfl
    rw [ha] at hj
    cases hj
  have hsame : ∀ j, added j = true → (s.set i p).slots j = s.slots j :=
    fun j hj => set_slots_ne s p (hne j hj)
  refine ⟨?_, fun j hj => ?_, fun j haj hs hc => ?_, fun j haj => ?_, h.current, fun j hs => ?_⟩
  · refine h.queue.congr rfl fun j hj => ?_
    exact congrArg Slot.next (hsame j (h.listed j hj).1)
  · obtain ⟨haj, hst⟩ := h.listed j hj
    rw [hsame j haj]
    exact ⟨haj, hst⟩
  · rw [hsame j haj] at hs
    exact h.ready j haj hs hc
  · rw [hsame j haj]
    exact h.live j haj
  · by_cases hji : j = i
    · subst hji
      rw [set_slots_eq, hp] at hs
      exact absurd hs (by decide)
    · rw [set_slots_ne s p hji] at hs
      exact h.begun j hs

structure Relinked (s s' : Sched) : Prop where
  current : s'.current = s.current
  state : ∀ i, (s'.slots i).state = (s.slots i).state
  allocated : ∀ i, (s'.slots i).allocated = (s.slots i).allocated
  hasStack : ∀ i, (s'.slots i).hasStack = (s.slots i).hasStack

theorem Relinks.relinked {k k' : Kernel} (h : Relinks k k') : Relinked k.sched k'.sched := by
  obtain ⟨n, h, rfl⟩ := h
  exact ⟨rfl, fun _ => rfl, fun _ => rfl, fun _ => rfl⟩

theorem ReadyInv.relist {l' : List Nat} {added' : Nat → Bool} (h : ReadyInv s added l)
    (hr : Relinked s s') (hq : Queue s' l') (hsub : ∀ i, added i = true → added' i = true)
    (hlisted : ∀ i ∈ l', added' i = true ∧ ((s.slots i).state = .ready ∨ (s.slots i).state = .zombie))
    (hready : ∀ i, added' i = true → (s.slots i).state = .ready → s.current ≠ .slot i → i ∈ l')
    (hadded : ∀ i, added' i = true → (s.slots i).allocated = true ∧
      (s.slots i).hasStack = true ∧ i < 32) :
    ReadyInv s' added' l' := by
  refine ⟨hq, fun i hi => ?_, fun i ha hs hc => ?_, fun i ha => ?_, fun i hc => ?_, fun i hs => ?_⟩
  · rw [hr.state]
    exact hlisted i hi
  · rw [hr.state] at hs
    rw [hr.current] at hc
    exact hready i ha hs hc
  · rw [hr.allocated, hr.hasStack]
    exact hadded i ha
  · rw [hr.current] at hc
    exact hsub i (h.current i hc)
  · rw [hr.state] at hs
    exact hsub i (h.begun i hs)

end

/-! ## Coming on the list -/

section

variable {k k1 k' : Kernel} {added : Nat → Bool} {l : List Nat} {i : Nat}

theorem schedulerAdd_spec (h : Queue k.sched l) (hl : i ∉ l) (hi : i < 32)
    (ha : (k.sched.slots i).allocated = true) (hz : (k.sched.slots i).state ≠ .zombie)
    (he : (k.sched.slots i).hasStack = true) :
    ∃ k', schedulerAdd i k = .ok (0, k') ∧ Queue k'.sched (l ++ [i]) := by
  have hesp : (k.processes i).cpuState.esp ≠ 0 := by simpa [Kernel.sched, Pcb.slot] using he
  have hal : (k.processes i).allocated = true := ha
  obtain ⟨k', hk, hq⟩ := enqueue_spec h hl hi hal hz hesp
  refine ⟨k', ?_, hq⟩
  unfold schedulerAdd
  rw [if_neg (by simpa [hal] using hesp), hk]
  rfl

theorem ReadyInv.wake_add (h : ReadyInv k.sched added l) (hw : Woken i k k1) :
    ∃ k', schedulerAdd i k1 = .ok (0, k') ∧ Queue k'.sched (l ++ [i]) := by
  have hblocked : (k.sched.slots i).state = .blocked := hw.blocked
  obtain ⟨ha, he, hi⟩ := h.live i (h.begun i (.inl hblocked))
  have hslot : k1.sched.slots i = { k.sched.slots i with state := .ready } := by
    rw [hw.sched, setState_slots_eq]
  have hq1 : Queue k1.sched l := by
    rw [hw.sched]
    exact h.queue.set_state i .ready
  refine schedulerAdd_spec hq1 (h.not_mem (by simp [hblocked]) (by simp [hblocked])) hi ?_ ?_ ?_
  · rw [hslot]
    exact ha
  · simp [hslot]
  · rw [hslot]
    exact he

theorem ReadyInv.wake (h : ReadyInv k.sched added l) (hw : WokenAndAdded i k k1 k') :
    ReadyInv k'.sched added (l ++ [i]) := by
  obtain ⟨hwoken, rc, hadd⟩ := hw
  have hblocked : (k.sched.slots i).state = .blocked := hwoken.blocked
  have hadded := h.begun i (.inl hblocked)
  have hl : i ∉ l := h.not_mem (by simp [hblocked]) (by simp [hblocked])
  obtain ⟨ha, he, hi⟩ := h.live i hadded
  have hslot : k1.sched.slots i = { k.sched.slots i with state := .ready } := by
    rw [hwoken.sched, setState_slots_eq]
  have hother : ∀ j, j ≠ i → k1.sched.slots j = k.sched.slots j := by
    intro j hj
    rw [hwoken.sched, setState_slots_ne _ _ hj]
  obtain ⟨k2, hk2, hq⟩ := h.wake_add hwoken
  rw [hadd] at hk2
  cases hk2
  have hcur : k1.sched.current = k.sched.current := hwoken.current
  have hr := (schedulerAdd_relinks hadd).relinked
  refine ⟨hq, fun j hj => ?_, fun j haj hs hc => ?_, fun j haj => ?_, fun j hc => ?_, fun j hs => ?_⟩
  · rw [hr.state]
    rcases List.mem_append.mp hj with hj | hj
    · rw [hother j fun he => hl (he ▸ hj)]
      exact h.listed j hj
    · obtain rfl := List.mem_singleton.mp hj
      rw [hslot]
      exact ⟨hadded, .inl rfl⟩
  · by_cases hji : j = i
    · simp [hji]
    · rw [hr.state, hother j hji] at hs
      rw [hr.current, hcur] at hc
      exact List.mem_append_left _ (h.ready j haj hs hc)
  · rw [hr.allocated, hr.hasStack]
    by_cases hji : j = i
    · subst hji
      rw [hslot]
      exact ⟨ha, he, hi⟩
    · rw [hother j hji]
      exact h.live j haj
  · rw [hr.current, hcur] at hc
    exact h.current j hc
  · rw [hr.state] at hs
    by_cases hji : j = i
    · subst hji
      exact hadded
    · rw [hother j hji] at hs
      exact h.begun j hs

/-- What was not added has not begun to run. -/
theorem ReadyInv.not_begun (h : ReadyInv k.sched added l) (hfresh : added i = false) :
    (k.sched.slots i).state = .ready ∨ (k.sched.slots i).state = .zombie := by
  have hbegun := h.begun i
  rw [hfresh] at hbegun
  cases hs : (k.sched.slots i).state <;> simp [hs] at hbegun ⊢

theorem schedulerAdd_zombie (ha : (k.sched.slots i).allocated = true)
    (he : (k.sched.slots i).hasStack = true) (hz : (k.sched.slots i).state = .zombie) :
    schedulerAdd i k = .ok (0, k) := by
  have hesp : (k.processes i).cpuState.esp ≠ 0 := by simpa [Kernel.sched, Pcb.slot] using he
  have hal : (k.processes i).allocated = true := ha
  have hst : (k.processes i).state = .zombie := hz
  simpa [schedulerAdd, enqueue, hal, hst] using hesp

theorem ReadyInv.enlist {rc : Int} (h : ReadyInv k.sched added l) (hfresh : added i = false)
    (hi : (k.processes i).allocated = true → i < 32) (hadd : schedulerAdd i k = .ok (rc, k')) :
    ∃ l', ReadyInv k'.sched (if rc = 0 then update added i true else added) l' := by
  by_cases hok : (k.sched.slots i).allocated = true ∧ (k.sched.slots i).hasStack = true
  · have hi : i < 32 := hi hok.1
    have hl : i ∉ l := by
      intro hmem
      have := (h.listed i hmem).1
      rw [hfresh] at this
      cases this
    have hkeep : ∀ j, added j = true → update added i true j = true := by
      intro j hj
      by_cases hji : j = i
      · subst hji
        simp
      · simpa [hji] using hj
    have hlive : ∀ j, update added i true j = true →
        (k.sched.slots j).allocated = true ∧ (k.sched.slots j).hasStack = true ∧ j < 32 := by
      intro j ha
      by_cases hji : j = i
      · subst hji
        exact ⟨hok.1, hok.2, hi⟩
      · rw [update_of_ne hji] at ha
        exact h.live j ha
    have hready : ∀ j, j ≠ i → update added i true j = true → (k.sched.slots j).state = .ready →
        k.sched.current ≠ .slot j → j ∈ l := by
      intro j hji ha hst hc
      rw [update_of_ne hji] at ha
      exact h.ready j ha hst hc
    rcases h.not_begun hfresh with hs | hz
    · obtain ⟨k2, hk2, hq⟩ := schedulerAdd_spec h.queue hl hi hok.1 (by simp [hs]) hok.2
      rw [hadd] at hk2
      cases hk2
      refine ⟨l ++ [i], h.relist (schedulerAdd_relinks hadd).relinked hq hkeep ?_ ?_ hlive⟩
      · intro j hj
        rcases List.mem_append.mp hj with hj | hj
        · obtain ⟨ha, hst⟩ := h.listed j hj
          exact ⟨hkeep j ha, hst⟩
        · obtain rfl := List.mem_singleton.mp hj
          exact ⟨by simp, .inl hs⟩
      · intro j ha hst hc
        by_cases hji : j = i
        · simp [hji]
        · exact List.mem_append_left _ (hready j hji ha hst hc)
    · -- it was killed before it was added
      rw [schedulerAdd_zombie hok.1 hok.2 hz] at hadd
      cases hadd
      refine ⟨l, h.relist (Relinks.refl k).relinked h.queue hkeep ?_ ?_ hlive⟩
      · exact fun j hj => ⟨hkeep j (h.listed j hj).1, (h.listed j hj).2⟩
      · intro j ha hst hc
        refine hready j ?_ ha hst hc
        rintro rfl
        rw [hz] at hst
        cases hst
  · -- it has no stack to run on
    have hrefused : schedulerAdd i k = .ok (-1, k) := by
      have hcond : ¬((k.processes i).allocated = true ∧ (k.processes i).cpuState.esp ≠ 0) := by
        simpa [Kernel.sched, Pcb.slot] using hok
      unfold schedulerAdd
      rw [if_pos]
      by_cases hal : (k.processes i).allocated = true
      · simpa [hal] using hcond
      · simp [hal]
    rw [hadd] at hrefused
    cases hrefused
    exact ⟨l, h⟩

theorem poll_ready (h : ReadyInv k.sched added l) (hpoll : processPollTimeouts k = .ok k') :
    ∃ l', ReadyInv k'.sched added l' ∧ (Full k.sched l → Full k'.sched l') := by
  refine forRangeE_ok (fun _ s => ∃ l', ReadyInv s.sched added l' ∧
    (Full k.sched l → Full s.sched l')) ⟨l, h, id⟩ (fun i _ s s' hs hstep => ?_) hpoll
  obtain ⟨l', h, hfull⟩ := hs
  rcases pollSlot_inv hstep with ⟨-, rfl⟩ | ⟨hd, hc, rfl⟩ | ⟨-, hc, k1, hw, -⟩
  · exact ⟨l', h, hfull⟩
  · have hblocked : (s.sched.slots i).state = .blocked := by
      unfold Pcb.due at hd
      simp only [Bool.and_eq_true, beq_iff_eq] at hd
      exact hd.1.1.1.2
    have hsched : (s.modify i fun p =>
        { p with futexKey := 0, futexExpected := 0, futexDeadline := 0, state := .running }).sched =
          s.sched.setState i .running := sched_modify _ _ _
    have hl : i ∉ l' := h.not_mem (by simp [hblocked]) (by simp [hblocked])
    refine ⟨l', ?_, fun _ j hj hst => ?_⟩
    · rw [hsched]
      exact h.setState (by decide) (fun hi => absurd hi hl) fun _ => h.begun i (.inl hblocked)
    · rw [hsched] at hj hst
      obtain rfl : i = j := by
        have hj' : s.current = .slot j := hj
        rw [hc] at hj'
        cases hj'
        rfl
      rw [setState_slots_eq] at hst
      cases hst
  · refine ⟨l' ++ [i], h.wake hw, fun hf j hj hst => ?_⟩
    have hr := (schedulerAdd_relinks hw.2.choose_spec).relinked
    have hcur : k1.sched.current = s.sched.current := hw.1.current
    rw [hr.current, hcur] at hj
    rw [hr.state, hw.1.sched] at hst
    have hji : j ≠ i := by
      rintro rfl
      exact hc hj
    rw [setState_slots_ne _ _ hji] at hst
    exact List.mem_append_left _ (hfull hf j hj hst)

theorem ready_rule (added : Nat → Bool) : WakeRule (fun k => ∃ l, ReadyInv k.sched added l) where
  wake := fun ⟨l, h⟩ hw => ⟨_, h.wake hw⟩
  zombie {k} i status := by
    rintro ⟨l, h⟩
    have hset : (k.modify i fun p => { p with state := .zombie, exitCode := status }).sched =
        k.sched.setState i .zombie := sched_modify k i _
    rw [hset]
    exact ⟨l, h.setState (by decide) (fun _ => rfl) (by simp)⟩
  orphan {k} i h := by
    rw [sched_modify_same]
    · exact h
    · exact fun _ => rfl
  pending {k} i _ h := by
    rw [sched_modify_same]
    · exact h
    · exact fun _ => rfl

theorem futexWake_ready {key count : Word} {rc : Int} (h : ReadyInv k.sched added l)
    (hwake : processFutexWake key count k = .ok (rc, k')) : ∃ l', ReadyInv k'.sched added l' :=
  (ready_rule added).futexWake ⟨l, h⟩ hwake

theorem exit_ready {pid status : Word} {rc : Int} (h : ReadyInv k.sched added l)
    (hexit : processExitWithStatus pid status k = .ok (rc, k')) : ∃ l', ReadyInv k'.sched added l' :=
  (ready_rule added).exit ⟨l, h⟩ hexit

theorem signal_ready {pid signal : Word} {rc : Int} (h : ReadyInv k.sched added l)
    (hsignal : processSendSignal pid signal k = .ok (rc, k')) : ∃ l', ReadyInv k'.sched added l' :=
  (ready_rule added).signal ⟨l, h⟩ hsignal

end

end Ceblar
