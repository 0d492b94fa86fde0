import Ceblar.Scheduler.NoneLost

/-! # Where the ready list leads

The list need not be in order here: a process that is enqueued while it is on the list cuts off
what follows it, and is then linked to itself.
-/

namespace Ceblar

/-- The links lead from `ready_head` through `u` to `i`. -/
def Kernel.Leads (k : Kernel) (u : List Nat) (i : Nat) : Prop := Seg k.sched.next k.readyHead u (some i)

def Kernel.First (k : Kernel) (i : Nat) : Prop :=
  ∃ u, k.Leads u i ∧ (∀ j ∈ u, ¬(k.sched.slots j).Runnable) ∧ (k.sched.slots i).Runnable

def Kernel.HasReady (k : Kernel) : Prop := ∃ i, k.OnList i ∧ (k.sched.slots i).Runnable

section

variable {k k1 k' : Kernel} {i x : Nat} {u : List Nat}

/-! ## Taking from the list -/

theorem popped_next (k : Kernel) (x j : Nat) (hj : j ≠ x) :
    (({ k with readyHead := (k.processes x).next } : Kernel).setNext x none).sched.next j =
      k.sched.next j := by
  rw [sched_setNext, next_setNext_ne _ _ hj]
  rfl

theorem popped_self (k : Kernel) (x : Nat) :
    (({ k with readyHead := (k.processes x).next } : Kernel).setNext x none).sched.next x = none := by
  rw [sched_setNext, next_setNext_self]

theorem leads_of_popped (hx : k.readyHead = some x)
    (h : (({ k with readyHead := (k.processes x).next } : Kernel).setNext x none).Leads u i) :
    k.Leads (x :: u) i := by
  have hxu : x ∉ u := not_mem_of_seg (popped_self k x) h
  refine ⟨hx, seg_congr (fun j hj => ?_) h⟩
  rw [popped_next k x j]
  rintro rfl
  exact hxu hj

theorem onList_popped (hx : k.readyHead = some x) (hi : i ≠ x) (h : k.OnList i) :
    (({ k with readyHead := (k.processes x).next } : Kernel).setNext x none).OnList i := by
  obtain ⟨u, hu⟩ := h
  rw [hx] at hu
  obtain ⟨v, hxv, hv⟩ := seg_leave hi hu
  refine ⟨v, seg_congr (fun j hj => popped_next k x j ?_) hv⟩
  rintro rfl
  exact hxv hj

theorem nextReadyLoop_first {fuel : Nat} {n : PcbRef} (h : nextReadyLoop fuel k = .ok (n, k')) :
    (∃ i, n = .slot i ∧ k.First i) ∨ n = .idle ∧ ¬k.HasReady := by
  induction fuel generalizing k with
  | zero => cases h
  | succ fuel ih =>
    rw [nextReadyLoop] at h
    split at h
    next hhead =>
      cases h
      refine .inr ⟨rfl, ?_⟩
      rintro ⟨i, ⟨u, hu⟩, -⟩
      rw [hhead] at hu
      cases u with
      | nil => cases hu
      | cons y u => exact absurd hu.1 (by simp)
    next x hhead =>
      have hpop := (relinks_head k (k.processes x).next).trans (relinks_setNext _ x none)
      dsimp only at h
      split at h
      next hrun =>
        cases h
        exact .inl ⟨x, rfl, [], hhead, by simp, (relink_runnable hpop x).mp hrun⟩
      next hrun =>
        have hxrun : ¬(k.sched.slots x).Runnable := mt (relink_runnable hpop x).mpr hrun
        rcases ih h with ⟨i, hn, v, hv, hpre, hi⟩ | ⟨hn, hnone⟩
        · refine .inl ⟨i, hn, x :: v, leads_of_popped hhead hv, ?_, (relink_runnable hpop i).mp hi⟩
          intro j hj
          rcases List.mem_cons.mp hj with rfl | hj
          · exact hxrun
          · exact mt (relink_runnable hpop j).mpr (hpre j hj)
        · refine .inr ⟨hn, ?_⟩
          rintro ⟨i, hon, hi⟩
          have hix : i ≠ x := by
            rintro rfl
            exact hxrun hi
          exact hnone ⟨i, onList_popped hhead hix hon, (relink_runnable hpop i).mpr hi⟩

theorem nextReady_first (h : nextReady k = .ok (.slot i, k')) : k.First i := by
  rcases nextReadyLoop_first h with ⟨j, hj, hfirst⟩ | ⟨hn, -⟩
  · cases hj
    exact hfirst
  · cases hn

theorem nextReady_idle (h : nextReady k = .ok (.idle, k')) : ¬k.HasReady := by
  rcases nextReadyLoop_first h with ⟨j, hj, -⟩ | ⟨-, hnone⟩
  · cases hj
  · exact hnone

theorem lastReady_linked {fuel q h : Nat} (hl : lastReady k fuel h = .ok q) :
    ∃ u, Linked k.sched.next (some h) (u ++ [q]) := by
  induction fuel generalizing h with
  | zero => cases hl
  | succ fuel ih =>
    rw [lastReady] at hl
    split at hl
    next hend =>
      cases hl
      exact ⟨[], rfl, hend⟩
    next n hn =>
      obtain ⟨u, hu⟩ := ih hl
      refine ⟨h :: u, rfl, ?_⟩
      have hnext : k.sched.next h = some n := hn
      rw [hnext]
      exact hu

/-- What `enqueue` does to the ways along the list: those that do not go through `i` stay, there is
one to `i`, and it is new only if it goes through the whole list. -/
structure Enqueued (i : Nat) (k k' : Kernel) : Prop where
  keeps : ∀ u x, i ∉ u → k.Leads u x → k'.Leads u x
  leads : ∃ u, i ∉ u ∧ k'.Leads u i
  new : ∀ u x, i ∉ u → k'.Leads u x → k.Leads u x ∨ x = i ∧ ∀ y, k.OnList y → y ∈ u

theorem enqueue_enqueued (ha : (k.processes i).allocated = true) (hz : (k.processes i).state ≠ .zombie)
    (he : (k.processes i).cpuState.esp ≠ 0) (h : enqueue i k = .ok k') : Enqueued i k k' := by
  rw [enqueue_eq ha hz he] at h
  have hne : ∀ j, j ≠ i → (k.setNext i none).sched.next j = k.sched.next j := fun j hj => by
    rw [sched_setNext, next_setNext_ne _ _ hj]
  have hself : (k.setNext i none).sched.next i = none := by
    rw [sched_setNext, next_setNext_self]
  have hhead : (k.setNext i none).readyHead = k.readyHead := rfl
  -- ways that do not go through `i` are the same with its link cleared
  have hcut : ∀ u x, i ∉ u → (k.Leads u x ↔ (k.setNext i none).Leads u x) := by
    intro u x hiu
    have hcongr : ∀ j ∈ u, (k.setNext i none).sched.next j = k.sched.next j := fun j hj => hne j (by
      rintro rfl
      exact hiu hj)
    exact ⟨seg_congr hcongr, seg_congr fun j hj => (hcongr j hj).symm⟩
  generalize k.setNext i none = k1 at h hself hhead hcut
  split at h
  next hnone =>
    cases h
    have hempty : ∀ u x, ¬k.Leads u x := by
      intro u x hu
      unfold Kernel.Leads at hu
      rw [← hhead, hnone] at hu
      cases u with
      | nil => cases hu
      | cons y u => exact absurd hu.1 (by simp)
    refine ⟨fun u x _ hu => absurd hu (hempty u x), ⟨[], by simp, rfl⟩, fun u x hiu hu => ?_⟩
    cases u with
    | nil => exact .inr ⟨(Option.some.inj hu).symm, fun y ⟨v, hv⟩ => absurd hv (hempty v y)⟩
    | cons y u =>
      obtain rfl : y = i := (Option.some.inj hu.1).symm
      exact absurd (List.mem_cons_self) hiu
  next a hsome =>
    obtain ⟨q, hlast, hk⟩ := bind_eq_ok.mp h
    cases hk
    obtain ⟨v, hv⟩ := lastReady_linked hlast
    have hlinked : Linked k1.sched.next k1.readyHead (v ++ [q]) := by
      rw [hsome]
      exact hv
    obtain ⟨b, hpre, hb, hend⟩ := seg_append.mp hlinked
    have hq : k1.sched.next q = none := hend
    have hne' : ∀ j, j ≠ q → (k1.setNext q (some i)).sched.next j = k1.sched.next j := fun j hj => by
      rw [sched_setNext, next_setNext_ne _ _ hj]
    have hqv : q ∉ v := fun hmem => (List.nodup_append.mp hlinked.nodup).2.2 q hmem q (by simp) rfl
    have hkeep : ∀ u x, k1.Leads u x → (k1.setNext q (some i)).Leads u x := fun u x hu =>
      seg_congr (fun j hj => hne' j (by
        rintro rfl
        exact not_mem_of_seg hq hu hj)) hu
    have hback : ∀ u x, q ∉ u → (k1.setNext q (some i)).Leads u x → k1.Leads u x := fun u x hqu hu =>
      seg_congr (fun j hj => (hne' j (by
        rintro rfl
        exact hqu hj)).symm) hu
    refine ⟨fun u x hiu hu => hkeep u x ((hcut u x hiu).mp hu), ?_, ?_⟩
    · -- `i` has no link, so it is the last one or not on the list
      have htoq : k1.Leads v q := by
        rw [hb] at hpre
        exact hpre
      have hiv : i ∉ v := not_mem_of_seg hself htoq
      by_cases hiq : i = q
      · exact ⟨v, hiv, hkeep v i (hiq ▸ htoq)⟩
      · refine ⟨v ++ [q], by simp [hiv, hiq], seg_append.mpr ⟨some q, hkeep v q htoq, rfl, ?_⟩⟩
        rw [sched_setNext, next_setNext_self]
        rfl
    · intro u x hiu hu
      by_cases hqu : q ∈ u
      · obtain ⟨w, t, rfl, hqw⟩ := List.eq_append_cons_of_mem hqu
        obtain ⟨c, hw, rfl, ht⟩ := seg_append.mp hu
        rw [sched_setNext, next_setNext_self] at ht
        cases t with
        | cons y t => exact absurd (by simp [← Option.some.inj ht.1]) hiu
        | nil =>
          have hwv : w ++ [q] = v ++ [q] :=
            Linked.unique (seg_append.mpr ⟨some q, hback w q hqw hw, rfl, hq⟩) hlinked
          refine .inr ⟨(Option.some.inj ht).symm, fun y ⟨t, hy⟩ => ?_⟩
          rw [hwv] at hiu ⊢
          by_cases hit : i ∈ t
          · obtain ⟨t1, t2, rfl, hit1⟩ := List.eq_append_cons_of_mem hit
            obtain ⟨c, ht1, rfl, -⟩ := seg_append.mp hy
            exact absurd (hlinked.mem_of_seg ((hcut t1 i hit1).mp ht1)) hiu
          · exact hlinked.mem_of_seg ((hcut t y hit).mp hy)
      · exact .inl ((hcut u x hiu).mpr (hback u x hqu hu))

structure Readied (i : Nat) (k k' : Kernel) : Prop where
  grow : ∀ j, (k.sched.slots j).Runnable → (k'.sched.slots j).Runnable
  new : ∀ j, (k'.sched.slots j).Runnable → (k.sched.slots j).Runnable ∨ j = i
  list : (k'.sched.slots i).Runnable ∧ Enqueued i k k' ∨ ∀ u x, k'.Leads u x ↔ k.Leads u x

theorem Readied.first (h : Readied i k k') (hx : k'.First x) : x = i ∨ k.First x := by
  obtain ⟨u, hu, hpre, hrun⟩ := hx
  by_cases hxi : x = i
  · exact .inl hxi
  · have hrun' := (h.new x hrun).resolve_right hxi
    refine .inr ⟨u, ?_, fun j hj => mt (h.grow j) (hpre j hj), hrun'⟩
    rcases h.list with ⟨hi, henq⟩ | hsame
    · have hiu : i ∉ u := fun hmem => hpre i hmem hi
      exact (henq.new u x hiu hu).resolve_right fun he => hxi he.1
    · exact (hsame u x).mp hu

theorem Readied.hasReady (h : Readied i k k') (hr : k.HasReady) : k'.HasReady := by
  rcases h.list with ⟨hi, henq⟩ | hsame
  · obtain ⟨u, -, hu⟩ := henq.leads
    exact ⟨i, ⟨u, hu⟩, hi⟩
  · obtain ⟨x, ⟨u, hu⟩, hx⟩ := hr
    exact ⟨x, ⟨u, (hsame u x).mpr hu⟩, h.grow x hx⟩

theorem leads_congr (hnext : k'.sched.next = k.sched.next) (hhead : k'.readyHead = k.readyHead)
    (u : List Nat) (x : Nat) :
    k'.Leads u x ↔ k.Leads u x := by
  unfold Kernel.Leads
  rw [hnext, hhead]

theorem setState_next (s : Sched) (i : Nat) (st : ProcState) : (s.setState i st).next = s.next := by
  funext j
  by_cases hj : j = i
  · subst hj
    simp [Sched.next, Sched.setState, Sched.set]
  · simp [Sched.next, Sched.setState, Sched.set, hj]

theorem readied_enqueue (hsched : k1.sched = k.sched.setState i .ready)
    (hend : enqueue i k1 = .ok k' ∨ k' = k1) : Readied i k k' := by
  have hlinks : Relinks k1 k' := by
    rcases hend with h | rfl
    · exact enqueue_relinks h
    · exact Relinks.refl _
  have hleads : ∀ u x, k1.Leads u x ↔ k.Leads u x := by
    refine leads_congr ?_ (congrArg Sched.readyHead hsched)
    rw [hsched, setState_next]
  have hself : k1.sched.slots i = { k.sched.slots i with state := .ready } := by
    rw [hsched, setState_slots_eq]
  have hother : ∀ j, j ≠ i → k1.sched.slots j = k.sched.slots j := fun j hj => by
    rw [hsched, setState_slots_ne _ _ hj]
  refine ⟨fun j hj => (relink_runnable hlinks j).mpr ?_, fun j hj => ?_, ?_⟩
  · by_cases hji : j = i
    · subst hji
      rw [hself]
      exact ⟨hj.1, rfl⟩
    · rw [hother j hji]
      exact hj
  · by_cases hji : j = i
    · exact .inr hji
    · rw [← hother j hji]
      exact .inl ((relink_runnable hlinks j).mp hj)
  · rcases hend with h | rfl
    · have hstate : (k1.processes i).state = .ready := congrArg Slot.state hself
      by_cases hok : (k1.processes i).allocated = true ∧ (k1.processes i).cpuState.esp ≠ 0
      · have henq := enqueue_enqueued hok.1 (by rw [hstate]; nofun) hok.2 h
        refine .inl ⟨(relink_runnable hlinks i).mpr ⟨hok.1, hstate⟩, ?_, henq.leads, ?_⟩
        · exact fun u x hiu hu => henq.keeps u x hiu ((hleads u x).mpr hu)
        · intro u x hiu hu
          rcases henq.new u x hiu hu with hu | ⟨hx, hall⟩
          · exact .inl ((hleads u x).mp hu)
          · exact .inr ⟨hx, fun y ⟨v, hv⟩ => hall y ⟨v, (hleads v y).mpr hv⟩⟩
      · have hrefused : (k1.processes i).allocated = false ∨ (k1.processes i).cpuState.esp = 0 := by
          cases ha : (k1.processes i).allocated with
          | false => exact .inl rfl
          | true => exact .inr (by_contra fun he => hok ⟨ha, he⟩)
        dsimp only [enqueue] at h
        rw [if_pos (by simpa [hstate] using hrefused)] at h
        cases h
        exact .inr hleads
    · exact .inr hleads

theorem WokenAndAdded.readied (h : WokenAndAdded i k k1 k') : Readied i k k' := by
  obtain ⟨hwoken, rc, hadd⟩ := h
  refine readied_enqueue hwoken.sched ?_
  unfold schedulerAdd at hadd
  split at hadd
  · cases hadd
    exact .inr rfl
  · obtain ⟨k2, henq, hk⟩ := bind_eq_ok.mp hadd
    cases hk
    exact .inl henq

/-! ## Waking the processes that are due -/

structure Polled (k k' : Kernel) : Prop where
  first : ∀ x, k'.First x → k.First x ∨ (k.processes x).due (timerUptimeMs k) = true ∧ k.current ≠ .slot x
  hasReady : k.HasReady → k'.HasReady

theorem due_blocked {p : Pcb} {now : Word} (h : p.due now = true) :
    p.allocated = true ∧ p.state = .blocked := by
  unfold Pcb.due at h
  simp only [Bool.and_eq_true, beq_iff_eq] at h
  exact h.1.1.1

structure SameList (k k' : Kernel) : Prop where
  leads : ∀ u x, k'.Leads u x ↔ k.Leads u x
  runnable : ∀ j, (k'.sched.slots j).Runnable ↔ (k.sched.slots j).Runnable

theorem sameList_of_sched (h : k'.sched = k.sched) : SameList k k' := by
  refine ⟨leads_congr (by rw [h]) (congrArg Sched.readyHead h), fun j => ?_⟩
  rw [h]

theorem SameList.first (h : SameList k k') (hi : k'.First i) : k.First i := by
  obtain ⟨u, hu, hpre, hrun⟩ := hi
  exact ⟨u, (h.leads u i).mp hu, fun j hj => mt (h.runnable j).mpr (hpre j hj), (h.runnable i).mp hrun⟩

theorem SameList.hasReady (h : SameList k k') (hr : k.HasReady) : k'.HasReady := by
  obtain ⟨i, ⟨u, hu⟩, hrun⟩ := hr
  exact ⟨i, ⟨u, (h.leads u i).mpr hu⟩, (h.runnable i).mpr hrun⟩

theorem sameList_modify {f : Pcb → Pcb}
    (hr : (f (k.processes i)).slot.Runnable ↔ (k.processes i).slot.Runnable)
    (hn : (f (k.processes i)).next = (k.processes i).next) : SameList k (k.modify i f) := by
  have hself : (k.modify i f).sched.slots i = (f (k.processes i)).slot := by
    rw [sched_modify, set_slots_eq]
  have hother : ∀ j, j ≠ i → (k.modify i f).sched.slots j = k.sched.slots j := fun j hj => by
    rw [sched_modify, set_slots_ne _ _ hj]
  refine ⟨leads_congr (funext fun j => ?_) rfl, fun j => ?_⟩
  all_goals by_cases hji : j = i
  · subst hji
    exact (congrArg Slot.next hself).trans hn
  · exact congrArg Slot.next (hother j hji)
  · subst hji
    rw [hself]
    exact hr
  · rw [hother j hji]

theorem poll_polled (h : processPollTimeouts k = .ok k') : Polled k k' := by
  -- the slots that are still to be looked at are as they were, up to their links
  suffices hloop : k'.current = k.current ∧ (∀ j, k.processCount ≤ j →
      (k'.processes j).due (timerUptimeMs k) = (k.processes j).due (timerUptimeMs k)) ∧
      Polled k k' from hloop.2.2
  refine forRangeE_ok (fun n s => s.current = k.current ∧ (∀ j, n ≤ j →
    (s.processes j).due (timerUptimeMs k) = (k.processes j).due (timerUptimeMs k)) ∧ Polled k s)
    ⟨rfl, fun _ _ => rfl, fun _ h => .inl h, id⟩ (fun i _ s s' hs hstep => ?_) h
  obtain ⟨hcur, hdue, hpolled⟩ := hs
  rcases pollSlot_inv hstep with ⟨-, rfl⟩ | ⟨hd, hc, rfl⟩ | ⟨hd, hc, k1, hw, -, -⟩
  · exact ⟨hcur, fun j hj => hdue j (by omega), hpolled⟩
  · refine ⟨hcur, fun j hj => ?_, ?_⟩
    · rw [modify_ne _ _ (by omega)]
      exact hdue j (by omega)
    · have hsame : SameList s (s.modify i fun p =>
          { p with futexKey := 0, futexExpected := 0, futexDeadline := 0, state := .running }) :=
        sameList_modify (by simp [Slot.Runnable, Pcb.slot, (due_blocked hd).2]) rfl
      exact ⟨fun x hx => hpolled.first x (hsame.first hx), fun hr => hsame.hasReady (hpolled.hasReady hr)⟩
  · have hready := hw.readied
    have hlinks := schedulerAdd_relinks hw.2.choose_spec
    refine ⟨?_, fun j hj => ?_, ?_, fun hr => hready.hasReady (hpolled.hasReady hr)⟩
    · obtain ⟨n, head, hk⟩ := hlinks
      rw [hk]
      exact hw.1.current.trans hcur
    · rw [← hdue j (by omega), ← hw.1.others j (by omega)]
      obtain ⟨n, head, hk⟩ := hlinks
      rw [hk]
      rfl
    · intro x hx
      rcases hready.first hx with rfl | hx
      · rw [← hdue x (by omega), ← hcur]
        exact .inr ⟨hd, hc⟩
      · exact hpolled.first x hx

end

end Ceblar
