import Ceblar.Scheduler.Ready

/-! # Switches and the ready list

A switch loses the process that it leaves if that one is ready and not on the list.
-/

namespace Ceblar

section

variable {k k1 k2 k3 k' : Kernel} {added : Nat → Bool} {l rest : List Nat} {i c : Nat} {n : PcbRef}
    {r f : FramePtr}
variable {s : Sched}

theorem nextReady_picks (h : Queue k.sched l) (hn : nextReady k = .ok (n, k')) :
    ∃ rest, Queue k'.sched rest ∧ Picks k.sched l n rest := by
  obtain ⟨n', k1, rest, hn', hq, hp⟩ := nextReady_spec h
  rw [hn] at hn'
  cases hn'
  exact ⟨rest, hq, hp⟩

theorem ReadyInv.pick (h : ReadyInv k.sched added l) (hn : nextReady k = .ok (n, k'))
    (hq : Queue k'.sched rest) (hp : Picks k.sched l n rest)
    (hcur : ∀ i, n = .slot i → k.current = n) : ReadyInv k'.sched added rest := by
  have hlive : ∀ i, added i = true → (k.sched.slots i).state = .ready → (k.sched.slots i).Runnable :=
    fun i ha hs => ⟨(h.live i ha).1, hs⟩
  refine h.relist (nextReady_relinks hn).relinked hq (fun _ => id) (fun i hi => ?_)
    (fun i ha hs hc => ?_) h.live
  · cases hp with
    | none hl => simp at hi
    | found hpre hj => exact h.listed i (by simp [hi])
  · have hmem := h.ready i ha hs hc
    cases hp with
    | none hl => exact absurd (hlive i ha hs) (hl i hmem)
    | @found pre rest j hpre hj =>
      rcases List.mem_append.mp hmem with hm | hm
      · exact absurd (hlive i ha hs) (hpre i hm)
      · rcases List.mem_cons.mp hm with rfl | hm
        · exact absurd (hcur i rfl) hc
        · exact hm

theorem sched_activate (i : Nat) (k : Kernel) :
    (activate i k).sched = { k.sched.setState i .running with current := .slot i } := by
  have := sched_modify k i fun p => { p with state := .running }
  unfold activate
  exact congrArg (fun s : Sched => { s with current := .slot i }) this

theorem ReadyInv.activate (h : ReadyInv k.sched added l) (hf : Full k.sched l)
    (hn : nextReady k = .ok (.slot i, k')) (hq : Queue k'.sched rest)
    (hp : Picks k.sched l (.slot i) rest) :
    ReadyInv (activate i k').sched added rest := by
  have hr := (nextReady_relinks hn).relinked
  generalize hne : (PcbRef.slot i) = n at hp
  cases hp with
  | none hl => cases hne
  | @found pre rest x hpre hx =>
  obtain rfl : i = x := PcbRef.slot.inj hne
  have hnd := h.queue.linked.nodup
  rw [List.nodup_append, List.nodup_cons] at hnd
  have hother : ∀ j, j ≠ i → (Ceblar.activate i k').sched.slots j = k'.sched.slots j := by
    intro j hji
    rw [sched_activate]
    exact setState_slots_ne _ _ hji
  have hself : (Ceblar.activate i k').sched.slots i = { k'.sched.slots i with state := .running } := by
    rw [sched_activate]
    exact setState_slots_eq _ _ _
  have hadded : added i = true := (h.listed i (by simp)).1
  refine ⟨?_, fun j hj => ?_, fun j ha hs _ => ?_, fun j ha => ?_, fun j hc => ?_, fun j hs => ?_⟩
  · rw [sched_activate]
    exact (hq.set_state i .running).congr rfl fun j _ => rfl
  · rw [hother j (by rintro rfl; exact hnd.2.1.1 hj), hr.state]
    exact h.listed j (by simp [hj])
  · by_cases hji : j = i
    · subst hji
      rw [hself] at hs
      cases hs
    · rw [hother j hji, hr.state] at hs
      rcases List.mem_append.mp (h.mem hf ha hs) with hm | hm
      · exact absurd ⟨(h.live j ha).1, hs⟩ (hpre j hm)
      · rcases List.mem_cons.mp hm with rfl | hm
        · exact absurd rfl hji
        · exact hm
  · by_cases hji : j = i
    · subst hji
      rw [hself, hr.allocated, hr.hasStack]
      exact h.live j ha
    · rw [hother j hji, hr.allocated, hr.hasStack]
      exact h.live j ha
  · cases hc
    exact hadded
  · by_cases hji : j = i
    · subst hji
      exact hadded
    · rw [hother j hji, hr.state] at hs
      exact h.begun j hs

theorem ReadyInv.idle (h : ReadyInv s added l) (hf : Full s l) :
    ReadyInv { s with current := .idle } added l :=
  ⟨⟨h.queue.linked, h.queue.bound⟩, h.listed, fun _ ha hs _ => h.mem hf ha hs, h.live,
    fun _ hc => (nomatch hc), h.begun⟩

theorem sched_modifyRef_same (k : Kernel) (ref : PcbRef) {g : Pcb → Pcb} (h : ∀ p, (g p).slot = p.slot) :
    (k.modifyRef g ref).sched = k.sched := by
  cases ref with
  | idle => rfl
  | slot i => exact sched_modify_same k i h

theorem sched_stamp (r : FramePtr) (k : Kernel) : (stamp r k).sched = k.sched :=
  sched_modifyRef_same k k.current fun _ => rfl

theorem ReadyInv.preempt (h : ReadyInv s added l) (hc : s.current = .slot c) :
    ReadyInv (s.setState c .ready) added l := by
  refine ⟨h.queue.set_state c .ready, fun j hj => ⟨(h.listed j hj).1, ?_⟩, fun j ha hs hne => ?_,
    fun j ha => ?_, h.current, fun j hs => ?_⟩
  all_goals by_cases hji : j = c
  · subst hji
    rw [setState_slots_eq]
    exact .inl rfl
  · rw [setState_slots_ne _ _ hji]
    exact (h.listed j hj).2
  · subst hji
    exact absurd hc hne
  · rw [setState_slots_ne _ _ hji] at hs
    exact h.ready j ha hs hne
  · subst hji
    rw [setState_slots_eq]
    exact h.live j ha
  · rw [setState_slots_ne _ _ hji]
    exact h.live j ha
  · subst hji
    rw [setState_slots_eq] at hs
    simp at hs
  · rw [setState_slots_ne _ _ hji] at hs
    exact h.begun j hs

theorem enqueue_ready (h : ReadyInv k.sched added l) (hl : c ∉ l) (hc : k.current = .slot c)
    (hs : (k.sched.slots c).state = .ready) (hq : enqueue c k = .ok k') :
    ReadyInv k'.sched added (l ++ [c]) := by
  have hadded := h.current c hc
  obtain ⟨ha, he, hb⟩ := h.live c hadded
  have hstate : (k.processes c).state = .ready := hs
  obtain ⟨k2, hk2, hqueue⟩ := enqueue_spec h.queue hl hb ha (by simp [hstate])
    (by simpa [Kernel.sched, Pcb.slot] using he)
  rw [hq] at hk2
  cases hk2
  refine h.relist (enqueue_relinks hq).relinked hqueue (fun _ => id) (fun j hj => ?_)
    (fun j haj hst hne => ?_) h.live
  · rcases List.mem_append.mp hj with hj | hj
    · exact h.listed j hj
    · obtain rfl := List.mem_singleton.mp hj
      exact ⟨hadded, .inl hs⟩
  · exact List.mem_append_left _ (h.ready j haj hst hne)

theorem requeue_ready (h : ReadyInv k.sched added l) (hf : Full k.sched l)
    (hreq : requeue k.current k = .ok k') :
    ∃ l', ReadyInv k'.sched added l' ∧ Full k'.sched l' ∧ k'.current = k.current ∧
      ∀ c, k'.current = .slot c → (k'.sched.slots c).state ≠ .running := by
  cases hc : k.current with
  | idle =>
    rw [hc] at hreq
    cases hreq
    refine ⟨l, h, hf, hc, fun c hc' => ?_⟩
    rw [hc] at hc'
    cases hc'
  | slot c =>
    rw [hc] at hreq
    dsimp only [requeue] at hreq
    split at hreq
    · rename_i hs
      have hstate : (k.sched.slots c).state = .running := hs
      have hl : c ∉ l := h.not_mem (by simp [hstate]) (by simp [hstate])
      generalize hk1 : (k.modify c fun p => { p with state := .ready }) = k1 at hreq
      have hsched : k1.sched = k.sched.setState c .ready := by
        rw [← hk1]
        exact sched_modify k c _
      have hcur : k1.current = .slot c := by
        rw [← hk1]
        exact hc
      have hready : (k1.sched.slots c).state = .ready := by rw [hsched, setState_slots_eq]
      have h1 : ReadyInv k1.sched added l := hsched ▸ h.preempt hc
      have hr := (enqueue_relinks hreq).relinked
      have hcur' : k'.current = .slot c := hr.current.trans hcur
      refine ⟨l ++ [c], enqueue_ready h1 hl hcur hready hreq, fun j hj _ => ?_, hcur', fun j hj => ?_⟩
      · cases hcur'.symm.trans hj
        simp
      · cases hcur'.symm.trans hj
        rw [hr.state, hready]
        decide
    · rename_i hs
      cases hreq
      refine ⟨l, h, hf, hc, fun j hj => ?_⟩
      cases hc.symm.trans hj
      exact hs

theorem sched_settle (ref : PcbRef) (k : Kernel) :
    (settle ref k).sched =
      { k.sched with current := if (k.pcb ref).state = .running then ref else .idle } := rfl

theorem ReadyInv.settle (h : ReadyInv k.sched added []) (hc : k.current = .slot c)
    (hrun : (k.sched.slots c).state ≠ .running) (hready : (k.sched.slots c).state ≠ .ready) :
    ReadyInv (settle (.slot c) k).sched added [] := by
  have hfull : Full k.sched [] := by
    intro j hj hs
    cases hc.symm.trans hj
    exact absurd hs hready
  have hpcb : (k.pcb (.slot c)).state ≠ .running := hrun
  rw [sched_settle, if_neg hpcb]
  exact h.idle hfull

theorem ReadyInv.resume (h : ReadyInv k.sched added []) (hc : k.current = .slot c) :
    ReadyInv (Ceblar.settle (.slot c)
      (k.modifyRef (fun p => { p with state := .running }) (.slot c))).sched added [] := by
  have hmod :
      (k.modifyRef (fun p => { p with state := .running }) (.slot c)).sched =
        k.sched.setState c .running :=
    sched_modify k c fun p => { p with state := .running }
  have hcur : (k.sched.setState c .running).current = .slot c := hc
  rw [sched_settle, modifyRef_pcb, if_pos rfl, hmod, ← hcur]
  exact h.setState (by decide) (by simp) fun _ => h.current c hc

theorem poll_idle (hdue : ∀ i < k.processCount, (k.processes i).due (timerUptimeMs k) = false)
    (hpoll : processPollTimeouts k = .ok k') : k' = k := by
  refine forRangeE_ok (fun _ s => s = k) rfl (fun i hi s s' hs hstep => ?_) hpoll
  subst hs
  unfold pollSlot at hstep
  rw [if_neg (by simp [hdue i hi])] at hstep
  exact (Except.ok.inj hstep).symm

def Alone (s : Sched) (l : List Nat) : Prop := ∀ i ∈ l, ¬(s.slots i).Runnable

theorem Alone.picks (h : Alone s l) (hp : Picks s l n rest) : n = .idle ∧ rest = [] := by
  cases hp with
  | none hl => exact ⟨rfl, rfl⟩
  | found hpre hi => exact absurd hi (h _ (by simp))

theorem not_full (h : ¬Full s l) : ∃ c, s.current = .slot c ∧ (s.slots c).state = .ready := by
  unfold Full at h
  push Not at h
  obtain ⟨c, hc, hs, -⟩ := h
  exact ⟨c, hc, hs⟩

theorem tick_ready (ht : TableInv k) (h : ReadyInv k.sched added l)
    (hok : ¬Full k.sched l → Alone k.sched l ∧ ∀ i < k.processCount,
      (k.processes i).due (timerUptimeMs k) = false)
    (htick : schedulerTimerTick r k = .ok (f, k')) : ∃ l', ReadyInv k'.sched added l' := by
  obtain ⟨k1, k2, n, k3, hpoll, hreq, hnext, hend⟩ :=
    tick_inv (fun _ => poll_ticks ht.ticks ht.idleTicks) htick
  by_cases hf : Full k.sched l
  · obtain ⟨l1, h1, hfull⟩ := poll_ready h hpoll
    have hf1 := hfull hf
    rw [← sched_stamp r] at h1 hf1
    have hcur1 : (stamp r k1).current = k1.current := modifyRef_current _ _ _
    rw [← hcur1] at hreq hend
    obtain ⟨l2, h2, hf2, hcur2, hnot⟩ := requeue_ready h1 hf1 hreq
    obtain ⟨rest, hq, hp⟩ := nextReady_picks h2.queue hnext
    have hr := (nextReady_relinks hnext).relinked
    rw [← hcur2] at hend
    cases hend with
    | again => exact ⟨rest, h2.pick hnext hq hp fun _ _ => rfl⟩
    | none hne =>
      cases hp with
      | none hl =>
        cases hc : k2.current with
        | idle => exact absurd hc hne
        | slot c =>
          have hc3 : k3.current = .slot c := hr.current.trans hc
          have hready : (k3.sched.slots c).state ≠ .ready := by
            rw [hr.state]
            intro hs
            exact hl c (hf2 c hc hs) ⟨(h2.live c (h2.current c hc)).1, hs⟩
          have h3 := h2.pick hnext hq (.none hl) fun _ hi => nomatch hi
          unfold restore
          rw [if_neg fun hcond => hready hcond.2]
          exact ⟨[], h3.settle hc3 (by rw [hr.state]; exact hnot c hc) hready⟩
    | other hne => exact ⟨rest, h2.activate hf2 hnext hq hp⟩
  · obtain ⟨halone, hdue⟩ := hok hf
    obtain rfl := poll_idle hdue hpoll
    obtain ⟨c, hc, hs⟩ := not_full hf
    have hc' : k1.current = .slot c := hc
    have hstate : ((stamp r k1).processes c).state = .ready := by
      have : (stamp r k1).sched.slots c = k1.sched.slots c := by rw [sched_stamp]
      exact (congrArg Slot.state this).trans hs
    rw [hc'] at hreq hend
    dsimp only [requeue] at hreq
    rw [if_neg (by simp [hstate])] at hreq
    obtain rfl := Except.ok.inj hreq
    rw [← sched_stamp r] at h halone
    obtain ⟨rest, hq, hp⟩ := nextReady_picks h.queue hnext
    have hr := (nextReady_relinks hnext).relinked
    obtain ⟨rfl, rfl⟩ := halone.picks hp
    have h3 := h.pick hnext hq hp fun _ hi => nomatch hi
    cases hend with
    | none hne =>
      have hc3 : k3.current = .slot c := hr.current.trans ((modifyRef_current _ _ _).trans hc')
      have hs3 : (k3.pcb (.slot c)).state = .ready := (hr.state c).trans hstate
      unfold restore
      rw [if_pos ⟨hne, hs3⟩]
      exact ⟨[], h3.resume hc3⟩

theorem suspend_ready (r : FramePtr) (h : ReadyInv k.sched added l) :
    ReadyInv (suspend r k).sched added l ∧
      ∀ c, k.current = .slot c → ((suspend r k).sched.slots c).state ≠ .running ∧
        (((suspend r k).sched.slots c).state = .ready ↔ (k.sched.slots c).state = .ready) := by
  unfold suspend
  cases hc : k.current with
  | idle => exact ⟨h, fun c hc' => nomatch hc'⟩
  | slot c =>
    have hsched : (k.modifyRef (fun p => { p with
        interruptFrame := some r, state := if p.state = .running then .blocked else p.state })
          (.slot c)).sched =
        k.sched.setState c
          (if (k.processes c).state = .running then .blocked else (k.processes c).state) :=
      sched_modify k c fun p => { p with
        interruptFrame := some r, state := if p.state = .running then .blocked else p.state }
    rw [hsched]
    by_cases hrun : (k.processes c).state = .running
    · have hstate : (k.sched.slots c).state = .running := hrun
      rw [if_pos hrun]
      refine ⟨h.setState (by decide) (fun hl => ?_) (fun _ => h.current c hc), fun j hj => ?_⟩
      · exact absurd hl (h.not_mem (by simp [hstate]) (by simp [hstate]))
      · cases hj
        rw [setState_slots_eq, hstate]
        exact ⟨by simp, by simp⟩
    · rw [if_neg hrun]
      have hsame : k.sched.setState c (k.processes c).state = k.sched := set_slots_self k.sched c
      rw [hsame]
      refine ⟨h, fun j hj => ?_⟩
      cases hj
      exact ⟨hrun, Iff.rfl⟩

theorem block_ready (h : ReadyInv k.sched added l) (hok : ¬Full k.sched l → Alone k.sched l)
    (hblock : schedulerBlockCurrent r k = .ok (f, k')) : ∃ l', ReadyInv k'.sched added l' := by
  obtain ⟨n, k2, hnext, hend⟩ := block_inv hblock
  obtain ⟨h1, hself⟩ := suspend_ready r h
  have hcur1 : (suspend r k).current = k.current := modifyRef_current _ _ _
  obtain ⟨rest, hq, hp⟩ := nextReady_picks h1.queue hnext
  have hr := (nextReady_relinks hnext).relinked
  have hcur2 : k2.current = k.current := hr.current.trans hcur1
  by_cases hf : Full k.sched l
  · have hf1 : Full (suspend r k).sched l := fun c hc hs =>
      hf c (hcur1.symm.trans hc) ((hself c (hcur1.symm.trans hc)).2.mp hs)
    cases hend with
    | none k1 hk1 =>
      cases hp with
      | none hl =>
        have h2 := h1.pick hnext hq (.none hl) fun _ hi => nomatch hi
        cases hc : k.current with
        | idle =>
          rw [hc, if_neg (by simp)] at hk1
          subst hk1
          refine ⟨[], ?_⟩
          rw [sched_settle, ite_self]
          exact h2.idle fun c hc' => nomatch (hcur2.trans hc).symm.trans hc'
        | slot c =>
          obtain ⟨hnot, -⟩ := hself c hc
          have hready : (k2.sched.slots c).state ≠ .ready := by
            rw [hr.state]
            intro hs
            have hc1 := hcur1.trans hc
            exact hl c (hf1 c hc1 hs) ⟨(h1.live c (h1.current c hc1)).1, hs⟩
          have hrun : (k2.sched.slots c).state ≠ .running := by
            rw [hr.state]
            exact hnot
          rw [hc, if_neg] at hk1
          · subst hk1
            exact ⟨[], h2.settle (hcur2.trans hc) hrun hready⟩
          · rintro ⟨-, hb, hz⟩
            have hstate : (k2.pcb (.slot c)).state = (k2.sched.slots c).state := rfl
            rw [hstate] at hb hz
            cases hs : (k2.sched.slots c).state <;> simp_all
    | other i => exact ⟨rest, h1.activate hf1 hnext hq hp⟩
  · obtain ⟨c, hc, hs⟩ := not_full hf
    have hc' : k.current = .slot c := hc
    obtain ⟨-, hready⟩ := hself c hc'
    have halone : Alone (suspend r k).sched l := by
      intro i hi hrun
      by_cases hic : i = c
      · subst hic
        exact hok hf i hi ⟨(h.live i (h.current i hc)).1, hs⟩
      · refine hok hf i hi ?_
        have hne : (suspend r k).processes i = k.processes i := by
          unfold suspend
          rw [hc']
          exact modifyRef_ne k _ hic
        have hsame : (suspend r k).sched.slots i = k.sched.slots i := congrArg Pcb.slot hne
        rwa [hsame] at hrun
    obtain ⟨rfl, rfl⟩ := halone.picks hp
    have h2 := h1.pick hnext hq hp fun _ hi => nomatch hi
    cases hend with
    | none k1 hk1 =>
      have hs2 : (k2.pcb (.slot c)).state = .ready := (hr.state c).trans (hready.mpr hs)
      rw [hc', if_pos (by simp [hs2])] at hk1
      subst hk1
      rw [hc']
      exact ⟨[], h2.resume (hcur2.trans hc')⟩

theorem ReadyInv.drop {p : Slot} (h : ReadyInv s added l) (hl : i ∉ l) (hc : s.current ≠ .slot i)
    (hp : p.state = .ready) : ReadyInv (s.set i p) (Function.update added i false) l := by
  have hkeep : ∀ j, Function.update added i false j = true → j ≠ i ∧ added j = true := by
    intro j hj
    by_cases hji : j = i
    · subst hji
      simp at hj
    · exact ⟨hji, by simpa [hji] using hj⟩
  have hback : ∀ j, j ≠ i → added j = true → Function.update added i false j = true := by
    intro j hji hj
    simpa [hji] using hj
  have hne : ∀ j ∈ l, j ≠ i := by
    rintro j hj rfl
    exact hl hj
  refine ⟨?_, fun j hj => ?_, fun j haj hs hcj => ?_, fun j haj => ?_, fun j hcj => ?_, fun j hs => ?_⟩
  · exact h.queue.congr rfl fun j hj => congrArg Slot.next (set_slots_ne s p (hne j hj))
  · obtain ⟨haj, hst⟩ := h.listed j hj
    rw [set_slots_ne s p (hne j hj)]
    exact ⟨hback j (hne j hj) haj, hst⟩
  · obtain ⟨hji, haj⟩ := hkeep j haj
    rw [set_slots_ne s p hji] at hs
    exact h.ready j haj hs hcj
  · obtain ⟨hji, haj⟩ := hkeep j haj
    rw [set_slots_ne s p hji]
    exact h.live j haj
  · refine hback j ?_ (h.current j hcj)
    rintro rfl
    exact hc hcj
  · by_cases hji : j = i
    · subst hji
      rw [set_slots_eq, hp] at hs
      exact absurd hs (by decide)
    · rw [set_slots_ne s p hji] at hs
      exact hback j hji (h.begun j hs)

theorem stop_ready {g : Pcb → Pcb} (h : ReadyInv k.sched added l) (hl : ∀ c, k.current = .slot c → c ∉ l)
    (hg : ∀ p, (g p).slot = { p.slot with state := .blocked }) :
    ReadyInv (k.modifyRef g k.current).sched added l := by
  cases hc : k.current with
  | idle => exact h
  | slot c =>
    have hsched : (k.modifyRef g (.slot c)).sched = k.sched.setState c .blocked := by
      refine (sched_modify k c g).trans ?_
      rw [hg]
      rfl
    rw [hsched]
    exact h.setState (by decide) (fun hm => absurd hm (hl c hc)) (fun _ => h.current c hc)

end

end Ceblar
