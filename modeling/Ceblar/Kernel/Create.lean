import Ceblar.Kernel.Table

/-! # Creation

Every way to make a process claims the first free slot of the table and leaves the other slots
as they are. -/

namespace Ceblar

structure Claimed (k : Kernel) (j : Nat) (k' : Kernel) : Prop where
  bound : j < 32
  free : (k.processes j).allocated = false
  first : ∀ i < j, (k.processes i).allocated = true
  others : ∀ i, i ≠ j → k'.processes i = k.processes i
  idle : k'.idle = k.idle
  current : k'.current = k.current
  readyHead : k'.readyHead = k.readyHead
  state : (k'.processes j).state = .ready
  ticks : (k'.processes j).ticks = 0
  next : (k'.processes j).next = none
  generation : (k'.processes j).generation = nextGeneration (k.processes j).generation
  pid : (k'.processes j).pid = (k'.processes j).generation <<< 8 ||| BitVec.ofNat 32 (j + 1)
  parent : k.current ≠ .slot j → (k'.processes j).allocated = true →
    (k'.processes j).parentPid = 0 ∨ (k'.processes j).parentPid = (k.pcb k.current).pid
  count : k'.processCount =
    if (k'.processes j).allocated = true ∧ j = k.processCount then k.processCount + 1 else k.processCount
  frame : (k'.processes j).allocated = true → (k'.processes j).interruptFrame = none
  handlers : (k'.processes j).allocated = true → ∀ n, (k'.processes j).signalHandlers n = 0

section

variable {k k1 k' : Kernel} {j : Nat}

theorem Claimed.pcb_current (h : Claimed k j k') (hc : k.current ≠ .slot j) :
    k'.pcb k'.current = k.pcb k.current := by
  rw [h.current]
  cases hk : k.current with
  | idle => exact h.idle
  | slot i => exact h.others i fun he => hc (by rw [hk, he])

theorem Claimed.congr (h : Claimed k j k1) (hp : k'.processes = k1.processes)
    (hn : k'.processCount = k1.processCount) (hi : k'.idle = k1.idle) (hc : k'.current = k1.current)
    (hr : k'.readyHead = k1.readyHead) : Claimed k j k' := by
  obtain ⟨h1, h2, h3, h4, h5, h6, h7, h8, h9, h10, h11, h12, h13, h14, h15, h16⟩ := h
  refine ⟨h1, h2, h3, ?_, hi.trans h5, hc.trans h6, hr.trans h7, ?_, ?_, ?_, ?_, ?_, ?_, ?_, ?_, ?_⟩
  all_goals rw [hp]
  all_goals first | assumption | (rw [hn]; assumption)

theorem Claimed.modify (h : Claimed k j k1) {f : Pcb → Pcb}
    (hf : ∀ p, (f p).state = p.state ∧ (f p).ticks = p.ticks ∧ (f p).next = p.next ∧
      (f p).generation = p.generation ∧ (f p).pid = p.pid ∧ (f p).allocated = p.allocated ∧
      (f p).signalHandlers = p.signalHandlers ∧
      ((f p).interruptFrame = p.interruptFrame ∨ (f p).interruptFrame = none))
    (hparent : (f (k1.processes j)).parentPid = (k1.processes j).parentPid ∨
      (f (k1.processes j)).parentPid = (k1.pcb k1.current).pid) : Claimed k j (k1.modify j f) := by
  obtain ⟨e1, e2, e3, e4, e5, e6, e7, e8⟩ := hf (k1.processes j)
  have hself : (k1.modify j f).processes j = f (k1.processes j) := modify_self k1 j f
  refine ⟨h.bound, h.free, h.first, fun i hi => ?_, h.idle, h.current, h.readyHead, ?_, ?_, ?_, ?_,
    ?_, ?_, ?_, ?_, ?_⟩
  · rw [modify_ne _ _ hi]
    exact h.others i hi
  all_goals rw [hself]
  · exact e1.trans h.state
  · exact e2.trans h.ticks
  · exact e3.trans h.next
  · exact e4.trans h.generation
  · rw [e4, e5]
    exact h.pid
  · intro hne ha
    rcases hparent with he | he
    · rw [he]
      exact h.parent hne (e6 ▸ ha)
    · rw [← h.pcb_current hne]
      exact .inr he
  · rw [e6]
    exact h.count
  · intro ha
    rcases e8 with he | he
    · rw [he]
      exact h.frame (e6 ▸ ha)
    · exact he
  · intro ha
    rw [e7]
    exact h.handlers (e6 ▸ ha)

inductive Creation (k : Kernel) : Option Nat × Kernel → Prop
  | refused (vmm : Vmm) : Creation k (none, { k with vmm })
  | failed {j : Nat} {k' : Kernel} (h : Claimed k j k') : Creation k (none, k')
  | made {j : Nat} {k' : Kernel} (h : Claimed k j k') (ha : (k'.processes j).allocated = true) :
    Creation k (some j, k')

theorem Creation.slot {i : Nat} (h : Creation k (some i, k')) :
    Claimed k i k' ∧ (k'.processes i).allocated = true := by
  cases h with
  | made h ha => exact ⟨h, ha⟩

theorem find_free {j : Nat}
    (h : (List.range maxProcesses).find? (fun i => !(k.processes i).allocated) = some j) :
    j < 32 ∧ (k.processes j).allocated = false ∧ ∀ i < j, (k.processes i).allocated = true := by
  rw [List.find?_range_eq_some] at h
  simp only [List.mem_range, maxProcesses, Bool.not_eq_eq_eq_not, Bool.not_true, Bool.not_false] at h
  exact ⟨h.2.1, h.1, h.2.2⟩

theorem newPcb_creation (k : Kernel) : Creation k (newPcb k) := by
  unfold newPcb
  split
  · exact .refused k.vmm
  · rename_i j hj
    obtain ⟨hbound, hfree, hfirst⟩ := find_free hj
    dsimp only
    split
    · refine .failed ⟨hbound, hfree, hfirst, ?_, rfl, rfl, rfl, ?_, ?_, ?_, ?_, ?_, ?_, ?_, ?_, ?_⟩
      · intro i hi
        simp [Kernel.modify, hi]
      all_goals simp [Kernel.modify, Pcb.claim]
    · refine .made ⟨hbound, hfree, hfirst, ?_, rfl, rfl, rfl, ?_, ?_, ?_, ?_, ?_, ?_, ?_, ?_, ?_⟩ ?_
      · intro i hi
        simp [Kernel.modify, hi]
      all_goals simp [Kernel.modify, Pcb.claim, Pcb.reset]

theorem Claimed.vmm (h : Claimed k j k1) (m : Vmm) :
    Claimed k j { k1 with vmm := m } := h.congr rfl rfl rfl rfl rfl

theorem Claimed.frameFor (h : Claimed k j k1) (entry stack : Word) (user : Bool) :
    Claimed k j (frameFor j entry stack user k1) := by
  unfold Ceblar.frameFor
  have hframe (p : FramePtr) (r : Registers) : Claimed k j (k1.setFrame p r) :=
    h.congr rfl rfl rfl rfl rfl
  refine (hframe _ _).modify ?_ ?_
  · exact fun p => ⟨rfl, rfl, rfl, rfl, rfl, rfl, rfl, .inr rfl⟩
  · exact .inl rfl

theorem frameFor_allocated (entry stack : Word) (user : Bool) :
    ((frameFor j entry stack user k).processes j).allocated = (k.processes j).allocated := by
  simp [frameFor, Kernel.setFrame, Kernel.modify]

theorem createEntry_creation (entry : Word) (k : Kernel) : Creation k (processCreateEntry entry k) := by
  have hnew := newPcb_creation k
  unfold processCreateEntry
  generalize newPcb k = res at hnew
  obtain ⟨_ | i, k1⟩ := res
  · exact hnew
  · obtain ⟨h, ha⟩ := hnew.slot
    have h2 := h.modify (f := fun p =>
      { p with entryPoint := entry, cpuState := { p.cpuState with eip := entry, eflags := 0x202 } })
      (fun p => ⟨rfl, rfl, rfl, rfl, rfl, rfl, rfl, .inl rfl⟩) (.inl rfl)
    dsimp only
    split
    · exact .made h2 (by rw [modify_self]; exact ha)
    · refine .made (Claimed.frameFor (h2.modify ?_ ?_) _ _ _) ?_
      · exact fun p => ⟨rfl, rfl, rfl, rfl, rfl, rfl, rfl, .inl rfl⟩
      · exact .inl rfl
      · rw [frameFor_allocated, modify_self, modify_self]
        exact ha

theorem createThread_creation (entry : Word) (k : Kernel) : Creation k (processCreateThread entry k) := by
  have hentry := createEntry_creation entry k
  unfold processCreateThread
  dsimp only
  split
  · exact .refused k.vmm
  · generalize processCreateEntry entry k = res at hentry
    obtain ⟨_ | i, k1⟩ := res
    · exact hentry
    · obtain ⟨h, ha⟩ := hentry.slot
      refine .made ((h.vmm _).modify ?_ ?_) ?_
      · exact fun p => ⟨rfl, rfl, rfl, rfl, rfl, rfl, rfl, .inl rfl⟩
      · exact .inr rfl
      · rw [modify_self]
        exact ha

theorem createUser_creation (entry : Word) (k : Kernel) : Creation k (processCreateUser entry k) := by
  have hnew := newPcb_creation k
  unfold processCreateUser
  generalize newPcb k = res at hnew
  obtain ⟨_ | i, k1⟩ := res
  · exact hnew
  · obtain ⟨h, ha⟩ := hnew.slot
    dsimp only
    split
    · exact .failed h
    · exact .failed h
    · split
      · exact .failed (h.vmm _)
      · refine .made (Claimed.frameFor ((h.vmm _).modify ?_ ?_) _ _ _) ?_
        · exact fun p => ⟨rfl, rfl, rfl, rfl, rfl, rfl, rfl, .inl rfl⟩
        · exact .inl rfl
        · rw [frameFor_allocated, modify_self]
          exact ha

theorem createFromPath_creation (image : Option Loader) (k : Kernel) :
    Creation k (processCreateFromPath image k) := by
  have huser := createUser_creation 0 k
  unfold processCreateFromPath
  split
  · exact .refused k.vmm
  · generalize processCreateUser 0 k = res at huser
    obtain ⟨_ | i, k1⟩ := res
    · exact huser
    · obtain ⟨h, ha⟩ := huser.slot
      dsimp only
      split
      · exact .failed h
      · split
        · exact .failed (h.vmm _)
        · split
          · exact .failed (h.vmm _)
          · refine .made (Claimed.frameFor ((h.vmm _).modify ?_ ?_) _ _ _) ?_
            · exact fun p => ⟨rfl, rfl, rfl, rfl, rfl, rfl, rfl, .inl rfl⟩
            · exact .inl rfl
            · rw [frameFor_allocated, modify_self]
              exact ha

inductive Forked (k : Kernel) : Option Nat × Kernel → Prop
  | creation {res : Option Nat × Kernel} (h : Creation k res) : Forked k res
  | ended {j : Nat} {k1 k' : Kernel} {rc : Int} (h : Claimed k j k1)
    (ha : (k1.processes j).allocated = true)
      (hexit : processExitWithStatus (k1.processes j).pid 0 k1 = .ok (rc, k')) : Forked k (none, k')

theorem fork_inv {res : Option Nat × Kernel} (h : processFork k = .ok res) : Forked k res := by
  have hnew := newPcb_creation k
  unfold processFork at h
  generalize newPcb k = new at hnew h
  obtain ⟨_ | i, k1⟩ := new
  · cases h
    exact .creation hnew
  · obtain ⟨h1, ha⟩ := hnew.slot
    dsimp only at h
    generalize hk2 : k1.modify i _ = k2 at h
    have h2 : Claimed k i k2 := by
      rw [← hk2]
      refine h1.modify ?_ ?_
      · exact fun p => ⟨rfl, rfl, rfl, rfl, rfl, rfl, rfl, .inl rfl⟩
      · exact .inr rfl
    have ha2 : (k2.processes i).allocated = true := by
      rw [← hk2, modify_self]
      exact ha
    -- whatever the clone left, the child's frame is set up last
    have hframe : ∀ {k3 : Kernel}, Claimed k i k3 → (k3.processes i).allocated = true →
        (if (k1.pcb k1.current).userMode then
          (.ok (some i, frameFor i (k3.processes i).entryPoint (k3.processes i).userStack true k3) :
            Except Halt _)
        else if (k3.processes i).entryPoint = 0 then .ok (some i, k3)
        else .ok (some i,
          frameFor i (k3.processes i).entryPoint (k3.processes i).cpuState.esp false k3)) = .ok res →
        Forked k res := by
      intro k3 h3 ha3 hend
      split at hend
      · cases hend
        exact .creation (.made (h3.frameFor _ _ _) (by rw [frameFor_allocated]; exact ha3))
      · split at hend
        · cases hend
          exact .creation (.made h3 ha3)
        · cases hend
          exact .creation (.made (h3.frameFor _ _ _) (by rw [frameFor_allocated]; exact ha3))
    split at h
    · exact hframe h2 ha2 h
    · split at h
      · rename_i vmm _
        obtain ⟨⟨rc, k3⟩, hexit, h⟩ := bind_eq_ok.mp h
        cases h
        exact .ended (h2.vmm vmm) ha2 hexit
      · rename_i clone vmm _
        have h3 := Claimed.modify
            (h2.vmm (((k2.processes i).addressSpace.map (vmmDestroyAddressSpace vmm)).getD vmm))
          (f := fun p => { p with addressSpace := some clone })
            (fun p => ⟨rfl, rfl, rfl, rfl, rfl, rfl, rfl, .inl rfl⟩) (.inl rfl)
        refine hframe h3 ?_ h
        rw [modify_self]
        exact ha2

def KernelOp.creates : KernelOp → Bool
  | .createEntry _ | .createThread _ | .createUser _ | .createFromPath _ | .fork => true
  | _ => false

theorem kernelStep_creates {s s' : System} {op : KernelOp} (hop : op.creates = true)
    (h : kernelStep s op = some s') : ∃ res, Forked s.kernel res ∧ s' = s.create res := by
  cases op with
  | createEntry entry => exact ⟨_, .creation (createEntry_creation _ _), (Option.some.inj h).symm⟩
  | createThread entry => exact ⟨_, .creation (createThread_creation _ _), (Option.some.inj h).symm⟩
  | createUser entry => exact ⟨_, .creation (createUser_creation _ _), (Option.some.inj h).symm⟩
  | createFromPath image => exact ⟨_, .creation (createFromPath_creation _ _), (Option.some.inj h).symm⟩
  | fork =>
    obtain ⟨res, hfork, rfl⟩ := Option.map_eq_some_iff.mp h
    exact ⟨res, fork_inv (toOption_eq_some hfork), rfl⟩
  | _ => cases hop

end

end Ceblar
