import Ceblar.Scheduler.NoneLost

/-! # What fork returns

The child's first frame is the one that `frame_for` builds for the entry point, and nobody puts the
child on the ready list.
-/

namespace Ceblar

structure CopyOf (r f : Registers) : Prop where
  eip : f.eip = r.eip
  useresp : f.useresp = r.useresp
  edi : f.edi = r.edi
  esi : f.esi = r.esi
  ebp : f.ebp = r.ebp
  ebx : f.ebx = r.ebx
  edx : f.edx = r.edx
  ecx : f.ecx = r.ecx
  eax : f.eax = 0

/-- The child is ready and on the list, and goes on where its parent was. -/
structure ReturnsTwice (r : Registers) (k' : Kernel) (child : Nat) : Prop where
  allocated : (k'.processes child).allocated = true
  ready : (k'.processes child).state = .ready
  listed : k'.OnList child
  frame : CopyOf r (k'.frames (resumeFrame child k'))

structure AtEntry (p : Pcb) (r : Registers) : Prop where
  eip : r.eip = p.entryPoint
  useresp : r.useresp = p.userStack
  edi : r.edi = 0
  esi : r.esi = 0
  ebp : r.ebp = 0
  ebx : r.ebx = 0
  edx : r.edx = 0
  ecx : r.ecx = 0

def Kernel.freeSlot (k : Kernel) : Option Nat :=
  (List.range maxProcesses).find? fun i => !(k.processes i).allocated

section

variable {k k' : Kernel} {c i : Nat} {r : Registers}

theorem newPcb_slot {k1 : Kernel} (h : newPcb k = (some i, k1)) : k.freeSlot = some i := by
  unfold newPcb at h
  unfold Kernel.freeSlot
  split at h
  · cases h
  · rename_i j hj
    dsimp only at h
    split at h
    · cases h
    · cases h
      exact hj

theorem fork_frame (hc : k.current = .slot c) (ha : (k.processes c).allocated = true)
    (hu : (k.processes c).userMode = true) (h : processFork k = .ok (some i, k')) :
    k.freeSlot = some i ∧ resumeFrame i k' = .initial i ∧
      k'.frames (.initial i) = { zeroRegisters with
        eip := (k.processes c).entryPoint, cs := 0x1b, eflags := 0x202, useresp :=
        (k.processes c).userStack, ss := 0x23 } := by
  have hnew := newPcb_creation k
  unfold processFork at h
  generalize hres : newPcb k = new at hnew h
  obtain ⟨_ | j, k1⟩ := new
  · cases h
  · have hslot := newPcb_slot hres
    obtain ⟨h1, -⟩ := hnew.slot
    have hne : c ≠ j := by
      rintro rfl
      rw [h1.free] at ha
      cases ha
    have hparent : k1.pcb k1.current = k.processes c := by
      rw [h1.pcb_current (by rw [hc]; simpa using hne), hc]
      rfl
    dsimp only at h
    rw [hparent] at h
    generalize hk2 : k1.modify j _ = k2 at h
    have hchild : (k2.processes j).entryPoint = (k.processes c).entryPoint ∧
        (k2.processes j).userStack = (k.processes c).userStack ∧ (k2.processes j).userMode = true := by
      rw [← hk2, modify_self]
      exact ⟨rfl, rfl, hu⟩
    -- whatever the clone left, the child's frame is set up last
    have hframe : ∀ {k3 : Kernel}, (k3.processes j).entryPoint = (k.processes c).entryPoint →
        (k3.processes j).userStack = (k.processes c).userStack → (k3.processes j).userMode = true →
        (if (k.processes c).userMode then
          (.ok (some j, frameFor j (k3.processes j).entryPoint (k3.processes j).userStack true k3) :
            Except Halt _)
        else if (k3.processes j).entryPoint = 0 then .ok (some j, k3)
        else .ok (some j,
          frameFor j (k3.processes j).entryPoint (k3.processes j).cpuState.esp false k3)) =
          .ok (some i, k') →
        k.freeSlot = some i ∧ resumeFrame i k' = .initial i ∧
          k'.frames (.initial i) = { zeroRegisters with
            eip := (k.processes c).entryPoint, cs := 0x1b, eflags := 0x202, useresp :=
            (k.processes c).userStack, ss := 0x23 } := by
      intro k3 he hs hm hend
      rw [if_pos hu] at hend
      cases hend
      refine ⟨hslot, ?_, ?_⟩
      · simp [resumeFrame, processInitialFrame, frameFor, Kernel.modify, Kernel.setFrame, hm]
      · simp [frameFor, Kernel.modify, Kernel.setFrame, he, hs, zeroRegisters]
    obtain ⟨he, hs, hm⟩ := hchild
    split at h
    · exact hframe he hs hm h
    · split at h
      · obtain ⟨⟨rc, k3⟩, -, h⟩ := bind_eq_ok.mp h
        cases h
      · rename_i clone vmm _
        refine hframe ?_ ?_ ?_ h
        all_goals rw [modify_self]
        · exact he
        · exact hs
        · exact hm

theorem onList_claimed (h : Claimed k i k') : k'.OnList i ↔ k.OnList i := by
  have hnext : ∀ j, j ≠ i → k'.sched.next j = k.sched.next j :=
    fun j hj => congrArg Pcb.next (h.others j hj)
  have hhead : k'.readyHead = k.readyHead := h.readyHead
  unfold Kernel.OnList
  rw [hhead]
  constructor
  · rintro ⟨l, hl⟩
    obtain ⟨u, hi, hu⟩ := seg_before hl
    exact ⟨u, seg_congr (fun j hj => (hnext j (by rintro rfl; exact hi hj)).symm) hu⟩
  · rintro ⟨l, hl⟩
    obtain ⟨u, hi, hu⟩ := seg_before hl
    exact ⟨u, seg_congr (fun j hj => hnext j (by rintro rfl; exact hi hj)) hu⟩

end

/-- A fork returns twice exactly if the slot for the child is still on the ready list, from a
process that was there before, and the caller is in the state in which it started. -/
theorem fork_returns_twice_iff (k k' : Kernel) (c : Nat) (hc : k.current = .slot c)
    (ha : (k.processes c).allocated = true) (hu : (k.processes c).userMode = true) (child : Nat)
    (h : processFork k = .ok (some child, k')) (r : Registers) :
    ReturnsTwice r k' child ↔ (∃ j, k.freeSlot = some j ∧ k.OnList j) ∧ AtEntry (k.processes c) r := by
  obtain ⟨hslot, hresume, hframe⟩ := fork_frame hc ha hu h
  obtain ⟨hclaimed, halloc⟩ : Claimed k child k' ∧ (k'.processes child).allocated = true := by
    cases fork_inv h with
    | creation hcreate => exact hcreate.slot
  constructor
  · rintro ⟨-, -, hlisted, hcopy⟩
    rw [hresume, hframe] at hcopy
    obtain ⟨h1, h2, h3, h4, h5, h6, h7, h8, -⟩ := hcopy
    exact ⟨⟨child, hslot, (onList_claimed hclaimed).mp hlisted⟩,
      ⟨h1.symm, h2.symm, h3.symm, h4.symm, h5.symm, h6.symm, h7.symm, h8.symm⟩⟩
  · rintro ⟨⟨j, hj, hlisted⟩, h1, h2, h3, h4, h5, h6, h7, h8⟩
    obtain rfl : child = j := Option.some.inj (hslot.symm.trans hj)
    refine ⟨halloc, hclaimed.state, (onList_claimed hclaimed).mpr hlisted, ?_⟩
    rw [hresume, hframe]
    exact ⟨h1.symm, h2.symm, h3.symm, h4.symm, h5.symm, h6.symm, h7.symm, h8.symm, rfl⟩

/-- A user process forks, the child is killed while it is on the list, and its parent takes it out
of the table. -/
def reapedOnList : List KernelOp :=
  [.createUser 0x400000, .add 0, .timerTick 0x9000 zeroRegisters, .fork, .add 1, .sendSignal 0x102 9,
    .wait 0x102 0]

theorem fork_returns_twice_reapedOnList :
    ∃ s k', runs kernelStep (System.boot coldKernel) reapedOnList = some s ∧
    processFork s.kernel = .ok (some 1, k') ∧
    ReturnsTwice { zeroRegisters with eip := 0x400000, useresp := userStackTop } k' 1 := by
  have hend : ((runs kernelStep (System.boot coldKernel) reapedOnList).map fun s =>
      (s.kernel.current, s.kernel.freeSlot, s.kernel.readyHead,
        (processFork s.kernel).toOption.map fun res => res.1)) =
      some (.slot 0, some 1, some 1, some (some 1)) := by
    decide +kernel
  have hcaller : ((runs kernelStep (System.boot coldKernel) reapedOnList).map fun s =>
      ((s.kernel.processes 0).allocated, (s.kernel.processes 0).userMode,
        (s.kernel.processes 0).entryPoint,
        (s.kernel.processes 0).userStack)) = some (true, true, 0x400000, userStackTop) := by
    decide +kernel
  obtain ⟨s, hrun, hs⟩ := Option.map_eq_some_iff.mp hend
  rw [hrun] at hcaller
  simp only [Option.map_some, Option.some.injEq, Prod.mk.injEq] at hs hcaller
  obtain ⟨hc, hslot, hhead, hfork⟩ := hs
  obtain ⟨ha, hu, hentry, hstack⟩ := hcaller
  obtain ⟨⟨child, k'⟩, hres, rfl⟩ := Option.map_eq_some_iff.mp hfork
  have hfork' := toOption_eq_some hres
  refine ⟨s, k', hrun, hfork',
    (fork_returns_twice_iff s.kernel k' 0 hc ha hu 1 hfork' _).mpr ⟨⟨1, hslot, [], hhead⟩, ?_⟩⟩
  exact ⟨hentry.symm, hstack.symm, rfl, rfl, rfl, rfl, rfl, rfl⟩

def oneUser : List KernelOp := [.createUser 0x400000, .add 0, .timerTick 0x9000 zeroRegisters]

theorem forked_child_never_runs : ∃ s k', runs kernelStep (System.boot coldKernel) oneUser = some s ∧
    s.kernel.current = .slot 0 ∧
    (s.kernel.processes 0).userMode = true ∧ processFork s.kernel = .ok (some 1, k') ∧
    ∀ r, ¬ReturnsTwice r k' 1 := by
  have hend : ((runs kernelStep (System.boot coldKernel) oneUser).map fun s =>
      (s.kernel.current, (s.kernel.processes 0).userMode,
        (processFork s.kernel).toOption.map fun res => (res.1, res.2.readyHead))) =
      some (.slot 0, true, some (some 1, none)) := by
    decide +kernel
  obtain ⟨s, hrun, hs⟩ := Option.map_eq_some_iff.mp hend
  simp only [Prod.mk.injEq] at hs
  obtain ⟨hc, hu, hfork⟩ := hs
  obtain ⟨⟨child, k'⟩, hres, hpair⟩ := Option.map_eq_some_iff.mp hfork
  obtain ⟨rfl, hhead⟩ := Prod.mk.inj hpair
  have hfork' := toOption_eq_some hres
  refine ⟨s, k', hrun, hc, hu, hfork', fun r hr => ?_⟩
  exact not_onList (by rw [hhead]; rfl) 1 hr.listed

end Ceblar
