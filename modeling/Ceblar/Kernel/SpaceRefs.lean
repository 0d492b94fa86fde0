import Ceblar.Kernel.Spaces

/-! # The references to the address spaces are counted exactly

Every operation on processes keeps the count of a space equal to the number of PCBs that refer to
it.
-/

namespace Ceblar

open Function

def Kernel.spaceOf (k : Kernel) (i : Fin maxProcesses) : Option Nat :=
  if (k.processes i).allocated then (k.processes i).addressSpace else none

/-- A space is in use if and only if an allocated PCB points to it, and its count is their number. -/
def Kernel.RefsExact (k : Kernel) : Prop := HeldBy k.vmm k.spaceOf

section

variable {k k' : Kernel} {i : Nat}

theorem KeepsSpaces.spaceOf (h : KeepsSpaces k k') : k'.spaceOf = k.spaceOf := by
  funext i
  unfold Kernel.spaceOf
  rw [(h.pcb i).1, (h.pcb i).2]

theorem KeepsSpaces.refsExact (h : KeepsSpaces k k') (hk : k.RefsExact) : k'.RefsExact := by
  unfold Kernel.RefsExact
  rw [h.spaceOf]
  exact HeldBy.congr hk h.refs

theorem spaceOf_update {i : Fin maxProcesses} (h : ∀ j, j ≠ i.val → k'.processes j = k.processes j) :
    k'.spaceOf = update k.spaceOf i (k'.spaceOf i) := by
  funext j
  by_cases hj : j = i
  · rw [hj, update_self]
  · rw [update_of_ne hj]
    unfold Kernel.spaceOf
    rw [h j fun he => hj (Fin.ext he)]

theorem spaceOf_free {i : Fin maxProcesses} (h : (k.processes i).allocated = false) :
    k.spaceOf i = none := by
  simp [Kernel.spaceOf, h]

theorem spaceOf_allocated {i : Fin maxProcesses} (h : (k.processes i).allocated = true) :
    k.spaceOf i = (k.processes i).addressSpace := by
  simp [Kernel.spaceOf, h]

/-! ## Creation -/

theorem frameFor_spaces (k : Kernel) (i : Nat) (entry stack : Word) (user : Bool) :
    KeepsSpaces k (frameFor i entry stack user k) := by
  unfold frameFor
  refine (keepsSpaces_of_eq rfl rfl (KeepsRefs.refl _) : KeepsSpaces k (k.setFrame _ _)).trans
    (keepsSpaces_modify _ _ ?_)
  exact fun _ => ⟨rfl, rfl⟩

theorem newPcb_refs (hk : k.RefsExact) : (newPcb k).2.RefsExact := by
  unfold newPcb
  split
  · exact hk
  · rename_i j hj
    obtain ⟨hbound, hfree, -⟩ := find_free hj
    have hnone := spaceOf_free (i := ⟨j, hbound⟩) hfree
    dsimp only
    split
    · -- no space is left, and the slot is free again
      unfold Kernel.RefsExact
      rw [spaceOf_update (k := k) (i := ⟨j, hbound⟩), spaceOf_free, ← hnone, update_eq_self]
      · exact hk
      · simp [Kernel.modify]
      · exact fun i hi => by simp [Kernel.modify, hi]
    · rename_i space vmm hcreate
      unfold Kernel.RefsExact
      rw [spaceOf_update (k := k) (i := ⟨j, hbound⟩), spaceOf_allocated]
      · simpa [Kernel.modify, Pcb.reset] using HeldBy.create hk hnone hcreate
      · simp [Kernel.modify, Pcb.claim, Pcb.reset]
      · exact fun i hi => by simp [Kernel.modify, hi]

theorem createEntry_spaces (entry : Word) (k : Kernel) :
    KeepsSpaces (newPcb k).2 (processCreateEntry entry k).2 := by
  unfold processCreateEntry
  split
  · rename_i k1 hnew
    rw [hnew]
    exact KeepsSpaces.refl k1
  · rename_i i k1 hnew
    rw [hnew]
    have hentry : KeepsSpaces k1 (k1.modify i fun p =>
        { p with entryPoint := entry, cpuState := { p.cpuState with eip := entry, eflags := 0x202 } }) :=
      keepsSpaces_modify k1 i fun _ => ⟨rfl, rfl⟩
    refine hentry.trans ?_
    dsimp only
    split
    · exact KeepsSpaces.refl _
    · refine KeepsSpaces.trans (keepsSpaces_modify _ i ?_) (frameFor_spaces _ _ _ _ _)
      exact fun _ => ⟨rfl, rfl⟩

theorem userAllocPage_keeps (m : Vmm) (space : Nat) (virt flags : Word) :
    KeepsRefs m (vmmUserAllocPage m space virt flags).2 ∧
      ∀ m1 ∈ (vmmUserAllocPage m space virt flags).1, m1 = (vmmUserAllocPage m space virt flags).2 := by
  unfold vmmUserAllocPage
  split
  · exact ⟨KeepsRefs.refl m, by simp⟩
  · rename_i page pmm _
    split
    · exact ⟨⟨fun _ => rfl, rfl⟩, by simp⟩
    · rename_i m1 hmap
      have hpmm : KeepsRefs m { m with pmm } := ⟨fun _ => rfl, rfl⟩
      exact ⟨hpmm.trans (keepsRefs_mapUser hmap), by simp⟩

theorem createUser_spaces (entry : Word) (k : Kernel) :
    KeepsSpaces (newPcb k).2 (processCreateUser entry k).2 := by
  unfold processCreateUser
  split
  · rename_i k1 hnew
    rw [hnew]
    exact KeepsSpaces.refl k1
  · rename_i i k1 hnew
    rw [hnew]
    split
    · exact KeepsSpaces.refl k1
    · exact KeepsSpaces.refl k1
    · rename_i space page pmm hspace halloc
      split
      · exact keepsSpaces_vmm ⟨fun _ => rfl, rfl⟩
      · rename_i vmm hmap
        have hpmm : KeepsRefs k1.vmm { k1.vmm with pmm } := ⟨fun _ => rfl, rfl⟩
        refine (keepsSpaces_vmm (hpmm.trans (keepsRefs_mapUser hmap))).trans ?_
        refine KeepsSpaces.trans (keepsSpaces_modify _ i ?_) (frameFor_spaces _ _ _ _ _)
        exact fun _ => ⟨rfl, rfl⟩

theorem Creation.idle {res : Option Nat × Kernel} (h : Creation k res) : res.2.idle = k.idle := by
  cases h with
  | refused vmm => rfl
  | failed h => exact h.idle
  | made h ha => exact h.idle

theorem Claimed.spaceOf_current {j : Nat} (h : Claimed k j k') (ht : TableInv k)
    (hidle : k.idle.addressSpace = none)
    {sp : Nat} (hsp : (k.pcb k.current).addressSpace = some sp) :
    ∃ c : Fin maxProcesses, c.val ≠ j ∧
    (k'.pcb k'.current).addressSpace = some sp ∧ k'.spaceOf c = some sp := by
  cases hc : k.current with
  | idle =>
    rw [hc, show k.pcb .idle = k.idle from rfl, hidle] at hsp
    cases hsp
  | slot c =>
    have ha := ht.current c hc
    have hlt : c < 32 := (ht.bound c ha).trans_le ht.count
    have hne : c ≠ j := by
      rintro rfl
      rw [h.free] at ha
      cases ha
    rw [hc] at hsp
    have hsp' : (k'.processes c).addressSpace = some sp := by
      rw [h.others c hne]
      exact hsp
    refine ⟨⟨c, hlt⟩, hne, ?_, ?_⟩
    · rw [h.current, hc]
      exact hsp'
    · rw [spaceOf_allocated (by rw [h.others c hne]; exact ha)]
      exact hsp'

theorem createThread_refs (ht : TableInv k) (hidle : k.idle.addressSpace = none) (hk : k.RefsExact)
    (entry : Word) :
    (processCreateThread entry k).2.RefsExact := by
  have hnew : (processCreateEntry entry k).2.RefsExact :=
    (createEntry_spaces entry k).refsExact (newPcb_refs hk)
  have hcreation := createEntry_creation entry k
  unfold processCreateThread
  dsimp only
  split
  · exact hk
  · rename_i hguard
    obtain ⟨sp, hsp⟩ : ∃ sp, (k.pcb k.current).addressSpace = some sp := by
      rw [← Option.isSome_iff_exists]
      simp only [Bool.or_eq_true, not_or, Bool.not_eq_true, Option.isNone_eq_false_iff] at hguard
      exact hguard.1.1
    split
    · rename_i k1 hres
      rw [hres] at hnew
      exact hnew
    · rename_i i k1 hres
      rw [hres] at hnew hcreation
      obtain ⟨hclaimed, ha⟩ := hcreation.slot
      change k1.RefsExact at hnew
      obtain ⟨c, hne, howner, hc⟩ := hclaimed.spaceOf_current ht hidle hsp
      let slot : Fin maxProcesses := ⟨i, hclaimed.bound⟩
      have hci : c ≠ slot := fun he => hne (congrArg Fin.val he)
      -- the space that came with the slot goes, and that of the owner is shared
      have hdrop := HeldBy.drop hnew slot
      rw [spaceOf_allocated (i := slot) ha] at hdrop
      have hcount : count (update k1.spaceOf slot none) sp ≤ 32 :=
        (Finset.card_le_univ _).trans_eq rfl
      have hshare := hdrop.retain (i := slot) (j := c) (update_self _ _ _)
        ((update_of_ne hci _ _).trans hc) (by omega)
      rw [update_idem] at hshare
      unfold Kernel.RefsExact
      rw [spaceOf_update (k := k1) (i := slot), spaceOf_allocated]
      · simpa [howner, Kernel.modify, slot] using hshare
      · simpa [Kernel.modify, slot] using ha
      · exact fun j hj => by simp [Kernel.modify, show j ≠ i from hj]

theorem refsExact_exchange {i sp : Nat} {m : Vmm} {f : Pcb → Pcb} (hi : i < 32)
    (ha : (k.processes i).allocated = true) (hm : HeldBy m (withSpare (some sp) k.spaceOf))
    (hf : (f (k.processes i)).allocated = true ∧ (f (k.processes i)).addressSpace = some sp) :
    (({ k with vmm := ((k.processes i).addressSpace.map (vmmDestroyAddressSpace m)).getD m } :
      Kernel).modify i f).RefsExact := by
  have hswap := hm.exchange ⟨i, hi⟩
  rw [spaceOf_allocated (i := ⟨i, hi⟩) ha] at hswap
  unfold Kernel.RefsExact
  rw [spaceOf_update (k := k) (i := ⟨i, hi⟩), spaceOf_allocated]
  · simpa [Kernel.modify, hf.2] using hswap
  · simpa [Kernel.modify] using hf.1
  · exact fun j hj => by simp [Kernel.modify, show j ≠ i from hj]

theorem createFromPath_refs {load : Loader} (hload : ∀ space m, KeepsRefs m (load space m).2)
    (hk : k.RefsExact) :
    (processCreateFromPath (some load) k).2.RefsExact := by
  have hnew : (processCreateUser 0 k).2.RefsExact := (createUser_spaces 0 k).refsExact (newPcb_refs hk)
  have hcreation := createUser_creation 0 k
  unfold processCreateFromPath
  dsimp only
  split
  · rename_i k1 hres
    rw [hres] at hnew
    exact hnew
  · rename_i i k1 hres
    rw [hres] at hnew hcreation
    obtain ⟨hclaimed, ha⟩ := hcreation.slot
    split
    · exact hnew
    · rename_i space vmm hcreate
      have hbuild : HeldBy vmm (withSpare (some space) k1.spaceOf) := HeldBy.build hnew hcreate
      obtain ⟨hpage, hsome⟩ := userAllocPage_keeps vmm space (userStackTop - 4096) pageWrite
      split
      · rename_i vmm1 hstack
        rw [hstack] at hpage
        exact HeldBy.discard (r := k1.spaceOf) (hbuild.congr hpage)
      · rename_i vmm1 vmm2 hstack
        rw [hstack] at hpage hsome
        obtain rfl : vmm1 = vmm2 := hsome vmm1 rfl
        have hfill := (hbuild.congr hpage).congr (hload space vmm1)
        split
        · rename_i vmm2 hl
          rw [hl] at hfill
          exact HeldBy.discard (r := k1.spaceOf) hfill
        · rename_i entry vmm2 hl
          rw [hl] at hfill
          refine (frameFor_spaces _ _ _ _ _).refsExact ?_
          exact refsExact_exchange hclaimed.bound ha hfill ⟨ha, rfl⟩

theorem clone_held {r : Fin maxProcesses → Option Nat} {m m' : Vmm} {source : Nat} (h : HeldBy m r)
    {clone : Option Nat} (hc : vmmCloneAddressSpaceCow m source = (clone, m')) :
    HeldBy m' (withSpare clone r) := by
  unfold vmmCloneAddressSpaceCow at hc
  split at hc
  · cases hc
    exact heldBy_spare.mpr h
  · rename_i d m1 hcreate
    dsimp only at hc
    generalize hm2 : m1.setSpace d _ = m2 at hc
    have h2 : KeepsRefs m1 m2 := by
      rw [← hm2]
      exact keepsRefs_setSpace m1 d rfl
    obtain ⟨m3, hloop, h3⟩ := cloneCowTables_inv (fun m3 => KeepsRefs m1 m3)
      (fun m i t j w hm => hm.trans (keepsRefs_setSpace m i rfl))
      (fun m i t hm => hm.trans (keepsRefs_setSpace m i rfl))
      (fun m a hm => hm.trans ⟨fun _ => rfl, rfl⟩) source d h2
    rw [hloop] at hc
    cases hc
    exact (h.build hcreate).congr h3

theorem fork_refs (hk : k.RefsExact) {res : Option Nat × Kernel} (h : processFork k = .ok res) :
    res.2.RefsExact := by
  have hnew := newPcb_refs hk
  have hcreation := newPcb_creation k
  unfold processFork at h
  generalize newPcb k = new at hnew hcreation h
  obtain ⟨_ | i, k1⟩ := new
  · cases h
    exact hnew
  · obtain ⟨hclaimed, ha⟩ := hcreation.slot
    dsimp only at h
    generalize hk2 : k1.modify i _ = k2 at h
    have h2 : k2.RefsExact := by
      rw [← hk2]
      refine (keepsSpaces_modify k1 i ?_).refsExact hnew
      exact fun _ => ⟨rfl, rfl⟩
    have ha2 : (k2.processes i).allocated = true := by
      rw [← hk2, modify_self]
      exact ha
    have hframe : ∀ {k3 : Kernel}, k3.RefsExact →
        (if (k1.pcb k1.current).userMode then
          (.ok (some i, frameFor i (k3.processes i).entryPoint (k3.processes i).userStack true k3) :
            Except Halt _)
        else if (k3.processes i).entryPoint = 0 then .ok (some i, k3)
        else .ok (some i,
          frameFor i (k3.processes i).entryPoint (k3.processes i).cpuState.esp false k3)) = .ok res →
        res.2.RefsExact := by
      intro k3 h3 hend
      split at hend
      · cases hend
        exact (frameFor_spaces _ _ _ _ _).refsExact h3
      · split at hend
        · cases hend
          exact h3
        · cases hend
          exact (frameFor_spaces _ _ _ _ _).refsExact h3
    split at h
    · exact hframe h2 h
    · split at h
      · rename_i vmm hclone
        obtain ⟨⟨rc, k3⟩, hexit, h⟩ := bind_eq_ok.mp h
        cases h
        exact (exit_marks hexit).keepsSpaces.refsExact (heldBy_spare.mp (clone_held h2 hclone))
      · rename_i clone vmm hclone
        have h3 := refsExact_exchange
            (f := fun p => { p with addressSpace := some clone }) hclaimed.bound ha2
          (clone_held h2 hclone) ⟨ha2, rfl⟩
        exact hframe h3 h

theorem wait_refs (ht : TableInv k) (hk : k.RefsExact) {child status rc : Word}
    (h : processWait child status k = .ok (rc, k')) :
    k'.RefsExact ∧ k'.idle.addressSpace = k.idle.addressSpace := by
  rcases wait_inv h with ⟨-, -, rfl⟩ | ⟨i, hfind, ⟨hz, -, vmm, hstore, rfl⟩ | ⟨-, -, rfl⟩⟩
  · exact ⟨hk, rfl⟩
  · obtain ⟨ha, -, -⟩ := findPid_some hfind
    have hi : i < 32 := (ht.bound i ha).trans_le ht.count
    have hvmm : KeepsRefs k.vmm vmm := by
      split at hstore
      · cases hstore
        exact KeepsRefs.refl _
      · exact (inActive_kernelStore32 hstore).toKeepsRefs
    have hdrop := (HeldBy.congr hk hvmm).drop ⟨i, hi⟩
    rw [spaceOf_allocated (i := ⟨i, hi⟩) ha] at hdrop
    refine ⟨?_, rfl⟩
    unfold Kernel.RefsExact
    rw [spaceOf_update (k := k) (i := ⟨i, hi⟩), spaceOf_free]
    · exact hdrop
    · simp [Kernel.modify]
    · exact fun j hj => by simp [Kernel.modify, show j ≠ i from hj]
  · have hblock : KeepsSpaces k (k.modifyRef
        (fun p => { p with waitForPid := child, waitStatusPtr := status, state := .blocked })
          k.current) :=
      keepsSpaces_modifyRef k k.current fun _ => ⟨rfl, rfl⟩
    exact ⟨hblock.refsExact hk, hblock.idle⟩

end

end Ceblar
