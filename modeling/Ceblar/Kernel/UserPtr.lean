import Ceblar.Kernel.Mmap

/-! # Pointer checks that panic

`vmm_validate_user_ptr` faults in the pages of a VMA, but the fault handler serves the first 32 MiB
of the user region only.
-/

namespace Ceblar

variable {m m' : Vmm} {op : MemOp}

structure SpacesWf (m : Vmm) : Prop where
  wf : ∀ k, m.spaceUsed k = true → (m.spaces k).Wf
  current : ∀ s, m.currentSpace = some s → m.spaceUsed s = true
  window : (m.kernelFrame window).isSome = true

theorem Booted.spacesWf (h : Booted m) : SpacesWf m := by
  obtain ⟨m₀, rfl, hnone, -⟩ := h
  refine ⟨fun k hk => ?_, fun s hs => ?_, ?_⟩
  · simp [vmmInit, hnone] at hk
  · simp [vmmInit] at hs
  · rfl

theorem Wf_of_vmas {s s' : AddressSpace} (h : s.Wf) (hvmas : s'.vmas = s.vmas) : s'.Wf := by
  simpa only [AddressSpace.Wf, hvmas] using h

theorem SpacesWf.vmas (h : SpacesWf m) (hstep : MemStep m op m') {k : Nat}
    (hk : m'.spaceUsed k = true) : (m'.spaces k).Wf := by
  cases hstep.vmas hk with
  | same hlive hvmas => exact Wf_of_vmas (h.wf k hlive) hvmas
  | mmap hlive hl =>
    rw [hl.state]
    simp only [Vmm.setSpace, Function.update_self]
    exact (h.wf k hlive).setVma fun _ => hl.wf
  | munmap hlive hpages hu =>
    obtain ⟨u, hvmas, hspace⟩ := hu.exists_cut
    have hstop := toNat_rangeEnd (by omega) hu.forward
    have haligned := hu.aligned
    have hnonzero := hu.nonzero
    rw [hspace]
    refine (Wf_of_vmas (h.wf k hlive) hvmas).cut hu.slot_lt ?_ ?_ ?_ (by omega) hu.aligned (by omega)
    · rw [hvmas]; exact hu.used
    · rw [hvmas]; exact hu.start_le
    · rw [hvmas]; exact hu.le_stop
  | fresh _ hunused =>
    intro i _ hused
    rw [hunused i] at hused
    simp at hused
  | copy _ hlive hvmas => exact Wf_of_vmas (h.wf _ hlive) hvmas

theorem kernelFrame_congr (h : m'.kernelTables = m.kernelTables) (v : Word) :
    m'.kernelFrame v = m.kernelFrame v := by
  rw [Vmm.kernelFrame, h, ← Vmm.kernelFrame]

theorem SpacesWf.step (h : SpacesWf m) (hstep : memStep m op = some m') :
    SpacesWf m' := by
  have hinv := memStep_inv hstep
  refine ⟨fun k hk => h.vmas hinv hk, fun k hk => ?_, ?_⟩
  · -- Everything but a switch and the end of a space leaves the current space alone.
    have hkeep : m'.currentSpace = m.currentSpace → op ≠ .destroy k → m'.spaceUsed k = true := by
      intro hcur hop
      exact hinv.live (h.current k (hcur ▸ hk)) hop
    cases hinv with
    | refused => exact h.current k hk
    | create hd => exact hkeep hd.currentSpace (by simp)
    | @destroy s _ hd =>
      obtain ⟨hcur, hself⟩ := hd.current k hk
      by_cases hks : k = s
      · rw [hks, hself hks, ← hks]
        exact h.current k hcur
      · rw [hd.others k hks]
        exact h.current k hcur
    | @switchTo s hs =>
      have hk' : s = some k := hk
      rw [hk'] at hs
      exact hs
    | cloneCow _ hd hsame => exact hkeep (hsame.currentSpace.trans hd.currentSpace) (by simp)
    | mmap _ hl => exact hkeep hl.onlySpace.currentSpace (by simp)
    | munmap _ _ hu => exact hkeep hu.onlySpace.currentSpace (by simp)
    | fault hsame => exact hkeep hsame.currentSpace (by simp)
    | validate hsame => exact hkeep hsame.currentSpace (by simp)
  · have hw := h.window
    cases hinv with
    | refused => exact hw
    | create hd => rwa [kernelFrame_congr hd.kernelTables]
    | destroy hd => rwa [kernelFrame_congr hd.kernelTables]
    | switchTo _ => exact hw
    | cloneCow _ hd hsame =>
      refine hsame.window ?_
      rwa [kernelFrame_congr ((onlySpace_setSpace _ _ _).kernelTables.trans hd.kernelTables)]
    | mmap _ hl => rwa [kernelFrame_congr hl.onlySpace.kernelTables]
    | munmap _ _ hu => rwa [kernelFrame_congr hu.onlySpace.kernelTables]
    | fault hsame => exact hsame.window hw
    | validate hsame => exact hsame.window hw

/-! ## A check that cannot panic -/

/-- The check returned 0 or -1, unless the kernel ran out of frames on the way. -/
def Checked (r : Except Halt (Int × Vmm)) : Prop :=
  (∃ v m', r = .ok (v, m') ∧ (v = 0 ∨ v = -1)) ∨ r = .error .outOfMemoryDemand ∨
    r = .error .outOfMemoryCow

def WithinTables (s : AddressSpace) : Prop :=
  ∀ i < 64, (s.vmas i).used = true → (s.vmas i).stop.toNat ≤ 0x2400000

structure Served (m : Vmm) (s : Nat) : Prop where
  current : m.currentSpace = some s
  window : (m.kernelFrame window).isSome = true
  wf : (m.spaces s).Wf
  within : WithinTables (m.spaces s)

theorem Served.sameVmas {s : Nat} (h : Served m s) (hsame : SameVmas m m') : Served m' s where
  current := hsame.currentSpace.trans h.current
  window := hsame.window h.window
  wf := Wf_of_vmas h.wf (hsame.vmas s)
  within := by
    have := h.within
    simpa only [WithinTables, hsame.vmas s] using this

structure UserPage (page : Word) : Prop where
  aligned : page.toNat % 4096 = 0
  low : 0x400000 ≤ page.toNat

theorem UserPage.faultPage {page : Word} (h : UserPage page) : faultPage page 0 = page := by
  have hne : page ≠ 0 := by
    rintro rfl
    have := h.low
    simp at this
  rw [Ceblar.faultPage, if_pos hne]
  apply BitVec.eq_of_toNat_eq
  rw [toNat_pageBase, pageNumber_eq]
  have := h.aligned
  omega

section Check

variable {m : Vmm} {s : Nat} {page : Word}

theorem validateResident_served (h : Served m s) (hpage : UserPage page) (write : Word) :
    (∃ m', validateResident m s page write = .ok m' ∧ Served m' s) ∨
      validateResident m s page write = .error .outOfMemoryDemand := by
  unfold validateResident
  split
  · rename_i hphys
    split
    · exact Or.inl ⟨m, rfl, h⟩
    · rename_i vi hvi
      -- The page is in a VMA, so it is in one of the eight tables.
      obtain ⟨hlt, hused, -, hstop⟩ := vmaAt_eq_some hvi
      have hend := h.within vi hlt hused
      have hlow := hpage.low
      have hslot : userSlot page = some (page.toNat / 4194304 - 1) := by
        rw [userSlot_eq_some]
        omega
      rw [← hpage.faultPage] at hslot hvi hphys
      rw [vmmPageFault_demand h.current hslot hvi hphys]
      cases ha : pmmAllocPage m.pmm with
      | none => exact Or.inr (by simp [demandFault, ha])
      | some r =>
        obtain ⟨m', hrun, hd⟩ := demandFault_demanded h.window s _ hslot ha
        exact Or.inl ⟨m', hrun, h.sameVmas hd.sameVmas⟩
  · exact Or.inl ⟨m, rfl, h⟩

theorem validateWritable_served (h : Served m s) (hpage : UserPage page) (write : Word)
    (hphys : vmmGetUserPhysical (m.spaces s) page ≠ 0) :
    (∃ r m', validateWritable m s page write = .ok (r, m') ∧ Served m' s) ∨
      validateWritable m s page write = .error .outOfMemoryCow := by
  obtain ⟨t, hslot, htab, hbit⟩ := physical_ne_zero hphys
  have ht : dirIndex page - 1 = t := by rw [dirIndex_of_slot hslot, Nat.add_sub_cancel]
  unfold validateWritable
  extract_lets t' j
  split
  · split
    · exact Or.inl ⟨false, m, rfl, h⟩
    · rename_i hcow
      have hguard : CowGuard m s 6 (faultPage page 0) := by
        rw [hpage.faultPage]
        refine ⟨by decide, by decide, by rw [ht]; exact htab, hcow, ?_⟩
        rw [faultEntry, ht]
        exact (and_pagePresent _).mpr hbit
      rw [← hpage.faultPage] at hslot hphys
      rw [vmmPageFault_resident h.current hslot hphys]
      cases ha : pmmAllocPage m.pmm with
      | none =>
        rw [cowFault_no_frame hguard ha]
        exact Or.inr rfl
      | some r =>
        obtain ⟨m', hrun, hc⟩ := cowFault_copied (table_of_window h.window) hguard ha
        rw [hrun]
        exact Or.inl ⟨_, m', rfl, h.sameVmas hc.sameVmas⟩
  · exact Or.inl ⟨true, m, rfl, h⟩

theorem validatePage_served (h : Served m s) (hpage : UserPage page) (write : Word) :
    (∃ r m', validatePage m s page write = .ok (r, m') ∧ Served m' s) ∨
      validatePage m s page write = .error .outOfMemoryDemand ∨
      validatePage m s page write = .error .outOfMemoryCow := by
  unfold validatePage
  rcases validateResident_served h hpage write with ⟨m1, hrun, h1⟩ | hrun
  · rw [hrun]
    simp only
    split
    · exact Or.inl ⟨false, m1, rfl, h1⟩
    · rename_i hphys
      rcases validateWritable_served h1 hpage write hphys with hok | herr
      · exact Or.inl hok
      · exact Or.inr (Or.inr herr)
  · rw [hrun]
    exact Or.inr (Or.inl rfl)

theorem validateLoop_checked {last : Word} (write : Word) (hlow : 0x400000 ≤ last.toNat)
    (hhigh : last.toNat < 0xc0000000) (fuel : Nat) :
    ∀ {page : Word} {m : Vmm}, Served m s → UserPage page → page.toNat ≤ last.toNat →
      last.toNat < page.toNat + 4096 * fuel → Checked (validateLoop s last write fuel page m) := by
  induction fuel with
  | zero => intro page m _ _ hle hfuel; omega
  | succ fuel ih =>
    intro page m h hpage hle hfuel
    rw [validateLoop]
    rcases validatePage_served h hpage write with ⟨r, m1, hrun, h1⟩ | hrun | hrun
    · rw [hrun]
      cases r with
      | false => exact Or.inl ⟨-1, m1, rfl, Or.inr rfl⟩
      | true =>
        simp only
        split
        · exact Or.inl ⟨0, m1, rfl, Or.inl rfl⟩
        · rename_i hmore
          have h4 : (4096 : Word).toNat = 4096 := rfl
          rw [BitVec.lt_def, BitVec.toNat_sub_of_le (by rw [BitVec.le_def, h4]; omega), h4] at hmore
          have hnext : (page + 4096).toNat = page.toNat + 4096 := by
            rw [BitVec.toNat_add, h4]
            omega
          have hal := hpage.aligned
          have hlo := hpage.low
          exact ih h1 ⟨by omega, by omega⟩ (by omega) (by omega)
    · rw [hrun]
      exact Or.inr (Or.inl rfl)
    · rw [hrun]
      exact Or.inr (Or.inr rfl)

theorem validate_checked (h : Served m s) (virt len write : Word) :
    Checked (vmmValidateUserPtr m s virt len write) := by
  unfold vmmValidateUserPtr
  split
  · exact Or.inl ⟨-1, m, rfl, Or.inr rfl⟩
  · rename_i hargs
    push Not at hargs
    obtain ⟨hlen, hlow, hhigh, hfit⟩ := hargs
    have h4 : (0x400000 : Word).toNat = 0x400000 := rfl
    have hc : (0xc0000000 : Word).toNat = 0xc0000000 := rfl
    have h1 : (1 : Word).toNat = 1 := rfl
    have hlen' : len.toNat ≠ 0 := fun h0 => hlen (BitVec.eq_of_toNat_eq h0)
    rw [BitVec.lt_def, h4, Nat.not_lt] at hlow
    rw [BitVec.le_def, hc, Nat.not_le] at hhigh
    rw [BitVec.lt_def, BitVec.toNat_sub_of_le (by rw [BitVec.le_def, hc]; omega), hc, Nat.not_lt] at hfit
    have hlast : (virt + len - 1).toNat = virt.toNat + len.toNat - 1 := by
      rw [BitVec.toNat_sub, BitVec.toNat_add, h1]
      omega
    have hbase : (pageBase virt).toNat = virt.toNat / 4096 * 4096 := by
      rw [toNat_pageBase, pageNumber_eq]
    exact validateLoop_checked write (by omega) (by omega) _ h ⟨by omega, by omega⟩ (by omega) (by omega)

theorem validate_panics (hcur : m.currentSpace = some s) {i : Nat} (hi : i < 64)
    (hcov : ((m.spaces s).vmas i).Covers page) (hpage : UserPage page) (hhigh : 0x2400000 ≤ page.toNat)
    (hlt : page.toNat < 0xc0000000) :
    vmmValidateUserPtr m s page 1 0 = .error .unhandledPageFault := by
  have hlow := hpage.low
  have hdir : ¬ (1 ≤ dirIndex page ∧ dirIndex page ≤ 8) := by
    rw [dirIndex_eq]
    omega
  have hslot : userSlot page = none := by
    rw [Option.eq_none_iff_forall_ne_some]
    intro t ht
    rw [userSlot_eq_some] at ht
    omega
  have hphys : vmmGetUserPhysical (m.spaces s) page = 0 := by
    simp [vmmGetUserPhysical, hslot]
  obtain ⟨k, hk⟩ := vmaAt_isSome hi hcov
  have hfault : ∀ error, vmmPageFault m error page 0 = .error .unhandledPageFault := by
    intro error
    unfold vmmPageFault
    simp only [hcur]
    have hp := hpage.faultPage
    simp only [Ceblar.faultPage] at hp
    rw [hp, if_neg hdir]
  have hpage' : pageBase page = page := by
    rw [← hpage.faultPage, Ceblar.faultPage, pageBase_pageBase]
  have h4 : (0x400000 : Word).toNat = 0x400000 := rfl
  have hc : (0xc0000000 : Word).toNat = 0xc0000000 := rfl
  have h1 : (1 : Word).toNat = 1 := rfl
  unfold vmmValidateUserPtr
  rw [if_neg, hpage', show (0x100000 : Nat) = 0xfffff + 1 from rfl, validateLoop]
  · have hstop : validatePage m s page 0 = .error .unhandledPageFault := by
      simp only [validatePage, validateResident, hphys, hk, hfault, if_true]
    rw [hstop]
  · push Not
    refine ⟨by decide, ?_, ?_, ?_⟩
    · rw [BitVec.lt_def, h4]
      omega
    · rw [BitVec.le_def, hc]
      omega
    · rw [BitVec.lt_def, BitVec.toNat_sub_of_le (by rw [BitVec.le_def, hc]; omega), hc, h1]
      omega

end Check

/-- In every state that memory calls can reach, pointer checks on the current space return 0 or -1,
whatever they are asked, exactly if no VMA of the space reaches beyond its page tables. -/
theorem validate_safe_iff (m₀ m : Vmm) (ops : List MemOp) (s : Nat) (hboot : Booted m₀)
    (hrun : runs memStep m₀ ops = some m) (hcur : m.currentSpace = some s) :
    (∀ virt len write, Checked (vmmValidateUserPtr m s virt len write)) ↔ WithinTables (m.spaces s) := by
  have h := runs_inv SpacesWf (fun _ _ _ h hstep => h.step hstep) hboot.spacesWf hrun
  have hwf := h.wf s (h.current s hcur)
  constructor
  · intro hsafe i hi hused
    by_contra hbeyond
    obtain ⟨h1, h2, h3, h4, h5⟩ := hwf i hi hused
    have h4096 : (4096 : Word).toNat = 4096 := rfl
    -- The last page of the VMA is out of reach of the fault handler.
    have hlast : (((m.spaces s).vmas i).stop - 4096).toNat = ((m.spaces s).vmas i).stop.toNat - 4096 := by
      rw [BitVec.toNat_sub_of_le (by rw [BitVec.le_def, h4096]; omega), h4096]
    have hpanic : vmmValidateUserPtr m s (((m.spaces s).vmas i).stop - 4096) 1 0 =
        .error .unhandledPageFault :=
      validate_panics hcur hi ⟨hused, by omega, by omega⟩ ⟨by omega, by omega⟩ (by omega) (by omega)
    have := hsafe (((m.spaces s).vmas i).stop - 4096) 1 0
    rw [hpanic] at this
    simp [Checked] at this
  · intro hwithin virt len write
    exact validate_checked ⟨hcur, h.window, hwf, hwithin⟩ virt len write

def lowMmap : List MemOp := [.create, .switchTo (some 0), .mmap 0 0x400000 4096 0]

theorem validate_safe_iff_low : ∃ m, runs memStep bareMachine lowMmap = some m ∧
    ((∀ virt len write, Checked (vmmValidateUserPtr m 0 virt len write)) ↔
      WithinTables (m.spaces 0)) := by
  have hsome : (runs memStep bareMachine lowMmap).isSome = true := by decide +kernel
  have hcur : (runs memStep bareMachine lowMmap).map Vmm.currentSpace = some (some 0) := by decide +kernel
  obtain ⟨m, hm⟩ := Option.isSome_iff_exists.mp hsome
  rw [hm, Option.map_some, Option.some.injEq] at hcur
  exact ⟨m, hm, validate_safe_iff bareMachine m lowMmap 0 bareMachine_booted hm hcur⟩

def haltOf {α : Type} : Except Halt α → Option Halt
  | .error e => some e
  | .ok _ => none

/-- `SYS_MMAP` accepts one page at 36 MiB, and a pointer check there panics. -/
theorem validate_panics_high :
    (runs memStep bareMachine [.create, .switchTo (some 0), .mmap 0 0x2400000 4096 0]).map
      (fun m => haltOf (vmmValidateUserPtr m 0 0x2400000 1 0)) = some (some .unhandledPageFault) := by
  decide +kernel

end Ceblar
