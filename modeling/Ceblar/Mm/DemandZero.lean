import Ceblar.Mm.Demand

/-! # Demand faults and the window

A fault clears the page behind the window before it moves the window, so its own frame only if the
window was there.
-/

namespace Ceblar

open Function

structure FaultCall where
  error : Word
  address : Word
  cr2 : Word

def FaultCall.page (c : FaultCall) : Word := faultPage c.address c.cr2

def demandVma (m : Vmm) (s : Nat) (c : FaultCall) : Option Vma :=
  if (userSlot c.page).isSome ∧ vmmGetUserPhysical (m.spaces s) c.page = 0 then
    ((m.spaces s).vmaAt c.page).map (m.spaces s).vmas
  else none

def demandStep (m : Vmm) (c : FaultCall) : Option Vmm :=
  m.currentSpace.bind fun s => (demandVma m s c).bind fun _ =>
    (vmmPageFault m c.error c.address c.cr2).toOption

structure ZeroPage (m : Vmm) (s : Nat) (page : Word) (m' : Vmm) : Prop where
  zero : ∀ k < 4096, userRead m' s (page + BitVec.ofNat 32 k) = some 0
  /-- The frame that `pmm_alloc_page` takes is the first free one. -/
  others : ∀ f, m.pmm.firstFree ≠ some f → ∀ k < 4096, m'.phys f k = m.phys f k
  window : m'.kernelFrame window = m.kernelFrame window

def ZeroesPage (m : Vmm) (c : FaultCall) : Prop :=
  ∀ s m', m.currentSpace = some s → demandStep m c = some m' → ZeroPage m s c.page m'

/-- The flags of the VMA do not merge into the frame of the entry, or the frame that they make holds
zeros. -/
def Unmerged (m : Vmm) (c : FaultCall) : Prop :=
  ∀ s v f, m.currentSpace = some s → demandVma m s c = some v → m.pmm.firstFree = some f →
    f ||| pageNumber v.flags = f ∨ ∀ k < 4096, m.phys (f ||| pageNumber v.flags) k = 0

/-! ## One fault -/

section

variable {m m' : Vmm} {s t : Nat} {page a : Word} {v : Vma} {p : Pmm} {c : FaultCall}

theorem demandFault_memory (hf : demandFault m s page v = .ok m') :
    ∃ f w, m.pmm.firstFree = some f ∧ m.kernelFrame window = some w ∧
      m'.phys = update m.phys w (fun _ => 0) ∧ m'.kernelFrame window = some f := by
  unfold demandFault at hf
  split at hf
  next => cases hf
  next a p ha =>
    obtain ⟨f, hfree, hnum, -, -⟩ := pmmAllocPage_spec ha
    obtain ⟨m1, hstore, hrest⟩ := bind_eq_ok.mp hf
    unfold Vmm.storeWindow at hstore
    split at hstore
    next => cases hstore
    next w hw =>
      rw [kernelFrame_pmm] at hw
      cases hstore
      cases hrest
      refine ⟨f, w, hfree, hw, ?_, ?_⟩
      · cases hu : userSlot page <;> simp [vmmMapUser, hu]
      · have htable : (m.kernelTables 0).isSome = true := table_of_window (by rw [hw]; rfl)
        have hwin := (kernelFrame_window (m := { m with pmm := p, phys := update m.phys w fun _ => 0 })
          htable a pageWrite (by decide)).1
        rw [← hnum, ← hwin]
        cases hu : userSlot page <;> simp [vmmMapUser, hu] <;> rfl

theorem pageBase_page_add (hpage : page.toNat % 4096 = 0) {k : Nat} (hk : k < 4096) :
    pageBase (page + BitVec.ofNat 32 k) = pageBase page ∧ offset (page + BitVec.ofNat 32 k) = k := by
  have hadd : (page + BitVec.ofNat 32 k).toNat = page.toNat + k := by
    rw [BitVec.toNat_add, BitVec.toNat_ofNat]
    have := page.isLt
    omega
  constructor
  · apply BitVec.eq_of_toNat_eq
    rw [toNat_pageBase, toNat_pageBase, pageNumber_eq, pageNumber_eq, hadd]
    omega
  · rw [offset_eq, hadd]
    omega

theorem Demanded.userRead (h : Demanded m s t page v a p m') (hslot : userSlot page = some t)
    (hpage : page.toNat % 4096 = 0) {k : Nat} (hk : k < 4096) :
    Ceblar.userRead m' s (page + BitVec.ofNat 32 k) =
      some (m'.phys (pageNumber a ||| pageNumber v.flags) k) := by
  obtain ⟨hbase, hoff⟩ := pageBase_page_add hpage hk
  have hentry :
      userPte (m'.spaces s) (page + BitVec.ofNat 32 k) = some (m'.pte s t (tableIndex page)) := by
    unfold userPte
    rw [← userSlot_pageBase, ← tableIndex_pageBase, hbase, userSlot_pageBase, tableIndex_pageBase, hslot]
    have hused : (m'.spaces s).tableUsed t = true := by
      rw [h.spaces, setPte_tableUsed, markTable_tableUsed]
      simp
    have hpte := h.pte
    rw [Vmm.pte] at hpte
    simp only [hused, hpte, true_and]
    rw [if_pos]
    · rw [h.pte]
    · exact ⟨(and_pagePresent _).mpr (by simp), (and_pageUser _).mpr (by simp)⟩
  rw [Ceblar.userRead, hentry, Option.map_some, hoff, h.frame]

theorem demandStep_inv (hcur : m.currentSpace = some s) (hs : demandStep m c = some m') :
    ∃ t v a p, userSlot c.page = some t ∧ demandVma m s c = some v ∧ demandFault m s c.page v = .ok m' ∧
      Demanded m s t c.page v a p m' := by
  simp only [demandStep, hcur, Option.bind_some, Option.bind_eq_some_iff] at hs
  obtain ⟨v, hv, hfault⟩ := hs
  have hvma := hv
  unfold demandVma at hvma
  split at hvma
  next hguard =>
    obtain ⟨vi, hvi, rfl⟩ := Option.map_eq_some_iff.mp hvma
    obtain ⟨t, hslot⟩ := Option.isSome_iff_exists.mp hguard.1
    have hrun := toOption_eq_some hfault
    rw [vmmPageFault_demand hcur hslot hvi hguard.2] at hrun
    obtain ⟨a, p, hd⟩ := demandFault_inv hslot hrun
    exact ⟨t, _, a, p, hslot, hv, hrun, hd⟩
  next => cases hvma

theorem demandStep_window (hs : demandStep m c = some m') : m'.kernelFrame window = m'.pmm.firstFree := by
  obtain ⟨s, hcur, -⟩ := Option.bind_eq_some_iff.mp hs
  obtain ⟨t, v, a, p, -, -, hrun, hd⟩ := demandStep_inv hcur hs
  obtain ⟨f, w, hfree, -, -, hwin⟩ := demandFault_memory hrun
  obtain ⟨g, hg, hnum, -, -⟩ := pmmAllocPage_spec hd.alloc
  rw [hwin, hd.pmm, (pmmFreePage_alloc hd.alloc).2.2, hnum, ← hg, hfree]

theorem zeroesPage_iff (hs : demandStep m c = some m') :
    ZeroesPage m c ↔ m.kernelFrame window = m.pmm.firstFree ∧ Unmerged m c := by
  obtain ⟨s, hcur, -⟩ := Option.bind_eq_some_iff.mp hs
  obtain ⟨t, v, a, p, hslot, hv, hrun, hd⟩ := demandStep_inv hcur hs
  obtain ⟨f, w, hfree, hw, hphys, hwin⟩ := demandFault_memory hrun
  obtain ⟨g, hg, hnum, -, -⟩ := pmmAllocPage_spec hd.alloc
  obtain rfl : g = f := Option.some.inj (hg.symm.trans hfree)
  have hread : ∀ k < 4096, userRead m' s (c.page + BitVec.ofNat 32 k) =
      some (update m.phys w (fun _ => 0) (g ||| pageNumber v.flags) k) := by
    intro k hk
    rw [hd.userRead hslot (page_aligned _ _) hk, hphys, hnum]
  constructor
  · intro h
    obtain ⟨hzero, -, hback⟩ := h s m' hcur hs
    obtain rfl : g = w := Option.some.inj (hwin.symm.trans (hback.trans hw))
    refine ⟨hw.trans hfree.symm, fun s' v' f' hcur' hv' hf' => ?_⟩
    obtain rfl : s = s' := Option.some.inj (hcur.symm.trans hcur')
    obtain rfl : v = v' := Option.some.inj (hv.symm.trans hv')
    obtain rfl : g = f' := Option.some.inj (hfree.symm.trans hf')
    by_cases hmerge : g ||| pageNumber v.flags = g
    · exact .inl hmerge
    · refine .inr fun k hk => ?_
      have := (hread k hk).symm.trans (hzero k hk)
      rwa [update_of_ne hmerge, Option.some.injEq] at this
  · rintro ⟨hon, hflags⟩ s' m'' hcur' hs'
    obtain rfl : s = s' := Option.some.inj (hcur.symm.trans hcur')
    obtain rfl : m' = m'' := Option.some.inj (hs.symm.trans hs')
    obtain rfl : w = g := Option.some.inj (hw.symm.trans (hon.trans hfree))
    refine ⟨fun k hk => ?_, fun f' hf' k hk => ?_, hwin.trans hw.symm⟩
    · rw [hread k hk]
      by_cases hmerge : w ||| pageNumber v.flags = w
      · rw [hmerge, update_self]
      · rw [update_of_ne hmerge]
        rcases hflags s v w hcur hv hfree with h | h
        · exact absurd h hmerge
        · rw [h k hk]
    · have hne : f' ≠ w := by
        rintro rfl
        exact hf' hfree
      rw [hphys, update_of_ne hne]

end

theorem along_zeroesPage {m m' : Vmm} {calls : List FaultCall}
    (hon : m.kernelFrame window = m.pmm.firstFree) (hrun : runs demandStep m calls = some m') :
    Along ZeroesPage demandStep m calls ↔ Along Unmerged demandStep m calls := by
  induction calls generalizing m with
  | nil => exact Iff.rfl
  | cons c calls ih =>
    obtain ⟨m1, hs, hrest⟩ := Option.bind_eq_some_iff.mp hrun
    have hstep := zeroesPage_iff hs
    have htail := ih (demandStep_window hs) hrest
    constructor
    · rintro ⟨h1, h2⟩
      refine ⟨(hstep.mp h1).2, fun m2 hm2 => ?_⟩
      cases hs.symm.trans hm2
      exact htail.mp (h2 m1 hs)
    · rintro ⟨h1, h2⟩
      refine ⟨hstep.mpr ⟨hon, h1⟩, fun m2 hm2 => ?_⟩
      cases hs.symm.trans hm2
      exact htail.mpr (h2 m1 hs)

/-- In a sequence of demand faults each one leaves a zero page and nothing else, exactly if the
window is on the first free frame at the start and no flags merge into a frame. -/
theorem demand_zero_iff (m m' : Vmm) (calls : List FaultCall) (hcalls : calls ≠ [])
    (hrun : runs demandStep m calls = some m') :
    Along ZeroesPage demandStep m calls ↔
      m.kernelFrame window = m.pmm.firstFree ∧ Along Unmerged demandStep m calls := by
  constructor
  · intro h
    have hon : m.kernelFrame window = m.pmm.firstFree := by
      cases calls with
      | nil => exact absurd rfl hcalls
      | cons c calls =>
        obtain ⟨m1, hs, -⟩ := Option.bind_eq_some_iff.mp hrun
        exact ((zeroesPage_iff hs).mp h.1).1
    exact ⟨hon, (along_zeroesPage hon hrun).mp h⟩
  · rintro ⟨hon, h⟩
    exact (along_zeroesPage hon hrun).mpr h

def dirtyMachine : Vmm := { lazyMachine with phys := fun _ _ => 0x5a }

/-- After a fault on the first page the window is on frame 1, which is free again: the fault on the second
page finds it there. -/
theorem demand_zero_iff_second : ∃ m m', demandStep dirtyMachine ⟨4, 0x400000, 0⟩ = some m ∧
    runs demandStep m [⟨4, 0x401000, 0⟩] = some m' ∧ m.kernelFrame window = m.pmm.firstFree ∧
    (Along ZeroesPage demandStep m [⟨4, 0x401000, 0⟩] ↔
      m.kernelFrame window = m.pmm.firstFree ∧ Along Unmerged demandStep m [⟨4, 0x401000, 0⟩]) := by
  have hok : ((demandStep dirtyMachine ⟨4, 0x400000, 0⟩).bind fun m =>
      runs demandStep m [⟨4, 0x401000, 0⟩]).isSome = true := by decide +kernel
  obtain ⟨m', hm'⟩ := Option.isSome_iff_exists.mp hok
  obtain ⟨m, hm, hrun⟩ := Option.bind_eq_some_iff.mp hm'
  exact ⟨m, m', hm, hrun, demandStep_window hm, demand_zero_iff m m' _ (by simp) hrun⟩

/-- The first fault clears frame 0x3ff, not the frame of the page, and leaves the window on frame 1. -/
theorem demand_fault_not_zero : ∃ m', runs demandStep dirtyMachine [⟨4, 0x400000, 0⟩] = some m' ∧
    userRead m' 0 0x400000 = some 0x5a ∧ m'.phys 0x3ff 0 ≠ dirtyMachine.phys 0x3ff 0 ∧
    m'.kernelFrame window ≠ dirtyMachine.kernelFrame window ∧
    ¬ Along ZeroesPage demandStep dirtyMachine [⟨4, 0x400000, 0⟩] := by
  have hread : (runs demandStep dirtyMachine [⟨4, 0x400000, 0⟩]).map (fun m' => userRead m' 0 0x400000) =
      some (some 0x5a) := by decide +kernel
  have hframe : (runs demandStep dirtyMachine [⟨4, 0x400000, 0⟩]).map (fun m' => m'.phys 0x3ff 0) =
      some 0 := by
    decide +kernel
  have hwin : (runs demandStep dirtyMachine [⟨4, 0x400000, 0⟩]).map (fun m' => m'.kernelFrame window) =
      some (some 1) := by decide +kernel
  obtain ⟨m', hm', hread⟩ := Option.map_eq_some_iff.mp hread
  rw [hm', Option.map_some, Option.some.injEq] at hframe hwin
  have hback : m'.kernelFrame window ≠ dirtyMachine.kernelFrame window := by
    rw [hwin]
    decide +kernel
  refine ⟨m', hm', hread, ?_, hback, fun h => ?_⟩
  · rw [hframe]
    decide +kernel
  · rw [runs_cons, Option.bind_eq_some_iff] at hm'
    obtain ⟨m1, hs, hend⟩ := hm'
    cases hend
    exact hback (h.1 0 m' (by decide +kernel) hs).window

end Ceblar
