import Ceblar.Mm.Demand

/-! # The VMA table

What `vmm_map_lazy_range` and `vmm_unmap_range` do to the VMAs of a space, seen from one page:
which VMA covers it and with which flags.
-/

namespace Ceblar

open Function

variable {s : AddressSpace} {i slot : Nat} {base flags page pages stop virt : Word} {v : Vma} {m m' : Vmm}

/-! ## Looking for a VMA -/

theorem findVma_eq_some (s : AddressSpace) (p : Vma → Bool) (i : Nat) :
    s.findVma p = some i ↔ i < 64 ∧ p (s.vmas i) = true ∧ ∀ k < i, p (s.vmas k) = false := by
  rw [AddressSpace.findVma, List.find?_range_eq_some]
  simp only [List.mem_range, Bool.not_eq_eq_eq_not, Bool.not_true]
  tauto

theorem findVma_eq_none (s : AddressSpace) (p : Vma → Bool) :
    s.findVma p = none ↔ ∀ i < 64, p (s.vmas i) = false := by
  simp [AddressSpace.findVma]

theorem freeVma_eq_some (h : s.freeVma = some i) :
    i < 64 ∧ (s.vmas i).used = false := by
  obtain ⟨hi, hfree, -⟩ := (findVma_eq_some _ _ _).mp h
  exact ⟨hi, by simpa using hfree⟩

@[simp] theorem setVma_self (s : AddressSpace) (slot : Nat) (v : Vma) : (s.setVma slot v).vmas slot = v :=
  update_self ..

theorem setVma_ne {k : Nat} (h : k ≠ slot) (s : AddressSpace) (v : Vma) :
    (s.setVma slot v).vmas k = s.vmas k :=
  update_of_ne h _ _

def Vma.Covers (v : Vma) (page : Word) : Prop :=
  v.used = true ∧ v.start.toNat ≤ page.toNat ∧ page.toNat < v.stop.toNat

theorem vmaAt_eq_some (h : s.vmaAt page = some i) :
    i < 64 ∧ (s.vmas i).Covers page := by
  obtain ⟨hi, hp, -⟩ := (findVma_eq_some _ _ _).mp h
  simp only [Bool.and_eq_true, decide_eq_true_eq, BitVec.le_def, BitVec.lt_def] at hp
  exact ⟨hi, hp⟩

theorem vmaAt_isSome (hi : i < 64) (h : (s.vmas i).Covers page) :
    ∃ k, s.vmaAt page = some k := by
  rw [← Option.isSome_iff_exists, Option.isSome_iff_ne_none]
  intro hnone
  have := (findVma_eq_none _ _).mp hnone i hi
  obtain ⟨h1, h2, h3⟩ := h
  simp only [h1, BitVec.le_def, BitVec.lt_def, h2, h3, decide_true, Bool.and_self,
    Bool.true_eq_false] at this

theorem vmaOverlaps_eq_false {start : Word} (h : vmaOverlaps s start stop = false)
    (hi : i < 64) (hused : (s.vmas i).used = true) :
    (s.vmas i).stop.toNat ≤ start.toNat ∨ stop.toNat ≤ (s.vmas i).start.toNat := by
  rw [vmaOverlaps, Option.isSome_eq_false_iff, Option.isNone_iff_eq_none, findVma_eq_none] at h
  have := h i hi
  simp only [hused, Bool.true_and, Bool.and_eq_false_iff, decide_eq_false_iff_not, BitVec.lt_def] at this
  omega

/-! ## A page and its VMA -/

def CoveredBy (s : AddressSpace) (page flags : Word) : Prop :=
  ∃ i < 64, (s.vmas i).Covers page ∧ (s.vmas i).flags = flags ∧
    ∀ k < 64, (s.vmas k).Covers page → k = i

theorem CoveredBy.vmaAt (h : CoveredBy s page flags) :
    ∃ i, s.vmaAt page = some i ∧ (s.vmas i).flags = flags := by
  obtain ⟨i, hi, hcov, hflags, huniq⟩ := h
  obtain ⟨k, hk⟩ := vmaAt_isSome hi hcov
  obtain ⟨hk64, hkcov⟩ := vmaAt_eq_some hk
  exact ⟨k, hk, by rw [huniq k hk64 hkcov]; exact hflags⟩

theorem CoveredBy.congr {s' : AddressSpace} (h : CoveredBy s page flags)
    (hvmas : s'.vmas = s.vmas) : CoveredBy s' page flags := by
  simpa only [CoveredBy, hvmas] using h

theorem CoveredBy.insert (h : CoveredBy s page flags) (hfree : (s.vmas slot).used = false)
    (hv : ¬ v.Covers page) : CoveredBy (s.setVma slot v) page flags := by
  obtain ⟨i, hi, hcov, hflags, huniq⟩ := h
  have hne : i ≠ slot := by
    rintro rfl
    simp [Vma.Covers, hfree] at hcov
  refine ⟨i, hi, ?_, ?_, fun k hk hkc => ?_⟩
  · simpa [AddressSpace.setVma, hne] using hcov
  · simpa [AddressSpace.setVma, hne] using hflags
  · by_cases hks : k = slot
    · subst hks
      simp only [AddressSpace.setVma, update_self] at hkc
      exact absurd hkc hv
    · simp only [AddressSpace.setVma, update_of_ne hks] at hkc
      exact huniq k hk hkc

theorem coveredBy_insert (hslot : slot < 64)
    (hv : v.Covers page) (hnone : ∀ k < 64, ¬ (s.vmas k).Covers page) :
    CoveredBy (s.setVma slot v) page v.flags := by
  refine ⟨slot,
    hslot, by simpa [AddressSpace.setVma] using hv, by simp [AddressSpace.setVma], fun k hk hkc => ?_⟩
  by_contra hks
  simp only [AddressSpace.setVma, update_of_ne hks] at hkc
  exact hnone k hk hkc

theorem CoveredBy.replace {w : Vma} (h : CoveredBy s page flags)
    (hflags : w.flags = (s.vmas slot).flags) (hcov : w.Covers page ↔ (s.vmas slot).Covers page) :
    CoveredBy (s.setVma slot w) page flags := by
  have hsame : ∀ k, ((s.setVma slot w).vmas k).Covers page ↔ (s.vmas k).Covers page := by
    intro k
    by_cases hk : k = slot
    · subst hk
      simpa [AddressSpace.setVma] using hcov
    · simp [AddressSpace.setVma, hk]
  obtain ⟨i, hi, hi1, hi2, huniq⟩ := h
  refine ⟨i, hi, (hsame i).mpr hi1, ?_, fun k hk hkc => huniq k hk ((hsame k).mp hkc)⟩
  by_cases hk : i = slot
  · subst hk
    simpa [AddressSpace.setVma, hflags] using hi2
  · simpa [AddressSpace.setVma, hk] using hi2

theorem CoveredBy.move {other : Nat} {w : Vma}
    (h : CoveredBy s page flags) (hslot : slot < 64) (hother : other < 64) (hne : other ≠ slot)
    (hcov : (s.vmas slot).Covers page) (hv : v.Covers page) (hflags : v.flags = (s.vmas slot).flags)
    (hw : ¬ w.Covers page) : CoveredBy ((s.setVma other v).setVma slot w) page flags := by
  obtain ⟨i, hi, hi1, hi2, huniq⟩ := h
  obtain rfl := huniq slot hslot hcov
  refine ⟨other, hother, ?_, ?_, fun k hk hkc => ?_⟩
  · simpa [AddressSpace.setVma, hne] using hv
  · simpa [AddressSpace.setVma, hne, hflags] using hi2
  · by_contra hko
    by_cases hks : k = slot
    · subst hks
      simp only [AddressSpace.setVma, update_self] at hkc
      exact hw hkc
    · simp only [AddressSpace.setVma, update_of_ne hks, update_of_ne hko] at hkc
      exact hks (huniq k hk hkc)

theorem CoveredBy.cut (h : CoveredBy s page flags)
    (hslot : slot < 64) (hused : (s.vmas slot).used = true)
    (hstart : (s.vmas slot).start.toNat ≤ virt.toNat) (hstop : stop.toNat ≤ (s.vmas slot).stop.toNat)
    (hle : virt.toNat ≤ stop.toNat) (hout : page.toNat < virt.toNat ∨ stop.toNat ≤ page.toNat) :
    CoveredBy (cutVma s slot virt stop) page flags := by
  unfold cutVma
  extract_lets v
  split
  · rename_i hwhole
    have hv := congrArg BitVec.toNat hwhole.1
    have hs := congrArg BitVec.toNat hwhole.2
    refine h.replace rfl ?_
    simp only [Vma.Covers, v, Bool.false_eq_true, false_and, false_iff] at *
    omega
  · split
    · rename_i hleft
      have hv := congrArg BitVec.toNat hleft
      refine h.replace rfl ?_
      simp only [Vma.Covers, v, hused, true_and] at *
      omega
    · split
      · rename_i hright
        have hs := congrArg BitVec.toNat hright
        refine h.replace rfl ?_
        simp only [Vma.Covers, v, hused, true_and] at *
        omega
      · cases hfree : s.freeVma with
        | none => exact h
        | some other =>
          obtain ⟨hother, hunused⟩ := freeVma_eq_some hfree
          have hne : other ≠ slot := by
            rintro rfl
            rw [hused] at hunused
            simp at hunused
          by_cases hright : (s.vmas slot).Covers page ∧ stop.toNat ≤ page.toNat
          · -- The page is in the right part, which moves to the free slot.
            refine h.move hslot hother hne hright.1 ⟨hused, hright.2, hright.1.2.2⟩ rfl ?_
            simp only [Vma.Covers]
            omega
          · refine (h.insert (v := { v with start := stop }) hunused ?_).replace ?_ ?_
            · rintro ⟨-, h1, h2⟩
              exact hright ⟨⟨hused, by simp only [v] at *; omega, h2⟩, h1⟩
            · simp [AddressSpace.setVma, hne.symm, v]
            · simp only [AddressSpace.setVma, update_of_ne hne.symm, Vma.Covers, v, hused, true_and] at *
              omega

structure Vma.Wf (v : Vma) : Prop where
  start_aligned : v.start.toNat % 4096 = 0
  stop_aligned : v.stop.toNat % 4096 = 0
  low : 0x400000 ≤ v.start.toNat
  nonempty : v.start.toNat < v.stop.toNat
  high : v.stop.toNat ≤ 0xc0000000

def AddressSpace.Wf (s : AddressSpace) : Prop := ∀ i < 64, (s.vmas i).used = true → (s.vmas i).Wf

theorem AddressSpace.Wf.setVma (h : s.Wf) (hv : v.used = true → v.Wf) : (s.setVma slot v).Wf := by
  intro i hi hused
  by_cases hs : i = slot
  · subst hs
    simp only [AddressSpace.setVma, update_self] at hused ⊢
    exact hv hused
  · simp only [AddressSpace.setVma, update_of_ne hs] at hused ⊢
    exact h i hi hused

theorem AddressSpace.Wf.cut (h : s.Wf) (hslot : slot < 64)
    (hused : (s.vmas slot).used = true) (hstart : (s.vmas slot).start.toNat ≤ virt.toNat)
    (hstop : stop.toNat ≤ (s.vmas slot).stop.toNat) (hlt : virt.toNat < stop.toNat)
    (hvirt : virt.toNat % 4096 = 0) (hend : stop.toNat % 4096 = 0) : (cutVma s slot virt stop).Wf := by
  obtain ⟨h1, h2, h3, h4, h5⟩ := h slot hslot hused
  have hne : ∀ {a b : Word}, a ≠ b → a.toNat ≠ b.toNat := fun hab he => hab (BitVec.eq_of_toNat_eq he)
  -- The two pieces that can be left are not empty, since the cut does not reach that side.
  have hleft : virt ≠ (s.vmas slot).start → ({ s.vmas slot with stop := virt } : Vma).Wf := by
    intro hv
    have := hne hv
    exact ⟨h1, hvirt, h3, by simp only; omega, by simp only; omega⟩
  have hright : stop ≠ (s.vmas slot).stop → ({ s.vmas slot with start := stop } : Vma).Wf := by
    intro hs
    have := hne hs
    exact ⟨hend, h2, by simp only; omega, by simp only; omega, h5⟩
  unfold cutVma
  extract_lets v
  split
  · exact h.setVma fun hu => by simp at hu
  · rename_i hwhole
    split
    · rename_i hv
      exact h.setVma fun _ => hright fun hs => hwhole ⟨hv, hs⟩
    · rename_i hv
      split
      · exact h.setVma fun _ => hleft hv
      · rename_i hs
        cases s.freeVma with
        | none => exact h
        | some other => exact (h.setVma fun _ => hright hs).setVma fun _ => hleft hv

/-! ## Lazy mapping and unmapping -/

theorem aligned_iff (v : Word) : v &&& 0xfff = 0 ↔ v.toNat % 4096 = 0 := by
  rw [← offset_eq, offset, BitVec.ofNat_eq_ofNat]
  simp [← BitVec.toNat_inj]

theorem toNat_rangeEnd (hp : pages.toNat < 0x100000) (hb : ¬ base + pages * 4096 < base) :
    (base + pages * 4096).toNat = base.toNat + 4096 * pages.toNat := by
  have h4 : (4096 : Word).toNat = 4096 := rfl
  rw [BitVec.lt_def, BitVec.toNat_add, BitVec.toNat_mul, h4] at hb
  rw [BitVec.toNat_add, BitVec.toNat_mul, h4]
  have := base.isLt
  omega

structure LazyMapped (m : Vmm) (i : Nat) (pages flags base : Word) (slot : Nat) (m' : Vmm) : Prop where
  slot_lt : slot < 64
  free : ((m.spaces i).vmas slot).used = false
  state : m' = m.setSpace i ((m.spaces i).setVma slot ⟨base, base + pages * 4096, flags, true⟩)
  stop_eq : (base + pages * 4096).toNat = base.toNat + 4096 * pages.toNat
  wf : (⟨base, base + pages * 4096, flags, true⟩ : Vma).Wf
  apart : vmaOverlaps (m.spaces i) base (base + pages * 4096) = false

theorem LazyMapped.onlySpace (h : LazyMapped m i pages flags base slot m') : OnlySpace i m m' := by
  rw [h.state]
  exact onlySpace_setSpace m i _

theorem placed_wf (hpages : pages ≠ 0 ∧ ¬ 0x80000 < pages) (halign : base &&& 0xfff = 0)
    (hlow : ¬ base < 0x400000) (hwrap : ¬ base + pages * 4096 < base)
    (hhigh : ¬ 0xc0000000 < base + pages * 4096) :
    (base + pages * 4096).toNat = base.toNat + 4096 * pages.toNat ∧
      (⟨base, base + pages * 4096, flags, true⟩ : Vma).Wf := by
  have h8 : (0x80000 : Word).toNat = 0x80000 := rfl
  have h4 : (0x400000 : Word).toNat = 0x400000 := rfl
  have hc : (0xc0000000 : Word).toNat = 0xc0000000 := rfl
  have hp : pages.toNat ≤ 0x80000 := by
    have := hpages.2
    rwa [BitVec.lt_def, h8, Nat.not_lt] at this
  have hp0 : pages.toNat ≠ 0 := fun h0 => hpages.1 (BitVec.eq_of_toNat_eq h0)
  have hstop : (base + pages * 4096).toNat = base.toNat + 4096 * pages.toNat :=
    toNat_rangeEnd (by omega) hwrap
  rw [aligned_iff] at halign
  rw [BitVec.lt_def, h4, Nat.not_lt] at hlow
  rw [BitVec.lt_def, hc, Nat.not_lt] at hhigh
  refine ⟨hstop, halign, ?_, hlow, ?_, hhigh⟩
  all_goals
    simp only [hstop]
    omega

theorem vmmMapLazyRange_spec (h : vmmMapLazyRange m i virt pages flags = some (base, m')) :
    ∃ slot, LazyMapped m i pages flags base slot m' := by
  unfold vmmMapLazyRange at h
  extract_lets s base' stop at h
  split at h
  · simp at h
  · rename_i hpages
    split at h
    · simp at h
    · rename_i hbounds
      simp only [Option.map_eq_some_iff, Prod.mk.injEq] at h
      obtain ⟨slot, hslot, rfl, rfl⟩ := h
      obtain ⟨hlt, hfree⟩ := freeVma_eq_some hslot
      push Not at hpages hbounds
      obtain ⟨halign, hlow, hwrap, hhigh, hover⟩ := hbounds
      obtain ⟨hstop, hwf⟩ := placed_wf hpages halign hlow hwrap hhigh
      exact ⟨slot, hlt, hfree, rfl, hstop, hwf, (Bool.not_eq_true _).mp hover⟩

/-- What `vmm_unmap_range` does when it succeeds: the pages go, and the VMA around them is cut. -/
structure Unmapped (m : Vmm) (i : Nat) (virt pages : Word) (slot : Nat) (m' : Vmm) : Prop where
  slot_lt : slot < 64
  used : ((m.spaces i).vmas slot).used = true
  start_le : ((m.spaces i).vmas slot).start.toNat ≤ virt.toNat
  le_stop : (virt + pages * 4096).toNat ≤ ((m.spaces i).vmas slot).stop.toNat
  state : m' = (unmapPages i virt pages.toNat m).setSpace i
    (cutVma ((unmapPages i virt pages.toNat m).spaces i) slot virt (virt + pages * 4096))
  aligned : virt.toNat % 4096 = 0
  nonzero : pages.toNat ≠ 0
  forward : ¬ virt + pages * 4096 < virt

theorem Unmapped.onlySpace (h : Unmapped m i virt pages slot m') : OnlySpace i m m' := by
  rw [h.state]
  exact (unmapPages_only i virt pages.toNat m).toOnlySpace.trans (onlySpace_setSpace _ i _)

theorem Unmapped.exists_cut (h : Unmapped m i virt pages slot m') :
    ∃ u : AddressSpace, u.vmas = (m.spaces i).vmas ∧
      m'.spaces i = cutVma u slot virt (virt + pages * 4096) := by
  refine ⟨_, (unmapPages_only i virt pages.toNat m).vmas, ?_⟩
  rw [h.state]
  simp [Vmm.setSpace]

theorem vmmUnmapRange_spec
    (h : vmmUnmapRange m i virt pages = some m') : ∃ slot, Unmapped m i virt pages slot m' := by
  unfold vmmUnmapRange at h
  extract_lets s stop at h
  split at h
  · simp at h
  · rename_i hargs
    split at h
    · simp at h
    · rename_i hrange
      split at h
      · simp at h
      · simp only [Option.map_eq_some_iff] at h
        obtain ⟨slot, hslot, rfl⟩ := h
        obtain ⟨hlt, hp, -⟩ := (findVma_eq_some _ _ _).mp hslot
        simp only [Bool.and_eq_true, decide_eq_true_eq, BitVec.le_def] at hp
        push Not at hargs hrange
        exact ⟨slot, hlt, hp.1, hp.2.1, hp.2.2, rfl, (aligned_iff _).mp hargs.2.1,
          fun h0 => hargs.1 (BitVec.eq_of_toNat_eq h0), hrange.1⟩

end Ceblar
