import Ceblar.Mm.PmmCalls

/-! # The memory map and what is handed out

What `pmm_alloc_page` returns after `pmm_init`, told in terms of the available entries of the map.
-/

namespace Ceblar

/-! ## Only usable memory -/

/-- Whatever calls of `pmm_alloc_page` return lies in an available entry and above the kernel. -/
def OnlyUsable (rs : List Region) (kernelEnd : Word) (start : Pmm) : Prop :=
  ∀ n p a p', pmmAllocs n start = some p → pmmAllocPage p = some (a, p') →
    (∃ r ∈ rs, r.Contains a.toNat) ∧ kernelEnd.toNat ≤ a.toNat

/-- A frame of the entry that is not in it: the page that it starts in the middle of, and any frame
of an entry whose page number does not fit into 32 bits. -/
def Region.Loose (r : Region) (f : Nat) : Prop :=
  r.Holds f ∧ (2 ^ 44 ≤ r.addr.toNat ∨ (f = r.addr.toNat / 4096 ∧ r.addr.toNat % 4096 ≠ 0))

/-- `pmm_alloc_page` looks at frame `f`, and the kernel does not have it. -/
def Findable (rs : List Region) (kernelEnd : Word) (f : Nat) : Prop :=
  0 < f ∧ f < frameCount rs ∧ kernelPages kernelEnd ≤ f

structure MapFits (rs : List Region) (kernelEnd : Word) : Prop where
  kernel : kernelEnd.toNat ≤ 0xfffff000 ∨ ∀ f, Released rs f → ¬ Findable rs kernelEnd f
  loose : ∀ r ∈ rs, ∀ f, r.Loose f → Findable rs kernelEnd f → ∃ r' ∈ rs, r'.Contains (f * 4096)
  found : (∃ r ∈ rs, r.first.toNat < r.stop) ∨ ∀ f, Findable rs kernelEnd f →
    ∃ r ∈ rs, r.Contains (f * 4096)

section

variable {rs : List Region} {kernelEnd : Word} {start : Pmm} {f : Nat} {r : Region}

theorem onlyUsable_iff_available : OnlyUsable rs kernelEnd start ↔
    ∀ f ∈ start.available, (∃ r ∈ rs, r.Contains (f * 4096)) ∧ kernelEnd.toNat ≤ f * 4096 := by
  constructor
  · intro h f hf
    obtain ⟨n, q, a, q', hq, ha, rfl⟩ := exists_allocs hf
    rw [← (available_alloc ha).1]
    exact h n q a q' hq ha
  · intro h n p a p' hp ha
    obtain ⟨hnum, hmem, -⟩ := available_alloc ha
    rw [hnum]
    exact h _ ((pmmAllocs_available hp).1 hmem)

theorem Region.Holds.contains (h : r.Holds f) (hfirm : ¬ r.Loose f) : r.Contains (f * 4096) := by
  have hsum : (r.first + r.pages).toNat ≤ r.first.toNat + r.pages.toNat := by
    rw [BitVec.toNat_add]
    exact Nat.mod_le _ _
  have hfirst : r.first.toNat = r.addr.toNat / 4096 % 2 ^ 32 := by
    rw [Region.first, BitVec.toNat_setWidth, BitVec.toNat_udiv]
    rfl
  have hpages : r.pages.toNat ≤ r.len.toNat / 4096 := by
    rw [Region.pages, BitVec.toNat_setWidth, BitVec.toNat_udiv]
    exact Nat.mod_le _ _
  have hloose : r.addr.toNat < 2 ^ 44 ∧ (f = r.addr.toNat / 4096 → r.addr.toNat % 4096 = 0) := by
    unfold Region.Loose at hfirm
    rw [not_and, not_or, not_le, not_and, not_not] at hfirm
    exact hfirm h
  obtain ⟨hlow, hhigh⟩ := h
  have hstop := Nat.lt_of_lt_of_le hhigh (Nat.min_le_left _ _)
  unfold Region.Contains
  rw [hfirst] at hlow hsum
  omega

theorem frameCount_le : frameCount rs ≤ 65536 := by
  simpa [frameCount] using Finset.card_filter_le (Finset.range 65536) (Released rs)

theorem le_kernelPages (hend : kernelEnd.toNat ≤ 0xfffff000) (h : kernelPages kernelEnd ≤ f) :
    kernelEnd.toNat ≤ f * 4096 := by
  have hpages : kernelPages kernelEnd = (kernelEnd.toNat + 4095) % 2 ^ 32 / 4096 := by
    rw [kernelPages, BitVec.toNat_udiv, BitVec.toNat_add]
    rfl
  omega

variable {mem : Mem} {mbi : Word} {fuel : Nat}

theorem available_start (hrs : mbiRegions mem mbi (load32 mem mbi) fuel 8 = some rs)
    (hinit : pmmInit mem mbi kernelEnd fuel = some start) (f : Nat) :
    f ∈ start.available ↔ Findable rs kernelEnd f ∧ Released rs f := by
  obtain ⟨htotal, hbitmap⟩ := pmmInit_spec hrs hinit
  rw [mem_available, htotal, hbitmap]
  constructor
  · rintro ⟨h0, hlt, hrel, hkernel⟩
    exact ⟨⟨h0, hlt, hkernel⟩, hrel⟩
  · rintro ⟨⟨h0, hlt, hkernel⟩, hrel⟩
    exact ⟨h0, hlt, hrel, hkernel⟩

/-- Every frame that can be handed out is usable memory exactly if the loose frames are not handed
out, or lie in another entry; if the end of the kernel does not wrap; and if the map has a frame
below 256 MiB. -/
theorem only_usable_iff (hrs : mbiRegions mem mbi (load32 mem mbi) fuel 8 = some rs)
    (hinit : pmmInit mem mbi kernelEnd fuel = some start) :
    OnlyUsable rs kernelEnd start ↔ MapFits rs kernelEnd := by
  have hstart := available_start hrs hinit
  rw [onlyUsable_iff_available]
  constructor
  · intro h
    refine ⟨?_, fun r hr f hloose hscan => ?_, ?_⟩
    · by_cases hend : kernelEnd.toNat ≤ 0xfffff000
      · exact .inl hend
      · refine .inr fun f hrel hscan => ?_
        have habove := (h f ((hstart f).mpr ⟨hscan, hrel⟩)).2
        have := hrel.1
        omega
    · have hrel : Released rs f := ⟨hloose.1.lt, .inl ⟨r, hr, hloose.1⟩⟩
      exact (h f ((hstart f).mpr ⟨hscan, hrel⟩)).1
    · by_cases hfound : ∃ r ∈ rs, r.first.toNat < r.stop
      · exact .inl hfound
      · refine .inr fun f hscan => ?_
        have hnone : ∀ r ∈ rs, r.stop ≤ r.first.toNat :=
          fun r hr => Nat.le_of_not_lt fun hlt => hfound ⟨r, hr, hlt⟩
        have hrel : Released rs f := ⟨Nat.lt_of_lt_of_le hscan.2.1 frameCount_le, .inr hnone⟩
        exact (h f ((hstart f).mpr ⟨hscan, hrel⟩)).1
  · rintro ⟨hkernel, hloose, hfound⟩ f hf
    obtain ⟨hscan, hrel⟩ := (hstart f).mp hf
    refine ⟨?_, le_kernelPages (hkernel.resolve_right fun h => h f hrel hscan) hscan.2.2⟩
    rcases hrel.2 with ⟨r, hr, hheld⟩ | hnone
    · by_cases hl : r.Loose f
      · exact hloose r hr f hl hscan
      · exact ⟨r, hr, hheld.contains hl⟩
    · refine hfound.resolve_left ?_ f hscan
      rintro ⟨r, hr, hlt⟩
      exact absurd (hnone r hr) (Nat.not_le_of_lt hlt)

theorem only_usable_pc : pmmInit pcMap 0x10000 0x37b000 20 = some pcStart ∧
    (pmmAllocPage pcStart).map (·.1) = some 0x37b000 ∧ OnlyUsable pcRegions 0x37b000 pcStart := by
  refine ⟨pcMap_start, by decide +kernel,
    (only_usable_iff pcMap_regions pcMap_start).mpr ⟨.inl (by decide), ?_, .inl ?_⟩⟩
  · intro r hr f hl
    simp only [pcRegions, List.mem_cons, List.not_mem_nil, or_false] at hr
    rcases hr with rfl | rfl <;> simp [Region.Loose] at hl
  · exact ⟨_, List.mem_cons_self, by decide⟩

def splitRegions : List Region := [⟨0, 0x9f000⟩, ⟨0x100000, 0x500000⟩, ⟨0x600800, 0x100000⟩]

/-- The frame at 6 MiB is handed out, and its first half is not available. -/
theorem releases_unusable : ∃ start,
    mbiRegions (infoBlock 0x10000 splitRegions) 0x10000
      (load32 (infoBlock 0x10000 splitRegions) 0x10000) 20 8 = some splitRegions ∧
    pmmInit (infoBlock 0x10000 splitRegions) 0x10000 0x400000 20 = some start ∧ start.Allocatable 0x600 ∧
    ¬ OnlyUsable splitRegions 0x400000 start := by
  have hrs : mbiRegions (infoBlock 0x10000 splitRegions) 0x10000
      (load32 (infoBlock 0x10000 splitRegions) 0x10000) 20 8 = some splitRegions := by
    decide +kernel
  obtain ⟨start, hstart⟩ := pmmInit_some hrs 0x400000
  have hcount : frameCount splitRegions = 1695 := frameCount_eq (by decide) (by decide)
  have hmem : 0x600 ∈ start.available :=
    (available_start hrs hstart _).mpr ⟨⟨by decide, by rw [hcount]; decide, by decide⟩, by decide⟩
  refine ⟨start, hrs, hstart, exists_allocs hmem, fun h => ?_⟩
  obtain ⟨⟨r, hr, hcontains⟩, -⟩ := onlyUsable_iff_available.mp h _ hmem
  revert hcontains
  revert r
  unfold Region.Contains
  decide

/-- After as many calls as there are free pages, and not before, `pmm_alloc_page` returns 0. -/
def FreeAllocatable (start : Pmm) : Prop :=
  ∃ p, pmmAllocs (pmmFreePages start).toNat start = some p ∧ pmmAllocPage p = none

theorem freeAllocatable_iff_card :
    FreeAllocatable start ↔ (pmmFreePages start).toNat = start.available.card := by
  constructor
  · rintro ⟨p, hp, hnone⟩
    have hcard := (pmmAllocs_available hp).2
    rw [alloc_none_iff.mp hnone, Finset.card_empty, Nat.zero_add] at hcard
    exact hcard
  · intro h
    obtain ⟨p, hp⟩ := pmmAllocs_of_le (Nat.le_of_eq h)
    refine ⟨p, hp, alloc_none_iff.mpr (Finset.card_eq_zero.mp ?_)⟩
    have hcard := (pmmAllocs_available hp).2
    omega

/-- All free frames can be found exactly if their numbers are below the number of frames: the map
has no hole in front of a frame that is not the kernel's. -/
theorem free_allocatable_iff (hrs : mbiRegions mem mbi (load32 mem mbi) fuel 8 = some rs)
    (hinit : pmmInit mem mbi kernelEnd fuel = some start) :
    FreeAllocatable start ↔ ∀ f, Released rs f → kernelPages kernelEnd ≤ f → 0 < f ∧
    f < frameCount rs := by
  have hfree : (pmmFreePages start).toNat = {f ∈ Finset.range 65536 | start.bitmap f = false}.card :=
    (HeldInv.of_started (pmmInit_started hinit)).conservative.counted
  obtain ⟨htotal, hbitmap⟩ := pmmInit_spec hrs hinit
  have hsub : start.available ⊆ {f ∈ Finset.range 65536 | start.bitmap f = false} := by
    intro f hf
    obtain ⟨-, hlt, hclear⟩ := mem_available.mp hf
    have := start.total_le
    exact Finset.mem_filter.mpr ⟨Finset.mem_range.mpr (by omega), hclear⟩
  rw [freeAllocatable_iff_card, hfree]
  constructor
  · intro hcard f hrel hkernel
    have hmem : f ∈ start.available := by
      rw [Finset.eq_of_subset_of_card_le hsub (Nat.le_of_eq hcard)]
      exact Finset.mem_filter.mpr ⟨Finset.mem_range.mpr hrel.1, (hbitmap f).mpr ⟨hrel, hkernel⟩⟩
    obtain ⟨h0, hlt, -⟩ := mem_available.mp hmem
    exact ⟨h0, htotal ▸ hlt⟩
  · intro h
    refine congrArg Finset.card (Finset.Subset.antisymm (fun f hf => ?_) hsub)
    obtain ⟨-, hclear⟩ := Finset.mem_filter.mp hf
    obtain ⟨hrel, hkernel⟩ := (hbitmap f).mp hclear
    obtain ⟨h0, hlt⟩ := h f hrel hkernel
    exact mem_available.mpr ⟨h0, htotal ▸ hlt, hclear⟩

theorem free_allocatable_flat :
    ∃ start, pmmInit (infoBlock 0x10000 [⟨0, 0x7fe0000⟩]) 0x10000 0x37b000 20 = some start ∧
    FreeAllocatable start := by
  have hrs : mbiRegions (infoBlock 0x10000 [⟨0, 0x7fe0000⟩]) 0x10000
      (load32 (infoBlock 0x10000 [⟨0, 0x7fe0000⟩]) 0x10000) 20 8 = some [⟨0, 0x7fe0000⟩] := by
    decide +kernel
  obtain ⟨start, hstart⟩ := pmmInit_some hrs 0x37b000
  refine ⟨start, hstart, (free_allocatable_iff hrs hstart).mpr fun f hrel hkernel => ?_⟩
  have hcount : frameCount [⟨0, 0x7fe0000⟩] = 32736 := frameCount_eq (by decide) (by decide)
  have hpages : kernelPages 0x37b000 = 891 := by decide
  have hstop : Region.stop ⟨0, 0x7fe0000⟩ = 32736 := by decide
  rcases hrel.2 with ⟨r, hr, hheld⟩ | hnone
  · rw [List.mem_singleton.mp hr] at hheld
    have := hheld.2
    omega
  · exact absurd (hnone _ (List.mem_singleton_self _)) (by decide)

/-- With the hole 31845 pages are reported as free, and call 31749 finds none. -/
theorem free_not_allocatable :
    pmmInit pcMap 0x10000 0x37b000 20 = some pcStart ∧ pmmFreePages pcStart = 31845 ∧
    (∃ p, pmmAllocs 31748 pcStart = some p ∧ pmmAllocPage p = none) ∧ ¬ FreeAllocatable pcStart := by
  have hcard : pcStart.available.card = 31748 := by
    have hico : pcStart.available = Finset.Ico 891 32639 := by
      ext f
      rw [mem_available, Finset.mem_Ico]
      simp [pcStart]
      omega
    rw [hico, Nat.card_Ico]
  have hfree : pmmFreePages pcStart = 31845 := by decide
  obtain ⟨p, hp⟩ := pmmAllocs_of_le hcard.ge
  refine ⟨pcMap_start, hfree, ⟨p, hp, alloc_none_iff.mpr (Finset.card_eq_zero.mp ?_)⟩, fun h => ?_⟩
  · have := (pmmAllocs_available hp).2
    omega
  · have := freeAllocatable_iff_card.mp h
    rw [hfree, hcard] at this
    exact absurd this (by decide)

end

end Ceblar
