import Ceblar.Mm.DemandZero
import Ceblar.Mm.Unmap

/-! # Does `munmap` undo `mmap`?

`vmm_unmap_range` wants every page of the range to be resident, as `vmm_map_range` leaves them.
-/

namespace Ceblar

def pagesOn (m : Vmm) (i : Nat) (virt : Word) (g n : Nat) : Nat :=
  (List.range n).countP fun k => pageNumber (faultEntry m i (pageAt virt k)) == g

section

variable {m : Vmm} {i g n : Nat} {virt a : Word} {p : Pmm}

theorem pagesOn_succ : pagesOn m i virt g (n + 1) =
    pagesOn m i virt g n + if pageNumber (faultEntry m i (pageAt virt n)) = g then 1 else 0 := by
  simp [pagesOn, List.range_succ, List.countP_append, List.countP_cons]

theorem inUse_freePage_other (h : pageNumber a ≠ g) : (pmmFreePage p a).inUse g = p.inUse g := by
  have htotal : (pmmFreePage p a).total = p.total := by
    unfold pmmFreePage
    dsimp only
    split
    · split <;> rfl
    · rfl
  rw [Pmm.inUse, Pmm.inUse, htotal, (pmmFreePage_other p h).1]

theorem inUse_freePage : (pmmFreePage p a).inUse (pageNumber a) = true ↔
    p.inUse (pageNumber a) = true ∧ 1 < (p.refs (pageNumber a)).toNat := by
  unfold pmmFreePage
  dsimp only
  split
  next huse =>
    split
    next hmany => exact ⟨fun _ => ⟨huse, hmany⟩, fun _ => huse⟩
    next hlast => simp [Pmm.inUse, show ¬ 1 < (p.refs (pageNumber a)).toNat from hlast]
  next hfree => simp [hfree]

theorem refs_freePage (huse : p.inUse (pageNumber a) = true) (hmany : 1 < (p.refs (pageNumber a)).toNat) :
    ((pmmFreePage p a).refs (pageNumber a)).toNat = (p.refs (pageNumber a)).toNat - 1 := by
  have hlt : 1 < p.refs (pageNumber a) := hmany
  unfold pmmFreePage
  dsimp only
  rw [if_pos huse, if_pos hlt]
  simp only [Function.update_self]
  rw [BitVec.toNat_sub_of_le (by rw [BitVec.le_def]; exact hmany.le)]
  rfl

/-- The allocator `p` after the frames of `n` pages have been given back, as far as frame `g` goes:
it is in use if more references were counted than pages were on it. -/
structure FreedFrame (m : Vmm) (i : Nat) (virt : Word) (g n : Nat) (p : Pmm) : Prop where
  inUse_iff : p.inUse g = true ↔ m.pmm.inUse g = true ∧ pagesOn m i virt g n < max 1 (m.pmm.refs g).toNat
  refs : p.inUse g = true → (p.refs g).toNat = (m.pmm.refs g).toNat - pagesOn m i virt g n

theorem freedPages_frame (m : Vmm) (i : Nat) (virt : Word) (g n : Nat) :
    FreedFrame m i virt g n (freedPages m i virt n) := by
  refine forRange_inv (FreedFrame m i virt g) n ⟨by simp [pagesOn], by simp [pagesOn]⟩ fun k _ p h => ?_
  have hpage := pageNumber_pageBase (faultEntry m i (pageAt virt k))
  by_cases hg : pageNumber (faultEntry m i (pageAt virt k)) = g
  · have hcount : pagesOn m i virt g (k + 1) = pagesOn m i virt g k + 1 := by rw [pagesOn_succ, if_pos hg]
    obtain rfl := hpage.trans hg
    refine ⟨?_, fun hu => ?_⟩
    · rw [inUse_freePage, hcount]
      constructor
      · rintro ⟨hu, hmany⟩
        have := h.refs hu
        exact ⟨(h.inUse_iff.mp hu).1, by omega⟩
      · rintro ⟨hu, hlt⟩
        have hu' := h.inUse_iff.mpr ⟨hu, by omega⟩
        have := h.refs hu'
        exact ⟨hu', by omega⟩
    · obtain ⟨hu, hmany⟩ := inUse_freePage.mp hu
      rw [refs_freePage hu hmany, h.refs hu, hcount]
      omega
  · have hcount : pagesOn m i virt g (k + 1) = pagesOn m i virt g k := by
      rw [pagesOn_succ, if_neg hg, Nat.add_zero]
    rw [← hpage] at hg
    refine ⟨?_, ?_⟩
    · rw [inUse_freePage_other hg, hcount]
      exact h.inUse_iff
    · rw [inUse_freePage_other hg, (pmmFreePage_other p hg).2, hcount]
      exact h.refs

end

/-! ## A lazy range -/

instance (virt pages a : Word) : Decidable (InRange virt pages a) := inferInstanceAs (Decidable (_ ∧ _))

instance (s : AddressSpace) (virt pages : Word) : Decidable (Resident s virt pages) :=
  inferInstanceAs (Decidable (∀ k < pages.toNat, _))

section

variable {m m' : Vmm} {i slot k : Nat} {pages flags base a f : Word}

theorem LazyMapped.range (h : LazyMapped m i pages flags base slot m') :
    (⟨base, base + pages * 4096, flags, true⟩ : Vma).Covers a ↔ InRange base pages a := by
  simp only [Vma.Covers, InRange, h.stop_eq, true_and]

theorem LazyMapped.space (h : LazyMapped m i pages flags base slot m') :
    m'.spaces i = (m.spaces i).setVma slot ⟨base, base + pages * 4096, flags, true⟩ := by
  rw [h.state]
  exact Function.update_self ..

theorem LazyMapped.outside (h : LazyMapped m i pages flags base slot m') (hk : k < 64)
    (hcov : ((m.spaces i).vmas k).Covers a) : ¬ InRange base pages a := by
  have hapart := vmaOverlaps_eq_false h.apart hk hcov.1
  have hstop := h.stop_eq
  have := hcov.2
  unfold InRange
  omega

theorem LazyMapped.slot_of_covers (h : LazyMapped m i pages flags base slot m') (hk : k < 64)
    (hcov : ((m'.spaces i).vmas k).Covers a) (hin : InRange base pages a) : k = slot := by
  by_contra hne
  rw [h.space, setVma_ne hne] at hcov
  exact h.outside hk hcov hin

theorem LazyMapped.coversWith (h : LazyMapped m i pages flags base slot m') :
    (m'.spaces i).CoversWith a f ↔ (InRange base pages a ∧ flags = f) ∨ (m.spaces i).CoversWith a f := by
  rw [h.space, coversWith_setVma h.slot_lt, h.range, coversWith_iff h.slot_lt]
  have hfree : ¬ ((m.spaces i).vmas slot).Covers a :=
    fun hc => absurd (hc.1.symm.trans h.free) (by decide)
  simp only [hfree, false_and, false_or]

theorem LazyMapped.args (h : LazyMapped m i pages flags base slot m') : UnmapArgs base pages := by
  obtain ⟨h1, -, h3, h4, h5⟩ := h.wf
  have hstop := h.stop_eq
  simp only at h1 h3 h4 h5
  have h400 : (0x400000 : Word).toNat = 0x400000 := rfl
  have hc00 : (0xc0000000 : Word).toNat = 0xc0000000 := rfl
  refine ⟨?_, (aligned_iff _).mpr h1, ?_, ?_, ?_, ?_⟩
  · rintro rfl
    simp at hstop
    simp at h4
  · rw [BitVec.lt_def]
    omega
  · rw [BitVec.le_def]
    omega
  · rw [BitVec.lt_def]
    omega
  · rw [BitVec.lt_def]
    omega

end

/-! ## Touching and unmapping -/

def touchStep (i : Nat) (base pages : Word) (m : Vmm) (c : FaultCall) : Option Vmm :=
  if m.currentSpace = some i ∧ InRange base pages c.page then
    (vmmPageFault m c.error c.address c.cr2).toOption
  else none

structure Undone (m₀ m : Vmm) (i : Nat) (base pages : Word) (touched : List Word) (m' : Vmm) : Prop where
  absent : ∀ k < pages.toNat, bit (faultEntry m' i (pageAt base k)) 0 = false
  covered : ∀ a, (∃ flags, (m'.spaces i).CoversWith a flags) ↔ ∃ flags, (m₀.spaces i).CoversWith a flags
  returned : ∀ page ∈ touched, m'.pmm.inUse (pageNumber (faultEntry m i page)) = false

/-- `vmm_unmap_range` returns 0 and undoes what the mapping and the touched pages did. -/
def MunmapUndoes (m₀ m : Vmm) (i : Nat) (base pages : Word) (touched : List Word) : Prop :=
  ∃ m', vmmUnmapRange m i base pages = some m' ∧ Undone m₀ m i base pages touched m'

/-- The allocator counts no more references to frame `g` than there are pages of the range on it. -/
def HeldByRange (m : Vmm) (i : Nat) (base pages : Word) (g : Nat) : Prop :=
  m.pmm.inUse g = true → (m.pmm.refs g).toNat ≤ pagesOn m i base g pages.toNat

section

variable {m₀ m₁ m₂ m' : Vmm} {i slot : Nat} {base pages flags : Word} {touches : List FaultCall}

theorem touched_inRange (hrun : runs (touchStep i base pages) m₁ touches = some m₂) {c : FaultCall}
    (hc : c ∈ touches) :
    InRange base pages c.page := by
  induction touches generalizing m₁ with
  | nil => cases hc
  | cons d touches ih =>
    rw [runs_cons, Option.bind_eq_some_iff] at hrun
    obtain ⟨m, hs, hrest⟩ := hrun
    rcases List.mem_cons.mp hc with rfl | hc
    · unfold touchStep at hs
      split at hs
      next h => exact h.2
      next => cases hs
    · exact ih hrest hc

theorem touched_sameVmas (hrun : runs (touchStep i base pages) m₁ touches = some m₂) :
    SameVmas m₁ m₂ := by
  refine runs_inv (SameVmas m₁) (fun m c m' h hs => h.trans ?_) (.refl m₁) hrun
  unfold touchStep at hs
  split at hs
  next => exact vmmPageFault_sameVmas (toOption_eq_some hs)
  next => cases hs

theorem pagesOn_pos (hbase : base.toNat % 4096 = 0) (hfits : base.toNat + 4096 * pages.toNat < 4294967296)
    {c : FaultCall} (hin : InRange base pages c.page) (m : Vmm) :
    1 ≤ pagesOn m i base (pageNumber (faultEntry m i c.page)) pages.toNat := by
  have haligned := page_aligned c.address c.cr2
  change c.page.toNat % 4096 = 0 at haligned
  obtain ⟨k, hk⟩ : ∃ k, c.page.toNat = base.toNat + 4096 * k := ⟨(c.page.toNat - base.toNat) / 4096, by
    have := hin.1
    omega⟩
  have hlt : k < pages.toNat := by
    have := hin.2
    omega
  have hpage : pageAt base k = c.page := BitVec.eq_of_toNat_eq (by rw [toNat_pageAt (by omega), hk])
  refine Nat.one_le_iff_ne_zero.mpr fun h0 => ?_
  have hnone := List.countP_eq_zero.mp h0 k (List.mem_range.mpr hlt)
  rw [hpage] at hnone
  simp at hnone

theorem unmap_touched (hl : LazyMapped m₀ i pages flags base slot m₁) (hsame : SameVmas m₁ m₂)
    (hres : Resident (m₂.spaces i) base pages) :
    ∃ m', vmmUnmapRange m₂ i base pages = some m' ∧ RangeRemoved m₂ i base pages m' := by
  have hvmas := hsame.vmas i
  have hself : (m₂.spaces i).vmas slot = ⟨base, base + pages * 4096, flags, true⟩ := by
    rw [hvmas, hl.space, setVma_self]
  have honly : ∀ a, InRange base pages a → ∀ k < 64, ((m₂.spaces i).vmas k).Covers a → k = slot := by
    intro a hin k hk hcov
    rw [hvmas] at hcov
    exact hl.slot_of_covers hk hcov hin
  have hin : InRange base pages base := by
    refine ⟨le_rfl, ?_⟩
    have := hl.wf.nonempty
    simp only [hl.stop_eq] at this
    exact this
  -- the search finds the VMA of the range, since no other one covers its first address
  have haround : (m₂.spaces i).around base (base + pages * 4096) = some slot := by
    obtain ⟨k, hk⟩ : ∃ k, (m₂.spaces i).around base (base + pages * 4096) = some k := by
      rw [← Option.isSome_iff_exists, Option.isSome_iff_ne_none]
      intro hnone
      have := (findVma_eq_none _ _).mp hnone slot hl.slot_lt
      simp [hself] at this
    obtain ⟨hlt, hused, hstart, hstop⟩ := around_eq_some hk
    rw [hk, honly base hin k hlt ⟨hused, hstart, by rw [hl.stop_eq] at hstop; have := hin.2; omega⟩]
  refine ⟨_, vmmUnmapRange_eq_some.mpr ⟨hl.args, hres, slot, haround, rfl⟩, ?_⟩
  obtain ⟨slot', hcut⟩ :=
    vmmUnmapRange_cut (vmmUnmapRange_eq_some.mpr ⟨hl.args, hres, slot, haround, rfl⟩)
  refine hcut.removed ?_ fun a ha j hj k hk hcj hck => (honly a ha j hj hcj).trans
    (honly a ha k hk hck).symm
  rintro ⟨slot', hslot', hleft, -⟩
  obtain rfl : slot = slot' := Option.some.inj (haround.symm.trans hslot')
  rw [hself] at hleft
  exact hleft rfl

end

/-- `munmap` undoes `mmap` exactly if every page of the range is resident and the frames of the
touched pages have no holder outside of it. -/
theorem munmap_undoes_iff (m₀ m₁ m₂ : Vmm) (i : Nat) (virt pages flags base : Word)
    (touches : List FaultCall) (hmap : vmmMapLazyRange m₀ i virt pages flags = some (base, m₁))
    (hrun : runs (touchStep i base pages) m₁ touches = some m₂) :
    MunmapUndoes m₀ m₂ i base pages (touches.map FaultCall.page) ↔
      Resident (m₂.spaces i) base pages ∧
        ∀ page ∈ touches.map FaultCall.page,
        HeldByRange m₂ i base pages (pageNumber (faultEntry m₂ i page)) := by
  obtain ⟨slot, hl⟩ := vmmMapLazyRange_spec hmap
  have hsame := touched_sameVmas hrun
  constructor
  · rintro ⟨m', hun, hundone⟩
    obtain ⟨slot', hcut⟩ := vmmUnmapRange_cut hun
    refine ⟨(vmmUnmapRange_eq_some.mp hun).2.1, fun page hpage huse => ?_⟩
    have hfree := hundone.returned page hpage
    rw [hcut.gone.pmm] at hfree
    by_contra hmore
    rw [(freedPages_frame m₂ i base _ pages.toNat).inUse_iff.mpr ⟨huse, by omega⟩] at hfree
    cases hfree
  · rintro ⟨hres, hheld⟩
    obtain ⟨m', hun, hrem⟩ := unmap_touched hl hsame hres
    obtain ⟨slot', hcut⟩ := vmmUnmapRange_cut hun
    refine ⟨m', hun, hrem.absent, fun a => ?_, fun page hpage => ?_⟩
    · refine exists_congr fun f => ?_
      rw [hrem.covered, coversWith_congr (hsame.vmas i), hl.coversWith]
      constructor
      · rintro ⟨⟨hin, -⟩ | hcov, hout⟩
        · exact absurd hin hout
        · exact hcov
      · intro hcov
        have ⟨k, hk, hcovers, _⟩ := hcov
        exact ⟨.inr hcov, hl.outside hk hcovers⟩
    · obtain ⟨c, hc, rfl⟩ := List.mem_map.mp hpage
      have hpos := pagesOn_pos (i := i) hcut.aligned hcut.fits (touched_inRange hrun hc) m₂
      rw [hcut.gone.pmm, ← Bool.not_eq_true, (freedPages_frame m₂ i base _ pages.toNat).inUse_iff]
      rintro ⟨huse, hlt⟩
      have := hheld c.page hpage huse
      omega

def touchedPages (touches : List FaultCall) : Option (Word × Vmm × Vmm) :=
  (vmmMapLazyRange userMachine 0 0x400000 2 pageWrite).bind fun (base, m₁) =>
    (runs (touchStep 0 base 2) m₁ touches).map fun m₂ => (base, m₁, m₂)

theorem touchedPages_eq_some {touches : List FaultCall} {base : Word} {m₁ m₂ : Vmm}
    (h : touchedPages touches = some (base, m₁, m₂)) :
    vmmMapLazyRange userMachine 0 0x400000 2 pageWrite = some (base, m₁) ∧
      runs (touchStep 0 base 2) m₁ touches = some m₂ := by
  obtain ⟨⟨base, m₁⟩, hmap, hrun⟩ := Option.bind_eq_some_iff.mp h
  obtain ⟨m₂, hrun, heq⟩ := Option.map_eq_some_iff.mp hrun
  cases heq
  exact ⟨hmap, hrun⟩

theorem munmap_undoes_iff_all : ∃ base m₁ m₂,
    touchedPages [⟨4, 0x400000, 0⟩, ⟨6, 0x401000, 0⟩] = some (base, m₁, m₂) ∧
    MunmapUndoes userMachine m₂ 0 base 2 ([⟨4, 0x400000, 0⟩, ⟨6, 0x401000, 0⟩].map FaultCall.page) := by
  have hres : (touchedPages [⟨4, 0x400000, 0⟩, ⟨6, 0x401000, 0⟩]).map
      (fun r => decide (Resident (r.2.2.spaces 0) r.1 2)) = some true := by decide +kernel
  have hfree : (touchedPages [⟨4, 0x400000, 0⟩, ⟨6, 0x401000, 0⟩]).map
      (fun r => [0x400000, 0x401000].all fun page => !r.2.2.pmm.inUse
        (pageNumber (faultEntry r.2.2 0 page))) =
      some true := by decide +kernel
  obtain ⟨⟨base, m₁, m₂⟩, hr, hres⟩ := Option.map_eq_some_iff.mp hres
  rw [hr, Option.map_some, Option.some.injEq, List.all_eq_true] at hfree
  obtain ⟨hmap, hrun⟩ := touchedPages_eq_some hr
  refine ⟨base, m₁, m₂, hr, (munmap_undoes_iff _ m₁ m₂ 0 _ 2 _ base _ hmap hrun).mpr
    ⟨of_decide_eq_true hres, fun page hpage huse => ?_⟩⟩
  have := hfree page hpage
  rw [huse] at this
  cases this

/-- Only the first page is touched, and `vmm_unmap_range` refuses the range. -/
theorem munmap_untouched_fails : ∃ base m₁ m₂, touchedPages [⟨4, 0x400000, 0⟩] = some (base, m₁, m₂) ∧
    vmmUnmapRange m₂ 0 base 2 = none ∧
    ¬ MunmapUndoes userMachine m₂ 0 base 2 ([⟨4, 0x400000, 0⟩].map FaultCall.page) := by
  have hnone :
      (touchedPages [⟨4, 0x400000, 0⟩]).map (fun r => (vmmUnmapRange r.2.2 0 r.1 2).isNone) =
        some true := by
    decide +kernel
  obtain ⟨⟨base, m₁, m₂⟩, hr, hnone⟩ := Option.map_eq_some_iff.mp hnone
  have hfail : vmmUnmapRange m₂ 0 base 2 = none := Option.isNone_iff_eq_none.mp hnone
  refine ⟨base, m₁, m₂, hr, hfail, ?_⟩
  rintro ⟨m', hun, -⟩
  cases hfail.symm.trans hun

end Ceblar
