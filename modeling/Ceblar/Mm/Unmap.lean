import Ceblar.Mm.Intervals

/-! # Taking a range away

The pages of the range have no entry, their frames went to the allocator one by one, and the VMA
around them lost the range, unless there was no slot for its second half.
-/

namespace Ceblar

def InRange (virt pages a : Word) : Prop :=
  virt.toNat ≤ a.toNat ∧ a.toNat < virt.toNat + 4096 * pages.toNat

/-- Every page of the range is mapped: the scan that `vmm_unmap_range` makes first. -/
def Resident (s : AddressSpace) (virt pages : Word) : Prop :=
  ∀ k < pages.toNat, vmmGetUserPhysical s (pageAt virt k) ≠ 0

def freedPages (m : Vmm) (i : Nat) (virt : Word) (n : Nat) : Pmm :=
  forRange n (fun k p => pmmFreePage p (pageBase (faultEntry m i (pageAt virt k)))) m.pmm

structure PagesGone (m : Vmm) (i : Nat) (virt : Word) (n : Nat) (m' : Vmm) : Prop where
  tableUsed : ∀ t, (m'.spaces i).tableUsed t = (m.spaces i).tableUsed t
  gone : ∀ k < n, faultEntry m' i (pageAt virt k) = 0
  kept : ∀ a t, userSlot a = some t → (∀ k < n, pageNumber a ≠ pageNumber (pageAt virt k)) →
    faultEntry m' i a = faultEntry m i a
  pmm : m'.pmm = freedPages m i virt n

section

variable {m m' : Vmm} {i n : Nat} {virt pages : Word}

theorem vmmUnmapUser_present {a : Word} {t : Nat} (hslot : userSlot a = some t)
    (hused : (m.spaces i).tableUsed t = true) (hbit : bit (faultEntry m i a) 0 = true) :
    vmmUnmapUser m i a =
      some ({ m with pmm := pmmFreePage m.pmm (pageBase (faultEntry m i a)) }.setPte i t
        (tableIndex a) 0) := by
  rw [faultEntry_of_slot hslot] at hbit ⊢
  simp [vmmUnmapUser, hslot, hused, hbit]

theorem Resident.page (h : Resident (m.spaces i) virt pages)
    (hfit : virt.toNat + 4096 * pages.toNat < 4294967296) {k : Nat} (hk : k < pages.toNat) :
    pageNumber (pageAt virt k) = pageNumber virt + k ∧ ∃ t, userSlot (pageAt virt k) = some t ∧
      (m.spaces i).tableUsed t = true ∧ bit (faultEntry m i (pageAt virt k)) 0 = true := by
  obtain ⟨t, hslot, hused, hbit⟩ := physical_ne_zero (h k hk)
  refine ⟨?_, t, hslot, hused, ?_⟩
  · rw [pageNumber_eq, pageNumber_eq, toNat_pageAt (by omega)]
    omega
  · rw [faultEntry_of_slot hslot]
    exact hbit

theorem unmapPages_gone (h : Resident (m.spaces i) virt pages)
    (hfit : virt.toNat + 4096 * pages.toNat < 4294967296) :
    PagesGone m i virt pages.toNat (unmapPages i virt pages.toNat m) := by
  refine forRange_inv (fun n m' => PagesGone m i virt n m') pages.toNat
    ⟨fun _ => rfl, fun k hk => absurd hk k.not_lt_zero, fun _ _ _ _ => rfl, rfl⟩ fun k hk m1 h1 => ?_
  obtain ⟨hnum, t, hslot, hused, hbit⟩ := h.page hfit hk
  -- the page has not been reached before, so its entry is the old one
  have hsame : faultEntry m1 i (pageAt virt k) = faultEntry m i (pageAt virt k) := by
    refine h1.kept _ t hslot fun l hl => ?_
    rw [hnum, (h.page hfit (hl.trans hk)).1]
    omega
  rw [vmmUnmapUser_present hslot (by rw [h1.tableUsed]; exact hused) (by rw [hsame]; exact hbit),
    Option.getD_some]
  refine ⟨fun u => ?_, fun l hl => ?_, fun a u ha hne => ?_, ?_⟩
  · rw [setPte_tableUsed]
    exact h1.tableUsed u
  · obtain ⟨-, u, hlslot, -⟩ := h.page hfit (show l < pages.toNat by omega)
    rw [faultEntry_setPte hlslot hslot]
    split
    next => rfl
    next hne =>
      refine h1.gone l (Nat.lt_of_le_of_ne (Nat.le_of_lt_succ hl) ?_)
      rintro rfl
      exact hne rfl
  · rw [faultEntry_setPte ha hslot, if_neg (hne k (Nat.lt_succ_self k))]
    exact h1.kept a u ha fun l hl => hne l (hl.trans (Nat.lt_succ_self k))
  · rw [setPte_pmm, h1.pmm, hsame]
    rfl

end

/-! ## The VMAs -/

def AddressSpace.CoversWith (s : AddressSpace) (a flags : Word) : Prop :=
  ∃ k < 64, (s.vmas k).Covers a ∧ (s.vmas k).flags = flags

def AddressSpace.OtherCovers (s : AddressSpace) (slot : Nat) (a flags : Word) : Prop :=
  ∃ k < 64, k ≠ slot ∧ (s.vmas k).Covers a ∧ (s.vmas k).flags = flags

section

variable {s : AddressSpace} {slot other : Nat} {v : Vma} {a flags virt stop : Word}

theorem coversWith_iff (hslot : slot < 64) :
    s.CoversWith a flags ↔
    ((s.vmas slot).Covers a ∧ (s.vmas slot).flags = flags) ∨ s.OtherCovers slot a flags := by
  constructor
  · rintro ⟨k, hk, hcov, hflags⟩
    by_cases hks : k = slot
    · subst hks
      exact .inl ⟨hcov, hflags⟩
    · exact .inr ⟨k, hk, hks, hcov, hflags⟩
  · rintro (⟨hcov, hflags⟩ | ⟨k, hk, -, hcov, hflags⟩)
    · exact ⟨slot, hslot, hcov, hflags⟩
    · exact ⟨k, hk, hcov, hflags⟩

theorem coversWith_congr {u : AddressSpace} (h : u.vmas = s.vmas) :
    u.CoversWith a flags ↔ s.CoversWith a flags := by
  rw [AddressSpace.CoversWith, AddressSpace.CoversWith, h]

theorem otherCovers_setVma : (s.setVma slot v).OtherCovers slot a flags ↔ s.OtherCovers slot a flags := by
  refine exists_congr fun k => and_congr_right fun _ => and_congr_right fun hks => ?_
  rw [setVma_ne hks]

theorem coversWith_setVma (hslot : slot < 64) :
    (s.setVma slot v).CoversWith a flags ↔
    (v.Covers a ∧ v.flags = flags) ∨ s.OtherCovers slot a flags := by
  rw [coversWith_iff hslot, otherCovers_setVma, setVma_self]

theorem otherCovers_insert (hother : other < 64) (hne : other ≠ slot)
    (hfree : (s.vmas other).used = false) :
    (s.setVma other v).OtherCovers slot a flags ↔
    (v.Covers a ∧ v.flags = flags) ∨ s.OtherCovers slot a flags := by
  constructor
  · rintro ⟨k, hk, hks, hcov, hflags⟩
    by_cases hko : k = other
    · subst hko
      rw [setVma_self] at hcov hflags
      exact .inl ⟨hcov, hflags⟩
    · rw [setVma_ne hko] at hcov hflags
      exact .inr ⟨k, hk, hks, hcov, hflags⟩
  · rintro (⟨hcov, hflags⟩ | ⟨k, hk, hks, hcov, hflags⟩)
    · refine ⟨other, hother, hne, ?_⟩
      rw [setVma_self]
      exact ⟨hcov, hflags⟩
    · have hko : k ≠ other := by
        rintro rfl
        simp [Vma.Covers, hfree] at hcov
      refine ⟨k, hk, hks, ?_⟩
      rw [setVma_ne hko]
      exact ⟨hcov, hflags⟩

theorem cutVma_coversWith (hslot : slot < 64) (hused : (s.vmas slot).used = true)
    (hstart : (s.vmas slot).start.toNat ≤ virt.toNat)
    (hstop : stop.toNat ≤ (s.vmas slot).stop.toNat)
    (hroom : virt = (s.vmas slot).start ∨ stop = (s.vmas slot).stop ∨ s.freeVma ≠ none)
    (hle : virt.toNat ≤ stop.toNat) :
    (cutVma s slot virt stop).CoversWith a flags ↔
      ((s.vmas slot).Covers a ∧
        (s.vmas slot).flags = flags ∧ ¬ (virt.toNat ≤ a.toNat ∧ a.toNat < stop.toNat)) ∨
        s.OtherCovers slot a flags := by
  unfold cutVma
  extract_lets old
  split
  next hwhole =>
    have hv := congrArg BitVec.toNat hwhole.1
    have hs := congrArg BitVec.toNat hwhole.2
    rw [coversWith_setVma hslot]
    refine or_congr_left ⟨fun h => absurd h.1.1 Bool.false_ne_true, fun ⟨hcov, _, hout⟩ => ?_⟩
    simp only [Vma.Covers, old] at *
    omega
  next =>
    split
    next hleft =>
      have hv := congrArg BitVec.toNat hleft
      rw [coversWith_setVma hslot]
      simp only [Vma.Covers, old] at *
      refine or_congr_left ⟨fun h => ⟨⟨hused, ?_⟩, h.2, ?_⟩, fun h => ⟨⟨hused, ?_⟩, h.2.1⟩⟩ <;> omega
    next =>
      split
      next hright =>
        have hs := congrArg BitVec.toNat hright
        rw [coversWith_setVma hslot]
        simp only [Vma.Covers, old] at *
        refine or_congr_left ⟨fun h => ⟨⟨hused, ?_⟩, h.2, ?_⟩, fun h => ⟨⟨hused, ?_⟩, h.2.1⟩⟩ <;> omega
      next hl hr =>
        obtain ⟨other, hfree⟩ : ∃ other, s.freeVma = some other := by
          rcases hroom with h | h | h
          · exact absurd h hl
          · exact absurd h hr
          · exact Option.ne_none_iff_exists'.mp h
        obtain ⟨hother, hunused⟩ := freeVma_eq_some hfree
        have hne : other ≠ slot := by
          rintro rfl
          exact absurd (hused.symm.trans hunused) Bool.true_eq_false.mp
        simp only [hfree]
        rw [coversWith_setVma hslot, otherCovers_insert hother hne hunused, ← or_assoc]
        refine or_congr_left ?_
        simp only [Vma.Covers, old]
        constructor
        · rintro (⟨h, hf⟩ | ⟨h, hf⟩)
          · exact ⟨⟨hused, by omega⟩, hf, by omega⟩
          · exact ⟨⟨hused, by omega⟩, hf, by omega⟩
        · rintro ⟨h, hf, hout⟩
          by_cases hside : a.toNat < virt.toNat
          · exact .inl ⟨⟨hused, by omega⟩, hf⟩
          · exact .inr ⟨⟨hused, by omega⟩, hf⟩

end

/-- The VMA that `vmm_unmap_range` cuts: the first one around the range. -/
def AddressSpace.around (s : AddressSpace) (virt stop : Word) : Option Nat :=
  s.findVma fun v => v.used && (decide (v.start ≤ virt) && decide (stop ≤ v.stop))

structure UnmapArgs (virt pages : Word) : Prop where
  nonzero : pages ≠ 0
  aligned : virt &&& 0xfff = 0
  low : ¬ virt < 0x400000
  high : ¬ 0xc0000000 ≤ virt
  forward : ¬ virt + pages * 4096 < virt
  within : ¬ 0xc0000000 < virt + pages * 4096

section

variable {m m' : Vmm} {s : AddressSpace} {i slot : Nat} {virt stop pages a flags : Word}

theorem around_eq_some (h : s.around virt stop = some slot) :
    slot < 64 ∧ (s.vmas slot).used = true ∧ (s.vmas slot).start.toNat ≤ virt.toNat ∧
      stop.toNat ≤ (s.vmas slot).stop.toNat := by
  obtain ⟨hlt, hp, -⟩ := (findVma_eq_some _ _ _).mp h
  simp only [Bool.and_eq_true, decide_eq_true_eq, BitVec.le_def] at hp
  exact ⟨hlt, hp⟩

theorem vmmUnmapRange_eq_some :
    vmmUnmapRange m i virt pages = some m' ↔ UnmapArgs virt pages ∧ Resident (m.spaces i) virt pages ∧
      ∃ slot, (m.spaces i).around virt (virt + pages * 4096) = some slot ∧
        m' = (unmapPages i virt pages.toNat m).setSpace i
          (cutVma ((unmapPages i virt pages.toNat m).spaces i) slot virt (virt + pages * 4096)) := by
  have hres :
      (List.range pages.toNat).any (fun k => vmmGetUserPhysical (m.spaces i) (pageAt virt k) = 0) = true ↔
      ¬ Resident (m.spaces i) virt pages := by
    simp [Resident]
  unfold vmmUnmapRange
  dsimp only
  constructor
  · intro h
    split at h
    next => cases h
    next hargs =>
      split at h
      next => cases h
      next hrange =>
        split at h
        next => cases h
        next hall =>
          push Not at hargs hrange
          obtain ⟨slot, hslot, rfl⟩ := Option.map_eq_some_iff.mp h
          rw [hres, not_not] at hall
          exact ⟨⟨hargs.1, hargs.2.1, hargs.2.2.1, hargs.2.2.2, hrange.1, hrange.2⟩, hall, slot,
            hslot, rfl⟩
  · rintro ⟨⟨h1, h2, h3, h4, h5, h6⟩, hall, slot, hslot, rfl⟩
    rw [if_neg (by simp only [h1, h2, h3, h4, ne_eq, not_true_eq_false, or_self, not_false_eq_true]),
      if_neg (by simp only [h5, h6, or_self, not_false_eq_true]),
      if_neg (by rw [hres, not_not]; exact hall)]
    exact Option.map_eq_some_iff.mpr ⟨slot, hslot, rfl⟩

structure RangeCut (m : Vmm) (i : Nat) (virt pages : Word) (slot : Nat) (m' : Vmm) : Prop where
  nonzero : pages.toNat ≠ 0
  stop_eq : (virt + pages * 4096).toNat = virt.toNat + 4096 * pages.toNat
  fits : virt.toNat + 4096 * pages.toNat < 4294967296
  aligned : virt.toNat % 4096 = 0
  around : (m.spaces i).around virt (virt + pages * 4096) = some slot
  gone : PagesGone m i virt pages.toNat m'
  vmas : ∃ u : AddressSpace, u.vmas = (m.spaces i).vmas ∧
    m'.spaces i = cutVma u slot virt (virt + pages * 4096)

theorem PagesGone.setSpace {n : Nat} (h : PagesGone m i virt n m')
    (htab : s.userTables = (m'.spaces i).userTables)
    (hused : s.tableUsed = (m'.spaces i).tableUsed) : PagesGone m i virt n (m'.setSpace i s) := by
  have hself : (m'.setSpace i s).spaces i = s := Function.update_self ..
  have hentry : ∀ a, faultEntry (m'.setSpace i s) i a = faultEntry m' i a :=
    faultEntry_congr (by rw [hself, htab])
  refine ⟨fun t => ?_, fun k hk => ?_, fun a t ha hne => ?_, h.pmm⟩
  · rw [hself, hused]
    exact h.tableUsed t
  · rw [hentry]
    exact h.gone k hk
  · rw [hentry]
    exact h.kept a t ha hne

theorem vmmUnmapRange_cut (h : vmmUnmapRange m i virt pages = some m') :
    ∃ slot, RangeCut m i virt pages slot m' := by
  have hpages := vmmUnmapRange_pages h
  obtain ⟨hargs, hres, slot, hslot, rfl⟩ := vmmUnmapRange_eq_some.mp h
  have hstop := toNat_rangeEnd hpages hargs.forward
  have hfits : virt.toNat + 4096 * pages.toNat < 4294967296 := by
    rw [← hstop]
    exact BitVec.isLt _
  obtain ⟨htab, hused⟩ :=
    cutVma_tables ((unmapPages i virt pages.toNat m).spaces i) slot virt (virt + pages * 4096)
  refine ⟨slot, fun h0 => hargs.nonzero (BitVec.eq_of_toNat_eq h0), hstop, hfits,
    (aligned_iff _).mp hargs.aligned, hslot, (unmapPages_gone hres hfits).setSpace htab hused, _,
    (unmapPages_only i virt pages.toNat m).vmas, ?_⟩
  exact Function.update_self ..

/-! ## What is left -/

structure RangeRemoved (m : Vmm) (i : Nat) (virt pages : Word) (m' : Vmm) : Prop where
  absent : ∀ k < pages.toNat, bit (faultEntry m' i (pageAt virt k)) 0 = false
  /-- The VMAs lose the range, and every piece of them that is left keeps its flags. -/
  covered : ∀ a flags, (m'.spaces i).CoversWith a flags ↔
    (m.spaces i).CoversWith a flags ∧ ¬ InRange virt pages a
  kept : ∀ a t, userSlot a = some t → ¬ InRange virt pages a → faultEntry m' i a = faultEntry m i a

def NoRoomToSplit (s : AddressSpace) (virt pages : Word) : Prop :=
  ∃ slot, s.around virt (virt + pages * 4096) = some slot ∧ virt ≠ (s.vmas slot).start ∧
    virt + pages * 4096 ≠ (s.vmas slot).stop ∧ s.freeVma = none

def CoveredOnce (s : AddressSpace) (virt pages : Word) : Prop :=
  ∀ a, InRange virt pages a → ∀ j < 64, ∀ k < 64, (s.vmas j).Covers a → (s.vmas k).Covers a → j = k

theorem RangeCut.covers_slot (h : RangeCut m i virt pages slot m') (ha : InRange virt pages a) :
    ((m.spaces i).vmas slot).Covers a := by
  obtain ⟨-, hused, hstart, hstop⟩ := around_eq_some h.around
  have := h.stop_eq
  exact ⟨hused, hstart.trans ha.1, by have := ha.2; omega⟩

theorem freeVma_congr {u : AddressSpace} (h : u.vmas = s.vmas) : u.freeVma = s.freeVma := by
  simp only [AddressSpace.freeVma, AddressSpace.findVma, h]

theorem RangeCut.coversWith (h : RangeCut m i virt pages slot m')
    (hroom : ¬ NoRoomToSplit (m.spaces i) virt pages) :
    (m'.spaces i).CoversWith a flags ↔
      (((m.spaces i).vmas slot).Covers a ∧
        ((m.spaces i).vmas slot).flags = flags ∧ ¬ InRange virt pages a) ∨
        (m.spaces i).OtherCovers slot a flags := by
  obtain ⟨hslot, hused, hstart, hstop⟩ := around_eq_some h.around
  obtain ⟨u, hu, hspace⟩ := h.vmas
  have hroom' : virt = (u.vmas slot).start ∨ virt + pages * 4096 =
      (u.vmas slot).stop ∨ u.freeVma ≠ none := by
    by_contra hno
    push Not at hno
    rw [hu, freeVma_congr hu] at hno
    exact hroom ⟨slot, h.around, hno⟩
  have hle : virt.toNat ≤ (virt + pages * 4096).toNat := by
    rw [h.stop_eq]
    omega
  rw [← hu] at hused hstart hstop
  rw [hspace, cutVma_coversWith hslot hused hstart hstop hroom' hle, h.stop_eq,
    AddressSpace.OtherCovers, hu]
  rfl

theorem RangeCut.coversWith_full (h : RangeCut m i virt pages slot m')
    (hfull : NoRoomToSplit (m.spaces i) virt pages) :
    (m'.spaces i).CoversWith a flags ↔ (m.spaces i).CoversWith a flags := by
  obtain ⟨slot', haround, hleft, hright, hfree⟩ := hfull
  obtain rfl : slot = slot' := Option.some.inj (h.around.symm.trans haround)
  obtain ⟨u, hu, hspace⟩ := h.vmas
  rw [← hu] at hleft hright
  rw [← freeVma_congr hu] at hfree
  have hsame : cutVma u slot virt (virt + pages * 4096) = u := by
    unfold cutVma
    dsimp only
    rw [if_neg fun hc => hleft hc.1, if_neg hleft, if_neg hright, hfree]
  rw [hspace, hsame]
  exact coversWith_congr hu

theorem RangeCut.removed (h : RangeCut m i virt pages slot m')
    (hroom : ¬ NoRoomToSplit (m.spaces i) virt pages)
    (honce : CoveredOnce (m.spaces i) virt pages) : RangeRemoved m i virt pages m' := by
  obtain ⟨hslot, -, -, -⟩ := around_eq_some h.around
  refine ⟨fun k hk => ?_, fun a flags => ?_, fun a t ha hout => ?_⟩
  · rw [h.gone.gone k hk]
    decide
  · rw [h.coversWith hroom, coversWith_iff hslot]
    constructor
    · rintro (⟨hcov, hflags, hout⟩ | hother)
      · exact ⟨.inl ⟨hcov, hflags⟩, hout⟩
      · refine ⟨.inr hother, fun hin => ?_⟩
        obtain ⟨k, hk, hks, hcov, -⟩ := hother
        exact hks (honce a hin k hk slot hslot hcov (h.covers_slot hin))
    · rintro ⟨⟨hcov, hflags⟩ | hother, hout⟩
      · exact .inl ⟨hcov, hflags, hout⟩
      · exact .inr hother
  · refine h.gone.kept a t ha fun k hk heq => hout ?_
    have hfits := h.fits
    have hal := h.aligned
    rw [pageNumber_eq, pageNumber_eq, toNat_pageAt (by omega)] at heq
    unfold InRange
    omega

/-- A call that returns 0 takes away exactly its range, unless it would have to split a VMA and finds no
slot, or another VMA covers a part of the range as well. -/
theorem range_removed_iff (m m' : Vmm) (i : Nat) (virt pages : Word)
    (h : vmmUnmapRange m i virt pages = some m') :
    RangeRemoved m i virt pages m' ↔
      ¬ NoRoomToSplit (m.spaces i) virt pages ∧ CoveredOnce (m.spaces i) virt pages := by
  obtain ⟨slot, hc⟩ := vmmUnmapRange_cut h
  obtain ⟨hslot, -, -, -⟩ := around_eq_some hc.around
  constructor
  · intro hrem
    have hroom : ¬ NoRoomToSplit (m.spaces i) virt pages := by
      intro hfull
      have hin : InRange virt pages virt := ⟨le_rfl, by have := hc.nonzero; omega⟩
      have hcov : (m.spaces i).CoversWith virt ((m.spaces i).vmas slot).flags :=
        ⟨slot, hslot, hc.covers_slot hin, rfl⟩
      exact ((hrem.covered virt _).mp ((hc.coversWith_full hfull).mpr hcov)).2 hin
    -- a VMA other than the one that is cut keeps its part of the range
    have hother : ∀ a, InRange virt pages a → ∀ k < 64, ((m.spaces i).vmas k).Covers a → k = slot := by
      intro a hin k hk hcov
      by_contra hks
      exact ((hrem.covered a _).mp ((hc.coversWith hroom).mpr (.inr ⟨k, hk, hks, hcov, rfl⟩))).2 hin
    exact ⟨hroom,
      fun a hin j hj k hk hcj hck => (hother a hin j hj hcj).trans (hother a hin k hk hck).symm⟩
  · rintro ⟨hroom, honce⟩
    exact hc.removed hroom honce

theorem AddressSpace.Sound.coveredOnce (h : s.Sound) (virt pages : Word) : CoveredOnce s virt pages := by
  intro a _ j hj k hk hcj hck
  by_contra hne
  have := h.apart j hj k hk hne hcj.1 hck.1
  have := hcj.2
  have := hck.2
  unfold Vma.Apart at *
  omega

end

def threePages : List RangeOp := [.create, .mapRange 0 0x401000 3 0]

theorem range_removed_iff_middle : ∃ m m', runs rangeStep bareMachine threePages = some m ∧
    vmmUnmapRange m 0 0x402000 1 = some m' ∧ RangeRemoved m 0 0x402000 1 m' := by
  have hok :
      ((runs rangeStep bareMachine threePages).bind fun m => vmmUnmapRange m 0 0x402000 1).isSome =
        true := by
    decide +kernel
  have hfree : (runs rangeStep bareMachine threePages).map (fun m => (m.spaces 0).freeVma) =
      some (some 1) := by
    decide +kernel
  obtain ⟨m', hm'⟩ := Option.isSome_iff_exists.mp hok
  obtain ⟨m, hm, hun⟩ := Option.bind_eq_some_iff.mp hm'
  rw [hm, Option.map_some, Option.some.injEq] at hfree
  have hsound : m.Sound := runs_inv Vmm.Sound (fun _ _ _ h hs => rangeStep_sound h hs)
    (fun _ => sound_of_unused fun _ => rfl) hm
  refine ⟨m, m', hm, hun, (range_removed_iff m m' 0 0x402000 1 hun).mpr ⟨?_, (hsound 0).coveredOnce _ _⟩⟩
  rintro ⟨slot, -, -, -, hnone⟩
  cases hfree.symm.trans hnone

def fullTable : List RangeOp :=
  threePages ++ (List.range 63).map fun k => .mapLazyRange 0 (BitVec.ofNat 32 (0x500000 + k * 0x2000)) 1 0

/-- With a full table the call returns 0, the page goes and its VMA still covers it. -/
theorem full_table_keeps_range : ∃ m m', runs rangeStep bareMachine fullTable = some m ∧
    vmmUnmapRange m 0 0x402000 1 = some m' ∧ ¬ RangeRemoved m 0 0x402000 1 m' := by
  have hcov : ((runs rangeStep bareMachine fullTable).bind fun m => vmmUnmapRange m 0 0x402000 1).map
      (fun m' => (m'.spaces 0).vmaAt 0x402000) = some (some 0) := by
    decide +kernel
  obtain ⟨m', hm', hvma⟩ := Option.map_eq_some_iff.mp hcov
  obtain ⟨m, hm, hun⟩ := Option.bind_eq_some_iff.mp hm'
  obtain ⟨hlt, hcovers⟩ := vmaAt_eq_some hvma
  refine ⟨m, m', hm, hun, fun hrem => ?_⟩
  exact ((hrem.covered 0x402000 _).mp ⟨0, hlt, hcovers, rfl⟩).2 ⟨by decide, by decide⟩

end Ceblar
