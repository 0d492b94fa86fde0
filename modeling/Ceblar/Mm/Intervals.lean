import Ceblar.Mm.Vma

/-! # The VMAs of a space are disjoint intervals

Over every sequence of mappings, unmappings and clones, with any arguments. -/

namespace Ceblar

open Function

/-! ## Disjoint VMAs -/

def Vma.Apart (v u : Vma) : Prop := v.stop.toNat ≤ u.start.toNat ∨ u.stop.toNat ≤ v.start.toNat

theorem Vma.Apart.symm {v u : Vma} (h : v.Apart u) : u.Apart v := Or.symm h

theorem Vma.Apart.inside {v u w : Vma} (h : v.Apart u) (hstart : v.start.toNat ≤ w.start.toNat)
    (hstop : w.stop.toNat ≤ v.stop.toNat) : w.Apart u := by
  unfold Vma.Apart at h ⊢
  omega

/-- The VMAs in use are page-aligned, not empty, inside the user region and pairwise disjoint. -/
structure AddressSpace.Sound (s : AddressSpace) : Prop where
  wf : s.Wf
  apart : ∀ i < 64, ∀ j < 64, i ≠ j → (s.vmas i).used = true → (s.vmas j).used = true →
    (s.vmas i).Apart (s.vmas j)

section

variable {s u : AddressSpace} {slot : Nat} {v : Vma}

theorem AddressSpace.Sound.congr (h : s.Sound) (hv : u.vmas = s.vmas) : u.Sound := by
  refine ⟨fun i => ?_, fun i hi j hj => ?_⟩
  · rw [hv]
    exact h.wf i
  · rw [hv]
    exact h.apart i hi j hj

theorem sound_of_unused (h : ∀ i, (s.vmas i).used = false) : s.Sound := by
  refine ⟨fun i _ hu => ?_, fun i _ j _ _ hu => ?_⟩
  all_goals
    rw [h i] at hu
    cases hu

theorem AddressSpace.Sound.setVma (h : s.Sound) (hv : v.used = true → v.Wf)
    (ha : v.used = true → ∀ i < 64, i ≠ slot → (s.vmas i).used = true → v.Apart (s.vmas i)) :
    (s.setVma slot v).Sound := by
  refine ⟨h.wf.setVma hv, fun i hi j hj hne hui huj => ?_⟩
  by_cases his : i = slot
  · subst his
    have hjs : j ≠ i := Ne.symm hne
    simp only [AddressSpace.setVma, update_self, update_of_ne hjs] at hui huj ⊢
    exact ha hui j hj hjs huj
  · by_cases hjs : j = slot
    · subst hjs
      simp only [AddressSpace.setVma, update_self, update_of_ne his] at hui huj ⊢
      exact (ha huj i hi his hui).symm
    · simp only [AddressSpace.setVma, update_of_ne his, update_of_ne hjs] at hui huj ⊢
      exact h.apart i hi j hj hne hui huj

theorem AddressSpace.Sound.shrink (h : s.Sound) (hslot : slot < 64) (hused : (s.vmas slot).used = true)
    (hv : v.used = true → v.Wf) (hstart : (s.vmas slot).start.toNat ≤ v.start.toNat)
    (hstop : v.stop.toNat ≤ (s.vmas slot).stop.toNat) : (s.setVma slot v).Sound := by
  refine h.setVma hv fun _ i hi hne hui => ?_
  exact (h.apart slot hslot i hi (Ne.symm hne) hused hui).inside hstart hstop

theorem AddressSpace.Sound.cut {virt stop : Word} (h : s.Sound) (hslot : slot < 64)
    (hused : (s.vmas slot).used = true) (hstart : (s.vmas slot).start.toNat ≤ virt.toNat)
    (hstop : stop.toNat ≤ (s.vmas slot).stop.toNat) (hlt : virt.toNat < stop.toNat)
    (hvirt : virt.toNat % 4096 = 0) (hend : stop.toNat % 4096 = 0) : (cutVma s slot virt stop).Sound := by
  have hwf := h.wf.cut hslot hused hstart hstop hlt hvirt hend
  have hself : ∀ w : Vma, (s.setVma slot w).Wf → w.used = true → w.Wf := by
    intro w hw hu
    simpa [AddressSpace.setVma, hu] using hw slot hslot
  unfold cutVma at hwf ⊢
  set old := s.vmas slot with hold
  revert hwf
  dsimp only
  split_ifs with hwhole hleft hright
  all_goals intro hwf
  · exact h.shrink hslot hused (hself _ hwf) le_rfl le_rfl
  · refine h.shrink hslot hused (hself _ hwf) ?_ le_rfl
    exact hstart.trans hlt.le
  · refine h.shrink hslot hused (hself _ hwf) le_rfl ?_
    exact hlt.le.trans hstop
  · cases hfree : s.freeVma with
    | none => exact h
    | some other =>
      simp only [hfree] at hwf ⊢
      obtain ⟨hother, hunused⟩ := freeVma_eq_some hfree
      have hne : other ≠ slot := by
        rintro rfl
        rw [hused] at hunused
        cases hunused
      -- the left part stays in its slot, and the right part goes to a free one
      have hleft : ({ old with stop := virt } : Vma).Wf := by
        simpa [AddressSpace.setVma, old, hused] using hwf slot hslot
      have hright : ({ old with start := stop } : Vma).Wf := by
        simpa [AddressSpace.setVma, hne, old, hused] using hwf other hother
      have hshrunk : (s.setVma slot { old with stop := virt }).Sound :=
        h.shrink hslot hused (fun _ => hleft) le_rfl (hlt.le.trans hstop)
      have hcomm : (s.setVma other { old with start := stop }).setVma slot { old with stop := virt } =
          (s.setVma slot { old with stop := virt }).setVma other { old with start := stop } := by
        simp only [AddressSpace.setVma]
        rw [update_comm hne]
      rw [hcomm]
      refine hshrunk.setVma (fun _ => hright) fun _ i hi hio hui => ?_
      by_cases his : i = slot
      · subst his
        simp only [AddressSpace.setVma, update_self]
        exact .inr hlt.le
      · simp only [AddressSpace.setVma, update_of_ne his] at hui ⊢
        exact (h.apart slot hslot i hi (Ne.symm his) hused hui).inside (hstart.trans hlt.le) le_rfl

end

/-! ## The operations -/

section

variable {m m' : Vmm} {i : Nat} {virt pages flags : Word}

def Vmm.Sound (m : Vmm) : Prop := ∀ k, (m.spaces k).Sound

theorem Vmm.Sound.sameVmas (h : m.Sound) (hs : SameVmas m m') :
    m'.Sound := fun k => (h k).congr (hs.vmas k)

theorem Vmm.Sound.setSpace (h : m.Sound) {s : AddressSpace} (hs : s.Sound) : (m.setSpace i s).Sound := by
  intro k
  by_cases hk : k = i
  · subst hk
    simpa [Vmm.setSpace] using hs
  · simpa [Vmm.setSpace, hk] using h k

theorem AddressSpace.Sound.place {s : AddressSpace} {v : Vma} {slot : Nat} (h : s.Sound) (hv : v.Wf)
    (ho : vmaOverlaps s v.start v.stop = false) : (s.setVma slot v).Sound := by
  refine h.setVma (fun _ => hv) fun _ k hk _ hu => ?_
  have := vmaOverlaps_eq_false ho hk hu
  unfold Vma.Apart
  omega

theorem unmapBack_only (i : Nat) (base : Word) (n : Nat) (m : Vmm) :
    OnlyTables i m (unmapBack i base n m) := by
  induction n generalizing m with
  | zero => exact .refl i m
  | succ n ih =>
    rw [unmapBack]
    refine .trans ?_ (ih _)
    cases hu : vmmUnmapUser m i (pageAt base n) with
    | none => exact .refl i m
    | some m1 => exact onlyTables_unmapUser hu

theorem mapPages_only (i : Nat) (base flags : Word) (left : Nat) (done : Nat) (m : Vmm) :
    OnlyTables i m (mapPages i base flags done left m).2 := by
  induction left generalizing done m with
  | zero => exact .refl i m
  | succ left ih =>
    rw [mapPages]
    split
    · exact unmapBack_only i base done m
    · split
      · exact (onlyTables_pmm m i _).trans (unmapBack_only i base done _)
      · rename_i m1 hmap
        exact ((onlyTables_pmm m i _).trans (onlyTables_mapUser hmap)).trans (ih (done + 1) m1)

theorem vmmMapRange_sound (h : m.Sound) : (vmmMapRange m i virt pages flags).2.Sound := by
  unfold vmmMapRange
  extract_lets s base stop
  split
  · exact h
  · rename_i hpages
    split
    · exact h
    · rename_i hbounds
      split
      · exact h
      · split
        · exact h
        · rename_i slot hslot
          have hpagesOnly := mapPages_only i base flags pages.toNat 0 m
          split
          · rename_i m1 hm1
            rw [hm1] at hpagesOnly
            exact h.sameVmas hpagesOnly.sameVmas
          · rename_i m1 hm1
            rw [hm1] at hpagesOnly
            have h1 := h.sameVmas hpagesOnly.sameVmas
            push Not at hpages hbounds
            obtain ⟨halign, hlow, -, hwrap, hhigh, hover⟩ := hbounds
            refine h1.setSpace ((h1 i).place (placed_wf hpages halign hlow hwrap hhigh).2 ?_)
            -- the pages that were just mapped left the VMAs alone
            have hvmas : (m1.spaces i).vmas = s.vmas := hpagesOnly.vmas
            rw [vmaOverlaps, AddressSpace.findVma, hvmas]
            exact (Bool.not_eq_true _).mp hover

theorem vmmMapLazyRange_sound {base : Word} (h : m.Sound)
    (hm : vmmMapLazyRange m i virt pages flags = some (base, m')) :
    m'.Sound := by
  obtain ⟨slot, hl⟩ := vmmMapLazyRange_spec hm
  rw [hl.state]
  exact h.setSpace ((h i).place hl.wf hl.apart)

theorem vmmUnmapRange_pages (h : vmmUnmapRange m i virt pages = some m') : pages.toNat < 0x100000 := by
  by_contra hbig
  obtain ⟨slot, hu⟩ := vmmUnmapRange_spec h
  have hvirt := hu.aligned
  have hlt := virt.isLt
  obtain ⟨k, hk⟩ : ∃ k, k = (0x100000000 - virt.toNat) / 4096 := ⟨_, rfl⟩
  have hzero : pageAt virt k = 0 := by
    apply BitVec.eq_of_toNat_eq
    have h4 : (4096 : Word).toNat = 4096 := rfl
    rw [pageAt, BitVec.toNat_add, BitVec.toNat_mul, h4, BitVec.toNat_ofNat]
    have h0 : (0 : Word).toNat = 0 := rfl
    omega
  unfold vmmUnmapRange at h
  extract_lets s stop at h
  split at h
  · cases h
  · rename_i hargs
    push Not at hargs
    have hlow := hargs.2.2.1
    rw [BitVec.lt_def, show (0x400000 : Word).toNat = 0x400000 from rfl, Nat.not_lt] at hlow
    split at h
    · cases h
    · split at h
      · cases h
      · rename_i hres
        simp only [List.any_eq_true, List.mem_range, decide_eq_true_eq, not_exists, not_and] at hres
        refine hres k (by omega) ?_
        rw [hzero]
        rfl

theorem vmmUnmapRange_sound (h : m.Sound) (hu : vmmUnmapRange m i virt pages = some m') : m'.Sound := by
  have hpages := vmmUnmapRange_pages hu
  obtain ⟨slot, hun⟩ := vmmUnmapRange_spec hu
  have hsame := (unmapPages_only i virt pages.toNat m).sameVmas
  have hstop := toNat_rangeEnd hpages hun.forward
  have hvirt := hun.aligned
  have hnz := hun.nonzero
  have h1 := h.sameVmas hsame
  rw [hun.state]
  refine h1.setSpace ((h1 i).cut hun.slot_lt ?_ ?_ ?_ ?_ hvirt ?_)
  · rw [hsame.vmas]
    exact hun.used
  · rw [hsame.vmas]
    exact hun.start_le
  · rw [hsame.vmas]
    exact hun.le_stop
  · omega
  · omega

theorem vmmCreateAddressSpace_sound {d : Nat} (h : m.Sound)
    (hc : vmmCreateAddressSpace m = some (d, m')) :
    m'.Sound := by
  unfold vmmCreateAddressSpace at hc
  obtain ⟨k, -, hk⟩ := Option.map_eq_some_iff.mp hc
  cases hk
  intro k
  by_cases hk : k = d
  · subst hk
    refine sound_of_unused fun v => ?_
    simp
  · simpa [hk] using h k

theorem vmmCloneAddressSpaceCow_sound (h : m.Sound) (s : Nat) :
    (vmmCloneAddressSpaceCow m s).2.Sound := by
  refine vmmCloneAddressSpaceCow_inv Vmm.Sound ?_ ?_ ?_ s h ?_
  · exact fun m i t j w hm => hm.sameVmas (sameVmas_setPte m m.pmm i t j w)
  · exact fun m i t hm => hm.sameVmas (sameVmas_markTable m i t)
  · exact fun m a hm => hm.sameVmas (sameVmas_pmm m _)
  · intro d m1 hc
    have h1 := vmmCreateAddressSpace_sound h hc
    refine h1.setSpace ?_
    exact (h1 s).congr rfl

end

inductive RangeOp where
  | create
  | mapRange (s : Nat) (virt pages flags : Word)
  | mapLazyRange (s : Nat) (virt pages flags : Word)
  | unmapRange (s : Nat) (virt pages : Word)
  | cloneCow (s : Nat)

def rangeStep (m : Vmm) : RangeOp → Option Vmm
  | .create => some ((vmmCreateAddressSpace m).elim m Prod.snd)
  | .mapRange s virt pages flags => some (vmmMapRange m s virt pages flags).2
  | .mapLazyRange s virt pages flags => some ((vmmMapLazyRange m s virt pages flags).elim m Prod.snd)
  | .unmapRange s virt pages => some ((vmmUnmapRange m s virt pages).getD m)
  | .cloneCow s => some (vmmCloneAddressSpaceCow m s).2

theorem rangeStep_sound {m m' : Vmm} {op : RangeOp} (h : m.Sound) (hs : rangeStep m op = some m') :
    m'.Sound := by
  cases op with
  | create =>
    cases hs
    cases hc : vmmCreateAddressSpace m with
    | none => exact h
    | some r => exact vmmCreateAddressSpace_sound h hc
  | mapRange s virt pages flags =>
    cases hs
    exact vmmMapRange_sound h
  | mapLazyRange s virt pages flags =>
    cases hs
    cases hc : vmmMapLazyRange m s virt pages flags with
    | none => exact h
    | some r => exact vmmMapLazyRange_sound h hc
  | unmapRange s virt pages =>
    cases hs
    cases hc : vmmUnmapRange m s virt pages with
    | none => exact h
    | some m1 => exact vmmUnmapRange_sound h hc
  | cloneCow s =>
    cases hs
    exact vmmCloneAddressSpaceCow_sound h s

theorem vmas_disjoint {m m' : Vmm} (h0 : ∀ k v, ((m.spaces k).vmas v).used = false) {ops : List RangeOp}
    (hrun : runs rangeStep m ops = some m') : m'.Sound :=
  runs_inv Vmm.Sound (fun _ _ _ h hs => rangeStep_sound h hs) (fun k => sound_of_unused (h0 k)) hrun

def splitRun : List RangeOp :=
  [.create, .mapRange 0 0x401000 3 0, .unmapRange 0 0x402000 1, .mapLazyRange 0 0x500000 4 0, .cloneCow 0,
    .unmapRange 0 0x500000 1]

theorem vmas_disjoint_splitRun : ∃ m, runs rangeStep bareMachine splitRun = some m ∧
    ((List.range 64).map fun v => ((m.spaces 1).vmas v).used).count true = 3 ∧ m.Sound := by
  have hend : ((runs rangeStep bareMachine splitRun).map fun m =>
      ((List.range 64).map fun v => ((m.spaces 1).vmas v).used).count true) = some 3 := by
    decide +kernel
  obtain ⟨m, hrun, hcount⟩ := Option.map_eq_some_iff.mp hend
  exact ⟨m, hrun, hcount, vmas_disjoint (fun _ _ => rfl) hrun⟩

end Ceblar
