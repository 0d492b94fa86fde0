import Ceblar.Mm.MapRange

/-! # Lazy ranges over pages that are there

`vmm_map_lazy_range` looks at the VMAs only, and not at the pages that were mapped without a VMA:
program text, data and the user's stack.
-/

namespace Ceblar

/-! ## Where a range goes -/

def AddressSpace.Gap (s : AddressSpace) (pages b : Word) : Prop :=
  ∀ v < 64, (s.vmas v).used = true →
    (s.vmas v).stop.toNat ≤ b.toNat ∨ b.toNat + 4096 * pages.toNat ≤ (s.vmas v).start.toNat

/-- The place that a caller asks for, or the first gap from 16 MiB on. -/
def LazyPlace (s : AddressSpace) (virt pages b : Word) : Prop :=
  if virt = 0 then
    b.toNat % 4096 = 0 ∧ 0x1000000 ≤ b.toNat ∧ s.Gap pages b ∧
      ∀ c : Word, c.toNat % 4096 = 0 → 0x1000000 ≤ c.toNat → c.toNat < b.toNat → ¬ s.Gap pages c
  else b = virt

structure AddressSpace.Bare (s : AddressSpace) (page : Word) : Prop where
  aligned : page.toNat % 4096 = 0
  mapped : vmmGetUserPhysical s page ≠ 0
  uncovered : ∀ v < 64, ¬ (s.vmas v).Covers page

/-- No page of the range is present: what the scan of `vmm_map_range` asks for. -/
def NonePresent (s : AddressSpace) (base pages : Word) : Prop :=
  ∀ l < pages.toNat, vmmGetUserPhysical s (pageAt base l) = 0

section

variable {s : AddressSpace} {m m' : Vmm} {i : Nat} {virt pages flags base : Word}

theorem searchBase_first (stop : Word → Bool) (fuel : Nat) : ∀ {base : Word}, base.toNat % 4096 = 0 →
    (searchBase stop fuel base).toNat % 4096 = 0 ∧ base.toNat ≤ (searchBase stop fuel base).toNat ∧
      ∀ c : Word, c.toNat % 4096 = 0 → base.toNat ≤ c.toNat →
      c.toNat < (searchBase stop fuel base).toNat →
        stop c = false := by
  induction fuel with
  | zero =>
    intro base hal
    exact ⟨hal, Nat.le_refl _, fun c _ hlo hhi => absurd hhi (Nat.not_lt.mpr hlo)⟩
  | succ fuel ih =>
    intro base hal
    rw [searchBase]
    split
    next hlt =>
      split
      next => exact ⟨hal, Nat.le_refl _, fun c _ hlo hhi => absurd hhi (Nat.not_lt.mpr hlo)⟩
      next hstop =>
        have hc : (0xc0000000 : Word).toNat = 0xc0000000 := rfl
        have h4 : (4096 : Word).toNat = 4096 := rfl
        rw [BitVec.lt_def, hc] at hlt
        have hnext : (base + 4096).toNat = base.toNat + 4096 := by
          rw [BitVec.toNat_add, h4]
          omega
        obtain ⟨h1, h2, h3⟩ := @ih (base + 4096) (by omega)
        refine ⟨h1, by omega, fun c hcal hlo hhi => ?_⟩
        by_cases hcb : c = base
        · rw [hcb]
          exact (Bool.not_eq_true _).mp hstop
        · have hne : c.toNat ≠ base.toNat := fun he => hcb (BitVec.eq_of_toNat_eq he)
          exact h3 c hcal (by omega) hhi
    next => exact ⟨hal, Nat.le_refl _, fun c _ hlo hhi => absurd hhi (Nat.not_lt.mpr hlo)⟩

theorem not_gap_of_overlaps {b : Word} (hpages : pages.toNat < 0x100000)
    (hpast : pastUser b pages = false) (ho : vmaOverlaps s b (b + pages * 4096) = true) :
    ¬ s.Gap pages b := by
  intro hgap
  simp only [pastUser, Bool.or_eq_false_iff, decide_eq_false_iff_not] at hpast
  have hstop := toNat_rangeEnd hpages hpast.1
  obtain ⟨v, hv⟩ := Option.isSome_iff_exists.mp ho
  obtain ⟨hlt, hmeet, -⟩ := (findVma_eq_some _ _ _).mp hv
  simp only [Bool.and_eq_true, decide_eq_true_eq, BitVec.lt_def, hstop] at hmeet
  have := hgap v hlt hmeet.1
  omega

theorem vmmMapLazyRange_place (h : vmmMapLazyRange m i virt pages flags = some (base, m')) :
    LazyPlace (m.spaces i) virt pages base := by
  obtain ⟨slot, hl⟩ := vmmMapLazyRange_spec h
  have hgap : (m.spaces i).Gap pages base := by
    intro v hv hu
    have := vmaOverlaps_eq_false hl.apart hv hu
    rwa [hl.stop_eq] at this
  have hpages : pages.toNat < 0x100000 := by
    have hhigh : (base + pages * 4096).toNat ≤ 0xc0000000 := hl.wf.high
    have := hl.stop_eq
    omega
  have hbase : base = chooseBase
      (fun b => pastUser b pages || !vmaOverlaps (m.spaces i) b (b + pages * 4096)) virt := by
    unfold vmmMapLazyRange at h
    extract_lets s b stop at h
    split at h
    next => cases h
    next =>
      split at h
      next => cases h
      next =>
        obtain ⟨_, -, hr⟩ := Option.map_eq_some_iff.mp h
        exact (Prod.mk.inj hr).1.symm
  unfold LazyPlace
  split
  next hz =>
    rw [chooseBase, if_pos hz] at hbase
    obtain ⟨hal, hlo, hfirst⟩ := searchBase_first
      (fun b => pastUser b pages || !vmaOverlaps (m.spaces i) b (b + pages * 4096)) 0xc0000
      (show (0x01000000 : Word).toNat % 4096 = 0 by decide)
    rw [← hbase] at hal hlo hfirst
    refine ⟨hal, hlo, hgap, fun c hcal hclo hlt => ?_⟩
    have hstop := hfirst c hcal hclo hlt
    rw [Bool.or_eq_false_iff, Bool.not_eq_false'] at hstop
    exact not_gap_of_overlaps hpages hstop.1 hstop.2
  next hz => rwa [chooseBase, if_neg hz] at hbase

theorem LazyPlace.unique {b c : Word} (hb : LazyPlace s virt pages b)
    (hc : LazyPlace s virt pages c) : b = c := by
  unfold LazyPlace at hb hc
  split at hb
  next hz =>
    rw [if_pos hz] at hc
    apply BitVec.eq_of_toNat_eq
    have h1 : ¬ c.toNat < b.toNat := fun h => hb.2.2.2 c hc.1 hc.2.1 h hc.2.2.1
    have h2 : ¬ b.toNat < c.toNat := fun h => hc.2.2.2 b hb.1 hb.2.1 h hb.2.2.1
    omega
  next hz =>
    rw [if_neg hz] at hc
    rw [hb, hc]

end

/-- The pages of a lazy range were absent exactly if no page without a VMA lies where the range goes. -/
theorem lazy_range_absent_iff {m m' : Vmm} {i : Nat} {virt pages flags base : Word}
    (h : vmmMapLazyRange m i virt pages flags = some (base, m')) :
    NonePresent (m.spaces i) base pages ↔
      ∀ b, LazyPlace (m.spaces i) virt pages b → ∀ page, (m.spaces i).Bare page →
      ¬ InRange b pages page := by
  have hplace := vmmMapLazyRange_place h
  obtain ⟨slot, hl⟩ := vmmMapLazyRange_spec h
  have hal : base.toNat % 4096 = 0 := hl.wf.start_aligned
  have hfit : base.toNat + 4096 * pages.toNat ≤ 0xc0000000 := by
    rw [← hl.stop_eq]
    exact hl.wf.high
  constructor
  · intro habs b hb page hbare hin
    rw [hb.unique hplace] at hin
    obtain ⟨k, hk, hp⟩ := (InRange.page hal hfit).mp hin
    have hpage : page = pageAt base k := by
      have hk' : (pageAt base k).toNat = base.toNat + 4096 * k := toNat_pageAt (by omega)
      have := hbare.aligned
      rw [pageNumber_eq, pageNumber_eq] at hp
      apply BitVec.eq_of_toNat_eq
      omega
    exact hbare.mapped (hpage ▸ habs k hk)
  · intro hbare k hk
    by_contra hmapped
    have hk' : (pageAt base k).toNat = base.toNat + 4096 * k := toNat_pageAt (by omega)
    refine hbare base hplace (pageAt base k) ⟨by omega, hmapped, fun v hv hcov => ?_⟩ ⟨by omega, by omega⟩
    -- a VMA around the page would overlap the range
    have := vmaOverlaps_eq_false hl.apart hv hcov.1
    rw [hl.stop_eq] at this
    obtain ⟨-, h1, h2⟩ := hcov
    omega

def stackRun : List MmCall := [.create, .allocPage, .mapUser 0 0x00bfe000 0x1000 2]

theorem lazy_range_absent_iff_low : ∃ m m', runs mmStep coldMachine stackRun = some m ∧
    vmmMapLazyRange m 0 0x00400000 1 2 = some (0x00400000, m') ∧
    (NonePresent (m.spaces 0) 0x00400000 1 ↔
      ∀ b, LazyPlace (m.spaces 0) 0x00400000 1 b → ∀ page, (m.spaces 0).Bare page →
      ¬ InRange b 1 page) := by
  have hbase : ((runs mmStep coldMachine stackRun).bind fun m =>
      (vmmMapLazyRange m 0 0x00400000 1 2).map Prod.fst) = some 0x00400000 := by decide +kernel
  obtain ⟨m, hm, hcall⟩ := Option.bind_eq_some_iff.mp hbase
  obtain ⟨⟨base, m'⟩, hmap, rfl⟩ := Option.map_eq_some_iff.mp hcall
  exact ⟨m, m', hm, hmap, lazy_range_absent_iff hmap⟩

/-- A lazy range over the stack is accepted. -/
theorem lazy_range_over_stack : ∃ m m', runs mmStep coldMachine stackRun = some m ∧
    vmmMapLazyRange m 0 0x00bfe000 1 2 = some (0x00bfe000, m') ∧
    ¬ NonePresent (m.spaces 0) 0x00bfe000 1 := by
  have hbase : ((runs mmStep coldMachine stackRun).bind fun m =>
      (vmmMapLazyRange m 0 0x00bfe000 1 2).map fun r =>
        (r.1, vmmGetUserPhysical (m.spaces 0) (pageAt 0x00bfe000 0))) = some (0x00bfe000, 0x1000) := by
    decide +kernel
  obtain ⟨m, hm, hcall⟩ := Option.bind_eq_some_iff.mp hbase
  obtain ⟨⟨base, m'⟩, hmap, hr⟩ := Option.map_eq_some_iff.mp hcall
  obtain ⟨rfl, hphys⟩ := Prod.mk.inj hr
  refine ⟨m, m', hm, hmap, fun habs => ?_⟩
  have := hphys.symm.trans (habs 0 (by decide))
  cases this

end Ceblar
