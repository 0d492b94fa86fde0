import Mathlib.Data.Fintype.Option
import Ceblar.Lib.RefCount
import Ceblar.Mm.Demand

/-! # Who refers to an address space

`HeldBy` says that the counts and marks of the spaces are those of their holders.
-/

namespace Ceblar

open Function

/-! ## Operations inside a space -/

structure KeepsRefs (m m' : Vmm) : Prop where
  refs : ∀ i, (m'.spaces i).refs = (m.spaces i).refs
  used : m'.spaceUsed = m.spaceUsed

structure InActive (m m' : Vmm) : Prop extends KeepsRefs m m' where
  current : m'.currentSpace = m.currentSpace
  others : ∀ i, m.currentSpace ≠ some i → m'.spaces i = m.spaces i

structure SameSpaces (m m' : Vmm) : Prop where
  spaces : m'.spaces = m.spaces
  used : m'.spaceUsed = m.spaceUsed
  current : m'.currentSpace = m.currentSpace

section

variable {m m1 m' : Vmm} {a : Word} {s : Nat} {i : Nat} {flags page : Word}

theorem KeepsRefs.refl (m : Vmm) : KeepsRefs m m := ⟨fun _ => rfl, rfl⟩

theorem KeepsRefs.trans (h1 : KeepsRefs m m1) (h2 : KeepsRefs m1 m') : KeepsRefs m m' :=
  ⟨fun i => (h2.refs i).trans (h1.refs i), h2.used.trans h1.used⟩

theorem InActive.refl (m : Vmm) : InActive m m := ⟨KeepsRefs.refl m, rfl, fun _ _ => rfl⟩

theorem InActive.trans (h1 : InActive m m1) (h2 : InActive m1 m') : InActive m m' :=
  ⟨h1.toKeepsRefs.trans h2.toKeepsRefs, h2.current.trans h1.current,
    fun i hi => (h2.others i (h1.current ▸ hi)).trans (h1.others i hi)⟩

theorem SameSpaces.refl (m : Vmm) : SameSpaces m m := ⟨rfl, rfl, rfl⟩

theorem SameSpaces.trans (h1 : SameSpaces m m1) (h2 : SameSpaces m1 m') : SameSpaces m m' :=
  ⟨h2.spaces.trans h1.spaces, h2.used.trans h1.used, h2.current.trans h1.current⟩

theorem SameSpaces.inActive (h : SameSpaces m m') : InActive m m' :=
  ⟨⟨fun i => by rw [h.spaces], h.used⟩, h.current, fun i _ => by rw [h.spaces]⟩

theorem inActive_of_eq (hs : m'.spaces = m.spaces) (hu : m'.spaceUsed = m.spaceUsed)
    (hc : m'.currentSpace = m.currentSpace) : InActive m m' :=
  SameSpaces.inActive ⟨hs, hu, hc⟩

theorem sameSpaces_vmmMap (m : Vmm) (virt phys flags : Word) : SameSpaces m (vmmMap m virt phys flags) :=
  ⟨vmmMap_spaces _ _ _ _, vmmMap_spaceUsed _ _ _ _, vmmMap_currentSpace _ _ _ _⟩

theorem keepsRefs_switch (m : Vmm) (s : Option Nat) :
    KeepsRefs m (vmmSwitchAddressSpace m s) := ⟨fun _ => rfl, rfl⟩

theorem keepsRefs_setSpace (m : Vmm) (i : Nat) {s : AddressSpace} (h : s.refs = (m.spaces i).refs) :
    KeepsRefs m (m.setSpace i s) := by
  refine ⟨fun j => ?_, rfl⟩
  by_cases hj : j = i
  · subst hj
    simp [Vmm.setSpace, h]
  · simp [Vmm.setSpace, hj]

theorem keepsRefs_mapUser (h : vmmMapUser m i a page flags = some m') :
    KeepsRefs m m' := by
  unfold vmmMapUser at h
  obtain ⟨t, -, rfl⟩ := Option.map_eq_some_iff.mp h
  have hmark : KeepsRefs m (m.markTable i t) := keepsRefs_setSpace m i rfl
  exact hmark.trans (keepsRefs_setSpace (m.markTable i t) i rfl)

theorem mapUser_others {j : Nat} (h : vmmMapUser m i a page flags = some m') (hj : j ≠ i) :
    m'.spaces j = m.spaces j := by
  unfold vmmMapUser at h
  obtain ⟨t, -, rfl⟩ := Option.map_eq_some_iff.mp h
  simp [Vmm.setPte, Vmm.markTable, Vmm.setSpace, hj]

theorem mapUser_current (h : vmmMapUser m i a page flags = some m') :
    m'.currentSpace = m.currentSpace := by
  unfold vmmMapUser at h
  obtain ⟨t, -, rfl⟩ := Option.map_eq_some_iff.mp h
  rfl

theorem inActive_mapUser (hc : m.currentSpace = some s)
    (h : vmmMapUser m s a page flags = some m') : InActive m m' := by
  refine ⟨keepsRefs_mapUser h, mapUser_current h, fun i hi => mapUser_others h ?_⟩
  rintro rfl
  exact hi hc

theorem inActive_setPte (hc : m.currentSpace = some s) (t j : Nat) (w : Word) :
    InActive m (m.setPte s t j w) := by
  refine ⟨keepsRefs_setSpace m s rfl, rfl, fun i hi => ?_⟩
  have hne : i ≠ s := by
    rintro rfl
    exact hi hc
  simp [Vmm.setPte, Vmm.setSpace, hne]

theorem inActive_vmmMap (m : Vmm) (virt phys flags : Word) : InActive m (vmmMap m virt phys flags) :=
  (sameSpaces_vmmMap m virt phys flags).inActive

theorem inActive_storeWindow {bytes : Nat → Byte} (h : m.storeWindow bytes = .ok m') : InActive m m' := by
  unfold Vmm.storeWindow at h
  split at h
  · cases h
  · cases h
    exact inActive_of_eq rfl rfl rfl

theorem inActive_loadWindow (h : m.loadWindow = .ok m') : InActive m m' := by
  unfold Vmm.loadWindow at h
  split at h
  · cases h
  · cases h
    exact inActive_of_eq rfl rfl rfl

theorem inActive_demandFault {v : Vma} (hc : m.currentSpace = some s) (h : demandFault m s a v = .ok m') :
    InActive m m' := by
  unfold demandFault at h
  split at h
  · cases h
  · rename_i page pmm _
    obtain ⟨m1, hstore, h⟩ := bind_eq_ok.mp h
    cases h
    have h0 : InActive m { m with pmm } := inActive_of_eq rfl rfl rfl
    have h1 := (h0.trans (inActive_storeWindow hstore)).trans (inActive_vmmMap m1 window page pageWrite)
    generalize vmmMap m1 window page pageWrite = m2 at h1 ⊢
    cases hmap : vmmMapUser m2 s a page (v.flags ||| pageWrite) with
    | none => exact h1.trans (inActive_of_eq rfl rfl rfl)
    | some m3 =>
      exact (h1.trans (inActive_mapUser (h1.current.trans hc) hmap)).trans (inActive_of_eq rfl rfl rfl)

theorem inActive_cowFault {error : Word} (hc : m.currentSpace = some s)
    (h : cowFault m s error a = .ok m') :
    InActive m m' := by
  dsimp only [cowFault] at h
  split at h
  · split at h
    · cases h
    · rename_i page pmm _
      obtain ⟨m1, hload, h⟩ := bind_eq_ok.mp h
      obtain ⟨m2, hstore, h⟩ := bind_eq_ok.mp h
      cases h
      have h0 : InActive m { m with pmm } := inActive_of_eq rfl rfl rfl
      have h1 := (h0.trans (inActive_vmmMap _ _ _ _)).trans (inActive_loadWindow hload)
      have h2 := (h1.trans (inActive_vmmMap _ _ _ _)).trans (inActive_storeWindow hstore)
      have h3 := h2.trans (inActive_vmmMap _ window window pageWrite)
      exact (h3.trans (inActive_setPte (h3.current.trans hc) _ _ _)).trans (inActive_of_eq rfl rfl rfl)
  · cases h

theorem inActive_pageFault {error cr2 : Word} (h : vmmPageFault m error a cr2 = .ok m') :
    InActive m m' := by
  obtain ⟨s, t, hc, -, ⟨vi, -, -, hdemand⟩ | hcow⟩ := vmmPageFault_inv h
  · exact inActive_demandFault hc hdemand
  · exact inActive_cowFault hc hcow

theorem inActive_validate {len write : Word} {rc : Int}
    (h : vmmValidateUserPtr m s a len write = .ok (rc, m')) :
    InActive m m' := by
  refine vmmValidateUserPtr_inv (fun m1 => InActive m m1) (fun m1 m2 error address h1 hfault => ?_)
    (InActive.refl m) h
  exact h1.trans (inActive_pageFault hfault)

end

def HeldBy {ι : Type*} [Fintype ι] (m : Vmm) (r : ι → Option Nat) : Prop :=
  ∀ sp, (m.spaceUsed sp = true ↔ ∃ i, r i = some sp) ∧ (m.spaces sp).refs.toNat = count r sp

section

variable {ι : Type*} [Fintype ι] {m m' : Vmm} {r : ι → Option Nat} {i j : ι} {sp : Nat}

theorem heldBy_iff : HeldBy m r ↔
    ∀ sp, (m.spaceUsed sp = true ↔ 0 < count r sp) ∧ (m.spaces sp).refs.toNat = count r sp := by
  simp only [HeldBy, count_pos]

theorem HeldBy.congr (h : HeldBy m r) (hk : KeepsRefs m m') : HeldBy m' r := by
  intro sp
  rw [hk.used, hk.refs]
  exact h sp

variable [DecidableEq ι]

theorem HeldBy.create (h : HeldBy m r) (hi : r i = none) (hc : vmmCreateAddressSpace m = some (sp, m')) :
    HeldBy m' (update r i (some sp)) := by
  unfold vmmCreateAddressSpace at hc
  obtain ⟨d, hfind, hd⟩ := Option.map_eq_some_iff.mp hc
  have hfree : m.spaceUsed d = false := by simpa using List.find?_some hfind
  cases hd
  rw [heldBy_iff] at h ⊢
  have hzero : count r sp = 0 := by
    by_contra hne
    have := (h sp).1.mpr (by omega)
    rw [hfree] at this
    cases this
  intro x
  rw [count_take hi, hzero]
  by_cases hx : x = sp
  · subst hx
    simp
  · dsimp only
    rw [update_of_ne hx, update_of_ne hx, update_of_ne hx]
    exact h x

theorem HeldBy.retain (h : HeldBy m r) (hi : r i = none) (hj : r j = some sp)
    (hfew : count r sp + 1 < 2 ^ 32) : HeldBy (vmmRetainAddressSpace m sp) (update r i (some sp)) := by
  have hpos : 0 < count r sp := (count_pos r sp).mpr ⟨j, hj⟩
  rw [heldBy_iff] at h ⊢
  intro x
  rw [count_take hi]
  unfold vmmRetainAddressSpace Vmm.setSpace
  by_cases hx : x = sp
  · subst hx
    obtain ⟨hu, hr⟩ := h x
    simp only [update_self, BitVec.toNat_add, hr]
    exact ⟨⟨fun _ => by omega, fun _ => hu.mpr hpos⟩, Nat.mod_eq_of_lt hfew⟩
  · dsimp only
    rw [update_of_ne hx, update_of_ne hx]
    exact h x

theorem HeldBy.destroy (h : HeldBy m r) (hi : r i = some sp) :
    HeldBy (vmmDestroyAddressSpace m sp) (update r i none) := by
  have hpos : 0 < count r sp := (count_pos r sp).mpr ⟨i, hi⟩
  rw [heldBy_iff] at h ⊢
  obtain ⟨hu, hr⟩ := h sp
  have hused : m.spaceUsed sp = true := hu.mpr hpos
  have hne : (m.spaces sp).refs ≠ 0 := by
    intro h0
    rw [h0] at hr
    simp at hr
    omega
  have hsub : ((m.spaces sp).refs - 1).toNat = count r sp - 1 := by
    have := (m.spaces sp).refs.isLt
    have h1 : (1 : Word).toNat = 1 := rfl
    rw [← hr, BitVec.toNat_sub, h1]
    omega
  have hleft : (m.spaces sp).refs - 1 ≠ 0 ↔ 0 < count r sp - 1 := by
    rw [← hsub, Nat.pos_iff_ne_zero, Ne, Ne, ← BitVec.toNat_inj]
    rfl
  unfold vmmDestroyAddressSpace
  dsimp only
  rw [if_neg hne]
  intro x
  rw [count_drop hi]
  by_cases hzero : (m.spaces sp).refs - 1 ≠ 0
  · rw [if_pos hzero]
    by_cases hx : x = sp
    · subst hx
      simp only [Vmm.setSpace, update_self]
      exact ⟨⟨fun _ => hleft.mp hzero, fun _ => hused⟩, hsub⟩
    · simp only [Vmm.setSpace, update_of_ne hx]
      exact h x
  · rw [if_neg hzero, if_pos (by simpa [Vmm.setSpace] using hused)]
    by_cases hx : x = sp
    · subst hx
      simp only [Vmm.setSpace, update_self]
      exact ⟨⟨fun hf => (by cases hf), fun h0 => absurd (hleft.mpr h0) hzero⟩, hsub⟩
    · simp only [Vmm.setSpace, update_of_ne hx]
      exact h x

theorem HeldBy.handOver (h : HeldBy m r) (hi : r i = none) (hj : r j = some sp) :
    HeldBy m (update (update r j none) i (some sp)) := by
  have hij : i ≠ j := by
    rintro rfl
    rw [hi] at hj
    cases hj
  have hi' : update r j none i = none := by rw [update_of_ne hij, hi]
  have hpos : 0 < count r sp := (count_pos r sp).mpr ⟨j, hj⟩
  have hcount : count (update (update r j none) i (some sp)) = count r := by
    rw [count_take hi', count_drop hj, update_self, update_idem, Nat.sub_add_cancel hpos,
      update_eq_self]
  rw [heldBy_iff] at h ⊢
  rw [hcount]
  exact h

end

/-! ## A space under construction -/

def withSpare {ι : Type*} (spare : Option Nat) (r : ι → Option Nat) (i : Option ι) : Option Nat :=
  i.elim spare r

section

variable {ι : Type*} {m m' : Vmm} {r : ι → Option Nat} {i : ι} {sp : Nat} {spare : Option Nat}

theorem withSpare_update [DecidableEq ι] (v : Option Nat) :
    update (withSpare spare r) (some i) v = withSpare spare (update r i v) := by
  funext j
  cases j with
  | none => rfl
  | some j =>
    by_cases hj : j = i
    · subst hj
      simp [withSpare]
    · simp [withSpare, hj]

theorem withSpare_none [DecidableEq ι] (v : Option Nat) :
    update (withSpare spare r) none v = withSpare v r := by
  funext j
  cases j with
  | none => simp [withSpare]
  | some j => simp [withSpare]

variable [Fintype ι]

theorem heldBy_spare : HeldBy m (withSpare none r) ↔ HeldBy m r := by
  have hcount : count (withSpare none r) = count r := by
    funext f
    have hmap : holders (withSpare none r) f = (holders r f).map .some := by
      ext j
      cases j with
      | none => simp [withSpare]
      | some j => simp [withSpare]
    rw [count, hmap, Finset.card_map]
    rfl
  rw [heldBy_iff, heldBy_iff, hcount]

variable [DecidableEq ι]

theorem HeldBy.build (h : HeldBy m r) (hc : vmmCreateAddressSpace m = some (sp, m')) :
    HeldBy m' (withSpare (some sp) r) := by
  rw [← withSpare_none]
  exact (heldBy_spare.mpr h).create rfl hc

theorem HeldBy.discard (h : HeldBy m (withSpare (some sp) r)) :
    HeldBy (vmmDestroyAddressSpace m sp) r := by
  rw [← heldBy_spare, ← withSpare_none]
  exact HeldBy.destroy h rfl

theorem HeldBy.drop (h : HeldBy m r) (i : ι) :
    HeldBy (((r i).map (vmmDestroyAddressSpace m)).getD m) (update r i none) := by
  cases hi : r i with
  | none =>
    rw [← hi, update_eq_self, hi]
    exact h
  | some old => exact h.destroy hi

theorem HeldBy.exchange (h : HeldBy m (withSpare (some sp) r)) (i : ι) :
    HeldBy (((r i).map (vmmDestroyAddressSpace m)).getD m) (update r i (some sp)) := by
  have hdrop := h.drop (some i)
  rw [withSpare_update] at hdrop
  have hfree : withSpare (some sp) (update r i none) (some i) = none := by simp [withSpare]
  have hover := hdrop.handOver (j := none) hfree rfl
  rw [withSpare_none, withSpare_update, heldBy_spare, update_idem] at hover
  exact hover

end

end Ceblar
