import Ceblar.Mm.MapRange

/-! # Pointer checks: sound and complete

The faults that `vmm_validate_user_ptr` raises change the tables it walks, but not a page that has
been checked.
-/

namespace Ceblar

open Function

/-- The user of space `s` can read the byte at `a`, and write it if `write` is set. -/
def Accessible (m : Vmm) (s : Nat) (write a : Word) : Prop :=
  ∃ pte, userPte (m.spaces s) a = some pte ∧ (write ≠ 0 → bit pte 1 = true)

/-- The page of `a` is present and open to the user, and for a write it is writable or copy-on-write. -/
def Grantable (m : Vmm) (s : Nat) (write a : Word) : Prop :=
  ∃ pte, userPte (m.spaces s) a = some pte ∧ (write ≠ 0 → bit pte 1 = true ∨ bit pte 9 = true)

/-- The pages among the `n` from page number `first` on that are not writable. -/
def readOnlyPages (m : Vmm) (s first n : Nat) : Nat :=
  (List.range' first n).countP fun p => !bit (faultEntry m s (BitVec.ofNat 32 (p * 4096))) 1

def freeFrames (p : Pmm) : Nat := clearBits p.total (update p.bitmap 0 true)

def InBuffer (virt len a : Word) : Prop := virt.toNat ≤ a.toNat ∧ a.toNat < virt.toNat + len.toNat

section

variable {m m' : Vmm} {i s t j : Nat} {page write a last w : Word}
variable {p : Pmm} {address b cr2 error : Word}

/-! ## What a fault changes -/

theorem Demanded.entrySet {v : Vma} (h : Demanded m s t page v a p m') :
    EntrySet m s t (tableIndex page)
      (pageBase a ||| (v.flags ||| pageWrite ||| pagePresent ||| pageUser)) m' where
  pte k u l := by
    rw [Vmm.pte, h.spaces]
    exact (entrySet_mark m s t _ _).pte k u l
  table := by
    rw [h.spaces]
    exact (entrySet_mark m s t _ _).table
  used k u hu := by
    rw [h.spaces]
    exact (entrySet_mark m s t _ _).used k u hu

theorem Copied.entrySet (hused : (m.spaces s).tableUsed (dirIndex page - 1) = true)
    (h : Copied m s page a p m') :
    EntrySet m s (dirIndex page - 1) (tableIndex page)
      (a ||| pagePresent ||| pageUser ||| pageWrite) m' where
  pte k u l := by
    rw [Vmm.pte, h.spaces]
    exact pte_setPte _ s _ _ _ k u l
  table := by
    rw [h.spaces, setPte_tableUsed]
    exact hused
  used k u hu := by
    rw [h.spaces, setPte_tableUsed]
    exact hu

theorem vmmPageFault_entry (hf : vmmPageFault m error address cr2 = .ok m') :
    ∃ k t j w, EntrySet m k t j w m' ∧ bit w 0 = true ∧ bit w 1 = true ∧ bit w 2 = true := by
  obtain ⟨k, t, -, hslot, ⟨vi, -, -, hd⟩ | hc⟩ := vmmPageFault_inv hf
  · obtain ⟨b, p, hdem⟩ := demandFault_inv hslot hd
    exact ⟨k, t, _, _, hdem.entrySet, by simp, by simp, by simp⟩
  · obtain ⟨hguard, b, p, hcopy⟩ := cowFault_inv hc
    exact ⟨k, _, _, _, hcopy.entrySet hguard.2.2.1, by simp, by simp, by simp⟩

theorem Accessible.fault (h : Accessible m s write a)
    (hf : vmmPageFault m error address cr2 = .ok m') : Accessible m' s write a := by
  obtain ⟨pte, hpte, hwrite⟩ := h
  obtain ⟨k, t, j, w, hset, h0, h1, h2⟩ := vmmPageFault_entry hf
  rcases hset.userPte ⟨h0, h2⟩ hpte with hw | hold
  · exact ⟨w, hw, fun _ => h1⟩
  · exact ⟨pte, hold, hwrite⟩

theorem userPte_samePage (hp : pageNumber b = pageNumber a) (sp : AddressSpace) :
    userPte sp b = userPte sp a := by
  obtain ⟨hslot, hindex⟩ := userSlot_page hp
  unfold userPte
  rw [hslot, hindex]

theorem Accessible.samePage (h : Accessible m s write a) (hp : pageNumber b = pageNumber a) :
    Accessible m s write b := by
  unfold Accessible at *
  rwa [userPte_samePage hp]

theorem accessible_of_physical (hal : page.toNat % 4096 = 0)
    (hphys : vmmGetUserPhysical (m.spaces s) page ≠ 0) :
    ∃ t, userSlot page = some t ∧ userPte (m.spaces s) page = some (m.pte s t (tableIndex page)) := by
  obtain ⟨t, hslot, hentry⟩ := (physical_iff hal).mp hphys
  exact ⟨t, hslot, userPte_eq_some.mpr ⟨t, hslot, hentry.used, rfl, hentry.present, hentry.user⟩⟩

theorem validatePage_accessible (hal : page.toNat % 4096 = 0)
    (h : validatePage m s page write = .ok (true, m')) :
    Accessible m' s write page := by
  unfold validatePage at h
  split at h
  next => cases h
  next m1 _ =>
    split at h
    next => cases h
    next hphys =>
      obtain ⟨t, hslot, hpte⟩ := accessible_of_physical hal hphys
      have ht : dirIndex page - 1 = t := by rw [dirIndex_of_slot hslot, Nat.add_sub_cancel]
      unfold validateWritable at h
      extract_lets u j at h
      rw [show u = t from ht] at h
      split at h
      next hneed =>
        split at h
        next => cases h
        next =>
          split at h
          next => cases h
          next m2 hf =>
            -- the fault keeps the page open, and its entry was looked at again
            rw [Except.ok.injEq, Prod.mk.injEq, decide_eq_true_eq] at h
            obtain ⟨hwrite, rfl⟩ := h
            obtain ⟨pte, hpte2, -⟩ :=
              Accessible.fault (⟨_, hpte, fun hz => absurd rfl hz⟩ : Accessible _ _ 0 _) hf
            refine ⟨pte, hpte2, fun _ => ?_⟩
            obtain ⟨u', hslot', -, rfl, -⟩ := userPte_eq_some.mp hpte2
            rw [hslot, Option.some.injEq] at hslot'
            rw [← hslot']
            exact (and_pageWrite _).mp hwrite
      next hneed =>
        cases h
        refine ⟨_, hpte, fun hw => ?_⟩
        by_contra hbit
        exact hneed ⟨hw, (and_pageWrite_eq_zero _).mpr ((Bool.not_eq_true _).mp hbit)⟩

theorem last_page_iff (hal : page.toNat % 4096 = 0) (hle : page.toNat ≤ last.toNat)
    (hlow : 0x400000 ≤ page.toNat) :
    last - 4096 < page ↔ pageNumber last = pageNumber page := by
  have h4 : (4096 : Word).toNat = 4096 := rfl
  rw [BitVec.lt_def, BitVec.toNat_sub_of_le (by rw [BitVec.le_def, h4]; omega), h4, pageNumber_eq,
    pageNumber_eq]
  omega

theorem validateLoop_accessible (hhigh : last.toNat < 0xc0000000) (fuel : Nat) :
    ∀ {page : Word} {m m' : Vmm},
    page.toNat % 4096 = 0 → 0x400000 ≤ page.toNat → page.toNat ≤ last.toNat →
    validateLoop s last write fuel page m = .ok (0, m') →
    ∀ a : Word, page.toNat ≤ a.toNat → a.toNat ≤ last.toNat → Accessible m' s write a := by
  induction fuel with
  | zero => intro page m m' _ _ _ h; cases h
  | succ fuel ih =>
    intro page m m' hal hlow hle h a ha1 ha2
    rw [validateLoop] at h
    split at h
    next => cases h
    next => cases h
    next m1 hp =>
      have hpage := validatePage_accessible hal hp
      simp only [last_page_iff hal hle hlow] at h
      split at h
      next hend =>
        cases h
        apply hpage.samePage
        rw [pageNumber_eq, pageNumber_eq] at hend ⊢
        omega
      next hmore =>
        rw [pageNumber_eq, pageNumber_eq] at hmore
        have h4 : (4096 : Word).toNat = 4096 := rfl
        have hnext : (page + 4096).toNat = page.toNat + 4096 := by
          rw [BitVec.toNat_add, h4]
          omega
        by_cases ha : a.toNat < page.toNat + 4096
        · -- the rest of the walk leaves this page accessible
          have hsame : pageNumber a = pageNumber page := by
            rw [pageNumber_eq, pageNumber_eq]
            omega
          exact validateLoop_inv (P := fun m => Accessible m s write a)
            (fun _ _ _ _ hm hf => hm.fault hf) fuel (hpage.samePage hsame) h
        · exact ih (by omega) (by omega) (by omega) h a (by omega) ha2

/-! ## A page that must pass -/

theorem Grantable.samePage (h : Grantable m s write a) (hp : pageNumber b = pageNumber a) :
    Grantable m s write b := by
  unfold Grantable at *
  rwa [userPte_samePage hp]

theorem Grantable.fault (h : Grantable m s write a)
    (hf : vmmPageFault m error address cr2 = .ok m') : Grantable m' s write a := by
  obtain ⟨pte, hpte, hwrite⟩ := h
  obtain ⟨k, t, j, w, hset, h0, h1, h2⟩ := vmmPageFault_entry hf
  rcases hset.userPte ⟨h0, h2⟩ hpte with hw | hold
  · exact ⟨w, hw, fun _ => .inl h1⟩
  · exact ⟨pte, hold, hwrite⟩

theorem freeFrames_alloc {p' : Pmm} (ha : pmmAllocPage p = some (a, p')) :
    freeFrames p' + 1 = freeFrames p := by
  obtain ⟨f, hf, -, -, rfl⟩ := pmmAllocPage_spec ha
  obtain ⟨h0, ht, hfree, -⟩ := (firstFree_eq_some p f).mp hf
  have hne : f ≠ 0 := by omega
  unfold freeFrames
  dsimp only
  rw [update_comm hne]
  exact clearBits_set ht (by rw [update_of_ne hne]; exact hfree)

theorem freeFrames_free (p : Pmm) (a : Word) : freeFrames p ≤ freeFrames (pmmFreePage p a) := by
  unfold freeFrames
  rw [show (pmmFreePage p a).total = p.total by unfold pmmFreePage; dsimp only; split_ifs <;> rfl]
  apply clearBits_mono
  intro f hf
  by_cases h0 : f = 0
  · simp [h0] at hf
  · rw [update_of_ne h0] at hf ⊢
    unfold pmmFreePage
    dsimp only
    split_ifs
    · exact hf
    · by_cases hfa : f = pageNumber a
      · simp [hfa]
      · exact (update_of_ne hfa _ _).trans hf
    · exact hf

theorem alloc_of_freeFrames (h : 0 < freeFrames p) : ∃ a p', pmmAllocPage p = some (a, p') := by
  apply pmmAllocPage_of_free
  by_contra hnone
  rw [Bool.not_eq_true, Option.isSome_eq_false_iff, Option.isNone_iff_eq_none, firstFree_eq_none] at hnone
  have hzero : freeFrames p = 0 := by
    unfold freeFrames clearBits
    rw [Finset.card_eq_zero, Finset.filter_eq_empty_iff]
    intro f hf
    by_cases h0 : f = 0
    · simp [h0]
    · rw [update_of_ne h0, hnone f (by omega) (Finset.mem_range.mp hf)]
      simp
  omega

theorem faultPage_aligned (hal : page.toNat % 4096 = 0) (hlow : 0x400000 ≤ page.toNat) :
    faultPage page 0 = page := by
  have hne : page ≠ 0 := by
    rintro rfl
    simp at hlow
  rw [faultPage, if_pos hne]
  exact pageBase_aligned hal

theorem validatePage_grants (hm : m.Tidy) (hcur : m.currentSpace = some s) (hal : page.toNat % 4096 = 0)
    (hlow : 0x400000 ≤ page.toNat) (hg : Grantable m s write page)
    (hfree : write ≠ 0 → bit (faultEntry m s page) 1 = false → 0 < freeFrames m.pmm) :
    ∃ m', validatePage m s page write = .ok (true, m') ∧
      (m' = m ∨ write ≠ 0 ∧ bit (faultEntry m s page) 1 = false ∧ vmmPageFault m 6 page 0 = .ok m' ∧
        ∃ a p, Copied m s page a p m') := by
  obtain ⟨pte, hpte, hwrite⟩ := hg
  obtain ⟨t, hslot, hused, rfl, hpresent, huser⟩ := userPte_eq_some.mp hpte
  have hentry := hm.entries s t (tableIndex page) hpresent
  have hphys : vmmGetUserPhysical (m.spaces s) page ≠ 0 := (physical_iff hal).mpr ⟨t, hslot, hentry⟩
  have ht : dirIndex page - 1 = t := by rw [dirIndex_of_slot hslot, Nat.add_sub_cancel]
  have hfault : faultEntry m s page = m.pte s t (tableIndex page) := faultEntry_of_slot hslot m s
  have hres : validateResident m s page write = .ok m := by
    rw [validateResident, if_neg hphys]
  unfold validatePage
  rw [hres]
  dsimp only
  rw [if_neg hphys]
  unfold validateWritable
  dsimp only
  rw [ht]
  by_cases hneed : write ≠ 0 ∧ m.pte s t (tableIndex page) &&& pageWrite = 0
  · have hro : bit (m.pte s t (tableIndex page)) 1 = false := (and_pageWrite_eq_zero _).mp hneed.2
    have hcow : bit (m.pte s t (tableIndex page)) 9 = true := by
      rcases hwrite hneed.1 with h1 | h9
      · exact absurd (h1.symm.trans hro) (by simp)
      · exact h9
    rw [if_pos hneed, if_neg ((and_pageCow _).mpr hcow)]
    obtain ⟨a, p, ha⟩ := alloc_of_freeFrames (hfree hneed.1 (hfault ▸ hro))
    have hguard : CowGuard m s 6 page := by
      refine ⟨by decide, by decide, by rw [ht]; exact hused, ?_, ?_⟩
      · rw [hfault]
        exact (and_pageCow _).mpr hcow
      · rw [hfault]
        exact (and_pagePresent _).mpr hpresent
    have hself := faultPage_aligned hal hlow
    obtain ⟨m1, hrun, hcopy⟩ := cowFault_copied (table_of_window hm.window) hguard ha
    have hpf : vmmPageFault m 6 page 0 = .ok m1 := by
      have hres : vmmPageFault m 6 page 0 = _ :=
        vmmPageFault_resident hcur (hself.symm ▸ hslot) (hself.symm ▸ hphys)
      rw [hself] at hres
      rw [hres, hrun]
    have hnew : m1.pte s t (tableIndex page) = a ||| pagePresent ||| pageUser ||| pageWrite := by
      have hset := (hcopy.entrySet (by rw [ht]; exact hused)).pte s t (tableIndex page)
      rwa [ht, if_pos ⟨rfl, rfl, rfl⟩] at hset
    rw [hpf]
    refine ⟨m1, ?_, .inr ⟨hneed.1, by rw [hfault]; exact hro, rfl, a, p, hcopy⟩⟩
    dsimp only
    rw [hnew, decide_eq_true ((and_pageWrite _).mpr (by simp))]
  · rw [if_neg hneed]
    exact ⟨m, rfl, .inl rfl⟩

theorem readOnlyPages_succ (m : Vmm) (s n : Nat) (hal : page.toNat % 4096 = 0) :
    readOnlyPages m s (pageNumber page) (n + 1) =
      readOnlyPages m s (pageNumber page + 1) n + if bit (faultEntry m s page) 1 = true then 0
        else 1 := by
  have hself : BitVec.ofNat 32 (pageNumber page * 4096) = page := by
    apply BitVec.eq_of_toNat_eq
    rw [BitVec.toNat_ofNat, pageNumber_eq]
    omega
  unfold readOnlyPages
  rw [List.range'_succ, List.countP_cons, hself]
  cases bit (faultEntry m s page) 1 <;> rfl

theorem Copied.readOnlyPages {n : Nat} (hslot : userSlot page = some t) (hal : page.toNat % 4096 = 0)
    (hfit : page.toNat + 4096 * (n + 1) < 4294967296) (hro : bit (faultEntry m s page) 1 = false)
    (hused : (m.spaces s).tableUsed (dirIndex page - 1) = true) (hc : Copied m s page a p m')
    (h : Ceblar.readOnlyPages m s (pageNumber page) (n + 1) ≤ freeFrames m.pmm) :
    Ceblar.readOnlyPages m' s (pageNumber page + 1) n ≤ freeFrames m'.pmm := by
  have hfree : freeFrames m.pmm ≤ freeFrames m'.pmm + 1 := by
    rw [hc.pmm, ← freeFrames_alloc hc.alloc]
    exact Nat.succ_le_succ (freeFrames_free p _)
  have hrest : Ceblar.readOnlyPages m' s (pageNumber page + 1) n = Ceblar.readOnlyPages m s
      (pageNumber page + 1) n := by
    unfold Ceblar.readOnlyPages
    apply List.countP_congr
    intro q hq
    have hq := List.mem_range'_1.mp hq
    have hne : faultEntry m' s (BitVec.ofNat 32 (q * 4096)) =
        faultEntry m s (BitVec.ofNat 32 (q * 4096)) := by
      unfold faultEntry
      rw [(hc.entrySet hused).pte, if_neg]
      rintro ⟨-, hd, hi⟩
      have hlt := userSlot_lt hslot
      have hdir := dirIndex_of_slot hslot
      rw [dirIndex_eq, BitVec.toNat_ofNat] at hd
      rw [tableIndex_eq, tableIndex_eq, BitVec.toNat_ofNat] at hi
      rw [dirIndex_eq] at hd hdir
      rw [pageNumber_eq] at hq
      omega
    rw [hne]
  rw [readOnlyPages_succ m s n hal, hro, if_neg Bool.false_ne_true] at h
  omega

theorem validateLoop_grants (hhigh : last.toNat < 0xc0000000) (fuel : Nat) :
    ∀ (n : Nat) {page : Word} {m : Vmm},
    m.Tidy → m.currentSpace = some s → page.toNat % 4096 = 0 → 0x400000 ≤ page.toNat →
    page.toNat ≤ last.toNat → pageNumber last = pageNumber page + n → n < fuel →
    (∀ a : Word, page.toNat ≤ a.toNat → a.toNat ≤ last.toNat → Grantable m s write a) →
    (write ≠ 0 → readOnlyPages m s (pageNumber page) (n + 1) ≤ freeFrames m.pmm) →
    ∃ m', validateLoop s last write fuel page m = .ok (0, m') := by
  induction fuel with
  | zero => intro n page m _ _ _ _ _ _ hn; omega
  | succ fuel ih =>
    intro n page m hm hcur hal hlow hle hlast hfuel hg hfree
    have hpage := hg page (Nat.le_refl _) hle
    have hnum := pageNumber_eq page
    have hlastNum := pageNumber_eq last
    have hframe : write ≠ 0 → bit (faultEntry m s page) 1 = false → 0 < freeFrames m.pmm := by
      intro hw hro
      have hcount := hfree hw
      rw [readOnlyPages_succ m s n hal, hro, if_neg Bool.false_ne_true] at hcount
      omega
    obtain ⟨m1, hrun, hcase⟩ := validatePage_grants hm hcur hal hlow hpage hframe
    rw [validateLoop, hrun]
    dsimp only
    simp only [last_page_iff hal hle hlow]
    split
    next => exact ⟨m1, rfl⟩
    next hmore =>
      have h4 : (4096 : Word).toNat = 4096 := rfl
      obtain ⟨n, rfl⟩ : ∃ n', n = n' + 1 := ⟨n - 1, by omega⟩
      have hnext : (page + 4096).toNat = page.toNat + 4096 := by
        rw [BitVec.toNat_add, h4]
        omega
      have hnextNum : pageNumber (page + 4096) = pageNumber page + 1 := by
        rw [pageNumber_eq, pageNumber_eq, hnext]
        omega
      rcases hcase with rfl | ⟨hw, hro, hpf, a, p, hcopy⟩
      · refine ih n hm hcur (by omega) (by omega) (by omega) (by omega) (by omega)
          (fun a ha1 ha2 => hg a (by omega) ha2) fun hw => Nat.le_trans ?_ (hfree hw)
        rw [hnextNum, readOnlyPages_succ m1 s (n + 1) hal]
        omega
      · obtain ⟨pte, hpte, -⟩ := hpage
        obtain ⟨t, hslot, hused, -⟩ := userPte_eq_some.mp hpte
        have hused' : (m.spaces s).tableUsed (dirIndex page - 1) = true := by
          rw [dirIndex_of_slot hslot, Nat.add_sub_cancel]
          exact hused
        refine ih n (vmmPageFault_tidy hm hpf) (hcopy.currentSpace.trans hcur) (by omega) (by omega)
          (by omega)
          (by omega) (by omega) (fun a ha1 ha2 => (hg a (by omega) ha2).fault hpf) fun hw => ?_
        rw [hnextNum]
        exact hcopy.readOnlyPages hslot hal (by omega) hro hused' (hfree hw)

theorem buffer_bounds {virt len : Word} (hlen : len ≠ 0) (hlow : 0x400000 ≤ virt.toNat)
    (hfit : virt.toNat + len.toNat ≤ 0xc0000000) :
    (virt + len - 1).toNat = virt.toNat + len.toNat - 1 ∧
    (pageBase virt).toNat = virt.toNat / 4096 * 4096 ∧
      0 < len.toNat := by
  have h1 : (1 : Word).toNat = 1 := rfl
  have hpos : len.toNat ≠ 0 := fun h0 => hlen (BitVec.eq_of_toNat_eq h0)
  refine ⟨?_, by rw [toNat_pageBase, pageNumber_eq], by omega⟩
  rw [BitVec.toNat_sub, BitVec.toNat_add, h1]
  omega

theorem buffer_refused_iff (virt len : Word) :
    (len = 0 ∨ virt < 0x400000 ∨ 0xc0000000 ≤ virt ∨ 0xc0000000 - virt < len) ↔
      ¬ (len ≠ 0 ∧ 0x400000 ≤ virt.toNat ∧ virt.toNat + len.toNat ≤ 0xc0000000) := by
  have h4 : (0x400000 : Word).toNat = 0x400000 := rfl
  have hc : (0xc0000000 : Word).toNat = 0xc0000000 := rfl
  have hpos : len ≠ 0 → len.toNat ≠ 0 := fun h h0 => h (BitVec.eq_of_toNat_eq h0)
  rw [BitVec.lt_def, BitVec.le_def, h4, hc]
  by_cases hhigh : virt.toNat < 0xc0000000
  · rw [BitVec.lt_def, BitVec.toNat_sub_of_le (by rw [BitVec.le_def, hc]; omega), hc]
    by_cases hlen : len = 0
    · simp [hlen]
    · simp only [hlen, false_or, ne_eq, not_false_eq_true, true_and]
      omega
  · refine ⟨fun _ ⟨hlen, _, hfit⟩ => ?_, fun _ => .inr (.inr (.inl (by omega)))⟩
    have := hpos hlen
    omega

/-- A buffer that passes is accessible to its last byte; and on resident memory with frames for the
copies, every buffer that could be accessible passes. -/
theorem validate_sound_and_complete {m : Vmm} {s : Nat} (hcur : m.currentSpace = some s)
    (virt len write : Word) :
    (∀ m', vmmValidateUserPtr m s virt len write = .ok (0, m') →
      0x400000 ≤ virt.toNat ∧ virt.toNat + len.toNat ≤ 0xc0000000 ∧
        ∀ a, InBuffer virt len a → Accessible m' s write a) ∧
    (∀ m₀ calls, ColdStart m₀ → runs mmStep m₀ calls = some m → len ≠ 0 → 0x400000 ≤ virt.toNat →
      virt.toNat + len.toNat ≤ 0xc0000000 → (∀ a, InBuffer virt len a → Grantable m s write a) →
      (write ≠ 0 →
        readOnlyPages m s (pageNumber virt) (pageNumber (virt + len - 1) - pageNumber virt + 1) ≤
        freeFrames m.pmm) →
      ∃ m', vmmValidateUserPtr m s virt len write = .ok (0, m')) := by
  unfold vmmValidateUserPtr InBuffer
  simp only [buffer_refused_iff]
  constructor
  · intro m' h
    split at h
    next => cases h
    next hargs =>
      obtain ⟨hlen, hlow, hfit⟩ := Decidable.not_not.mp hargs
      obtain ⟨hlast, hbase, hpos⟩ := buffer_bounds hlen hlow hfit
      refine ⟨hlow, hfit, fun a ha => ?_⟩
      exact validateLoop_accessible (by omega) _ (by omega) (by omega) (by omega) h a (by omega)
        (by omega)
  · intro m₀ calls hcold hrun hlen hlow hfit hgrant hfree
    obtain ⟨hlast, hbase, hpos⟩ := buffer_bounds hlen hlow hfit
    have hnum : pageNumber (pageBase virt) = pageNumber virt := by
      rw [pageNumber_eq, pageNumber_eq, hbase]
      omega
    have hnumLast := pageNumber_eq (virt + len - 1)
    have hnumVirt := pageNumber_eq virt
    rw [if_neg (not_not_intro ⟨hlen, hlow, hfit⟩)]
    refine validateLoop_grants (by omega) _ (pageNumber (virt + len - 1) - pageNumber virt)
      (tidy_of_calls hcold hrun) hcur (by omega) (by omega) (by omega) (by omega) (by omega) ?_
        (hnum.symm ▸ hfree)
    intro a ha1 ha2
    -- the walk starts at the page of the first byte: a byte before the buffer shares its page
    by_cases ha : virt.toNat ≤ a.toNat
    · exact hgrant a ⟨ha, by omega⟩
    · refine (hgrant virt ⟨Nat.le_refl _, by omega⟩).samePage ?_
      rw [pageNumber_eq, pageNumber_eq]
      omega

end

def sharedRun : List MmCall :=
  [.create, .allocPage, .mapUser 0 0x00bfe000 0x1000 2, .cloneCow 0, .switchTo (some 0)]

theorem validate_sound_and_complete_shared : ∃ m m',
    runs mmStep coldMachine sharedRun = some m ∧ m.currentSpace = some 0 ∧
      bit (faultEntry m 0 0x00bfe000) 1 = false ∧ vmmValidateUserPtr m 0 0x00bfe000 1 1 = .ok (0, m') ∧
      Accessible m' 0 1 0x00bfe000 := by
  have hrun : ((runs mmStep coldMachine sharedRun).map fun m =>
      (m.currentSpace, bit (faultEntry m 0 0x00bfe000) 1,
        (userPte (m.spaces 0) 0x00bfe000).map fun w => bit w 9,
        decide (readOnlyPages m 0 0xbfe 1 ≤ freeFrames m.pmm))) =
          some (some 0, false, some true, true) := by
    decide +kernel
  obtain ⟨m, hm, hfacts⟩ := Option.map_eq_some_iff.mp hrun
  simp only [Prod.mk.injEq, decide_eq_true_eq] at hfacts
  obtain ⟨hcur, hro, hcow, hfree⟩ := hfacts
  obtain ⟨pte, hpte, hbit⟩ := Option.map_eq_some_iff.mp hcow
  have hboth := validate_sound_and_complete hcur 0x00bfe000 1 1
  have hbuffer : ∀ a, InBuffer 0x00bfe000 1 a → Grantable m 0 1 a := by
    rintro a ⟨hlow, hhigh⟩
    have ha : a = 0x00bfe000 := BitVec.eq_of_toNat_eq (Nat.le_antisymm (Nat.le_of_lt_succ hhigh) hlow)
    exact ⟨pte, ha ▸ hpte, fun _ => .inr hbit⟩
  obtain ⟨m', hm'⟩ := hboth.2 coldMachine sharedRun coldMachine_coldStart hm (by decide) (by decide)
    (by decide) hbuffer (fun _ => hfree)
  exact ⟨m, m', hm, hcur, hro, hm', (hboth.1 m' hm').2.2 _ ⟨Nat.le_refl _, by decide⟩⟩

end Ceblar
