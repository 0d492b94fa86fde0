import Ceblar.Lib.RefCount
import Ceblar.Mm.Fault

/-! # Page table entries and who maps what

The flag bits of an entry, the effect of the one-page operations on the entries, and the
invariant that ties the entries of all live spaces to the allocator's counts.
-/

namespace Ceblar

open Function

variable {w : Word} {t : Nat} {m m' : Vmm} {x : Entry}

/-! ## Flag bits -/

theorem and_pagePresent (w : Word) : w &&& pagePresent ≠ 0 ↔ bit w 0 = true :=
  and_twoPow_ne_zero w 0 (by omega)

theorem and_pageWrite (w : Word) : w &&& pageWrite ≠ 0 ↔ bit w 1 = true :=
  and_twoPow_ne_zero w 1 (by omega)

theorem and_pageUser (w : Word) : w &&& pageUser ≠ 0 ↔ bit w 2 = true :=
  and_twoPow_ne_zero w 2 (by omega)

theorem and_pageCow (w : Word) : w &&& pageCow ≠ 0 ↔ bit w 9 = true :=
  and_twoPow_ne_zero w 9 (by omega)

@[simp] theorem and_pagePresent_eq_zero (w : Word) : w &&& pagePresent = 0#32 ↔ bit w 0 = false := by
  simpa using (and_pagePresent w).not

@[simp] theorem and_pageWrite_eq_zero (w : Word) : w &&& pageWrite = 0#32 ↔ bit w 1 = false := by
  simpa using (and_pageWrite w).not

@[simp] theorem and_pageUser_eq_zero (w : Word) : w &&& pageUser = 0#32 ↔ bit w 2 = false := by
  simpa using (and_pageUser w).not

@[simp] theorem and_pageCow_eq_zero (w : Word) : w &&& pageCow = 0#32 ↔ bit w 9 = false := by
  simpa using (and_pageCow w).not

@[simp] theorem bit_pagePresent (k : Nat) :
    bit pagePresent k = decide (k = 0) := bit_twoPow 0 k (by omega)

@[simp] theorem bit_pageWrite (k : Nat) : bit pageWrite k = decide (k = 1) := bit_twoPow 1 k (by omega)

@[simp] theorem bit_pageUser (k : Nat) : bit pageUser k = decide (k = 2) := bit_twoPow 2 k (by omega)

@[simp] theorem bit_pageCow (k : Nat) : bit pageCow k = decide (k = 9) := bit_twoPow 9 k (by omega)

theorem or_pagePresent (h : bit w 0 = true) : w ||| pagePresent = w := or_twoPow_of_bit 0 h

theorem or_pageUser (h : bit w 2 = true) : w ||| pageUser = w := or_twoPow_of_bit 2 h

theorem pageNumber_userEntry (phys flags : Word) (h : flags.toNat < 4096) :
    pageNumber (pageBase phys ||| (flags ||| pagePresent ||| pageUser)) = pageNumber phys :=
  pageNumber_base_or _ _ (or_lt _ _ (or_lt _ _ h (by decide)) (by decide))

theorem dirIndex_eq (v : Word) : dirIndex v = v.toNat / 4194304 := toNat_shiftRight v 22

theorem tableIndex_eq (v : Word) : tableIndex v = v.toNat / 4096 % 1024 := by
  rw [tableIndex, toNat_and_mask _ 10 1023#32 rfl, toNat_shiftRight]
  rfl

theorem tableIndex_lt (v : Word) : tableIndex v < 1024 := by
  rw [tableIndex_eq]
  omega

theorem userSlot_eq_some (v : Word) (t : Nat) :
    userSlot v = some t ↔ 0x400000 ≤ v.toNat ∧ v.toNat < 0x2400000 ∧ t = v.toNat / 4194304 - 1 := by
  unfold userSlot
  rw [dirIndex_eq]
  have h4 : (0x400000 : Word).toNat = 0x400000 := rfl
  have hc : (0xc0000000 : Word).toNat = 0xc0000000 := rfl
  simp only [BitVec.lt_def, BitVec.le_def, h4, hc]
  split
  · simp only [reduceCtorEq, false_iff]
    omega
  · split
    · simp only [reduceCtorEq, false_iff]
      omega
    · simp only [Option.some.injEq]
      omega

theorem userSlot_lt {v : Word} (h : userSlot v = some t) : t < 8 := by
  rw [userSlot_eq_some] at h
  omega

theorem userSlot_entry {j : Nat} (ht : t < 8) (hj : j < 1024) :
    userSlot (BitVec.ofNat 32 ((t + 1) * 0x400000 + j * 4096)) = some t ∧
      tableIndex (BitVec.ofNat 32 ((t + 1) * 0x400000 + j * 4096)) = j := by
  rw [userSlot_eq_some, tableIndex_eq, BitVec.toNat_ofNat]
  omega

theorem physical_ne_zero {s : AddressSpace} {page : Word} (h : vmmGetUserPhysical s page ≠ 0) :
    ∃ t, userSlot page = some t ∧ s.tableUsed t = true ∧
    bit (s.userTables t (tableIndex page)) 0 = true := by
  unfold vmmGetUserPhysical at h
  split at h
  · simp at h
  · rename_i t ht
    split at h
    · rename_i hused
      simp only at h
      split at h
      · simp at h
      · rename_i hflags
        push Not at hflags
        exact ⟨t, ht, hused, (and_pagePresent _).mp hflags.1⟩
    · simp at h

/-! ## Entries of live spaces -/

abbrev Entry := Fin 32 × Fin 8 × Fin 1024

def Vmm.entry (m : Vmm) (x : Entry) : Word := m.pte x.1 x.2.1 x.2.2

def Vmm.maps (m : Vmm) (x : Entry) : Option Nat :=
  if m.spaceUsed x.1 = true ∧ bit (m.entry x) 0 = true then some (pageNumber (m.entry x)) else none

theorem maps_eq_some (m : Vmm) (x : Entry) (f : Nat) :
    m.maps x = some f ↔
      m.spaceUsed x.1 = true ∧ bit (m.entry x) 0 = true ∧ pageNumber (m.entry x) = f := by
  unfold Vmm.maps
  split <;> simp_all

theorem maps_eq_none (m : Vmm) (x : Entry) (hlive : m.spaceUsed x.1 = true) :
    m.maps x = none ↔ bit (m.entry x) 0 = false := by
  unfold Vmm.maps
  split <;> simp_all

theorem maps_congr (hused : m'.spaceUsed x.1 = m.spaceUsed x.1)
    (hent : m'.entry x = m.entry x) : m'.maps x = m.maps x := by
  simp only [Vmm.maps, hused, hent]

def place (i t j : Nat) (hi : i < 32) (ht : t < 8) (hj : j < 1024) : Entry := ⟨⟨i, hi⟩, ⟨t, ht⟩, ⟨j, hj⟩⟩

theorem maps_place (hslot : ∀ i, m.spaceUsed i = true → i < 32) {i j : Nat}
    (hlive : m.spaceUsed i = true) (ht : t < 8) (hj : j < 1024) (hbit : bit (m.pte i t j) 0 = true) :
    m.maps (place i t j (hslot i hlive) ht hj) = some (pageNumber (m.pte i t j)) :=
  (maps_eq_some _ _ _).mpr ⟨hlive, hbit, rfl⟩

@[simp] theorem vmmMap_pmm (m : Vmm) (virt phys flags : Word) :
    (vmmMap m virt phys flags).pmm = m.pmm := by
  unfold vmmMap; split <;> rfl

theorem kernelTables_vmmMap (m : Vmm) (virt phys flags : Word) (di : Nat) :
    (vmmMap m virt phys flags).kernelTables di = none ↔ m.kernelTables di = none := by
  unfold vmmMap
  cases ht : m.kernelTables (dirIndex virt) with
  | none => rfl
  | some table =>
    by_cases hdi : di = dirIndex virt
    · subst hdi
      simp [ht]
    · simp [hdi]

section Updates

variable (m : Vmm) (i t j : Nat) (w : Word)

@[simp] theorem setPte_pmm : (m.setPte i t j w).pmm = m.pmm := rfl
@[simp] theorem setPte_phys : (m.setPte i t j w).phys = m.phys := rfl
@[simp] theorem setPte_kernelTables : (m.setPte i t j w).kernelTables = m.kernelTables := rfl
@[simp] theorem setPte_spaceUsed : (m.setPte i t j w).spaceUsed = m.spaceUsed := rfl
@[simp] theorem setPte_currentSpace : (m.setPte i t j w).currentSpace = m.currentSpace := rfl
@[simp] theorem markTable_pmm : (m.markTable i t).pmm = m.pmm := rfl
@[simp] theorem markTable_phys : (m.markTable i t).phys = m.phys := rfl
@[simp] theorem markTable_kernelTables : (m.markTable i t).kernelTables = m.kernelTables := rfl
@[simp] theorem markTable_spaceUsed : (m.markTable i t).spaceUsed = m.spaceUsed := rfl
@[simp] theorem markTable_currentSpace : (m.markTable i t).currentSpace = m.currentSpace := rfl

theorem setPte_spaces_ne {k : Nat} (h : k ≠ i) : (m.setPte i t j w).spaces k = m.spaces k :=
  update_of_ne h _ _

theorem markTable_spaces_ne {k : Nat} (h : k ≠ i) : (m.markTable i t).spaces k = m.spaces k :=
  update_of_ne h _ _

@[simp] theorem setPte_tableUsed (k u : Nat) :
    ((m.setPte i t j w).spaces k).tableUsed u = (m.spaces k).tableUsed u := by
  by_cases hk : k = i
  · subst hk; simp [Vmm.setPte, Vmm.setSpace]
  · rw [setPte_spaces_ne m i t j w hk]

@[simp] theorem setPte_vmas (k : Nat) : ((m.setPte i t j w).spaces k).vmas = (m.spaces k).vmas := by
  by_cases hk : k = i
  · subst hk; simp [Vmm.setPte, Vmm.setSpace]
  · rw [setPte_spaces_ne m i t j w hk]

theorem markTable_tableUsed (k u : Nat) :
    ((m.markTable i t).spaces k).tableUsed u =
      (decide (k = i ∧ u = t) || (m.spaces k).tableUsed u) := by
  by_cases hk : k = i
  · subst hk
    by_cases hu : u = t
    · subst hu; simp [Vmm.markTable, Vmm.setSpace]
    · simp [Vmm.markTable, Vmm.setSpace, hu]
  · rw [markTable_spaces_ne m i t hk]
    simp [hk]

@[simp] theorem markTable_vmas (k : Nat) : ((m.markTable i t).spaces k).vmas = (m.spaces k).vmas := by
  by_cases hk : k = i
  · subst hk; simp [Vmm.markTable, Vmm.setSpace]
  · rw [markTable_spaces_ne m i t hk]

theorem pte_setPte (k u l : Nat) :
    (m.setPte i t j w).pte k u l = if k = i ∧ u = t ∧ l = j then w else m.pte k u l := by
  unfold Vmm.pte
  by_cases hk : k = i
  · subst hk
    by_cases hu : u = t
    · subst hu
      by_cases hl : l = j
      · subst hl; simp [Vmm.setPte, Vmm.setSpace]
      · simp [Vmm.setPte, Vmm.setSpace, hl]
    · simp [Vmm.setPte, Vmm.setSpace, hu]
  · rw [setPte_spaces_ne m i t j w hk]
    simp [hk]

@[simp] theorem pte_markTable (k u l : Nat) : (m.markTable i t).pte k u l = m.pte k u l := by
  unfold Vmm.pte
  by_cases hk : k = i
  · subst hk; simp [Vmm.markTable, Vmm.setSpace]
  · rw [markTable_spaces_ne m i t hk]

theorem entry_setPte (p : Pmm) (hi : i < 32) (ht : t < 8) (hj : j < 1024) (x : Entry) :
    ({ m with pmm := p }.setPte i t j w).entry x =
      if x = place i t j hi ht hj then w else m.entry x := by
  obtain ⟨k, u, l⟩ := x
  rw [Vmm.entry, pte_setPte]
  simp only [place, Prod.mk.injEq, Fin.ext_iff]
  rfl

end Updates

structure Owned (m : Vmm) : Prop where
  /-- Space slots are array indices. -/
  slot : ∀ i, m.spaceUsed i = true → i < 32
  /-- The allocator counts the entries of each frame. -/
  exact : Exact m.pmm (count m.maps)
  /-- A frame is mapped at one user address only, in however many spaces. -/
  same : ∀ x y f, m.maps x = some f → m.maps y = some f → x.2 = y.2
  /-- A present entry sits in a used table, is a user entry, and is writable or copy-on-write. -/
  flags : ∀ x f, m.maps x = some f → (m.spaces x.1).tableUsed x.2.1 = true ∧
    bit (m.entry x) 2 = true ∧ (bit (m.entry x) 1 = true ∨ bit (m.entry x) 9 = true)
  /-- A writable entry is the only one of its frame. -/
  alone : ∀ x y f, m.maps x = some f → bit (m.entry x) 1 = true → m.maps y = some f → y = x
  /-- The first kernel table, which holds the window, is there. -/
  table : (m.kernelTables 0).isSome = true

theorem Owned.count_le (h : Owned m) (f : Nat) : count m.maps f ≤ 32 := by
  have := count_le_card (fun x y hx hy => h.same x y f hx hy)
  simpa using this

theorem maps_change (hent : ∀ y, m'.entry y = if y = x then w else m.entry y)
    (hused : m'.spaceUsed = m.spaceUsed) (hlive : m.spaceUsed x.1 = true) :
    m'.maps = update m.maps x (if bit w 0 then some (pageNumber w) else none) := by
  funext y
  by_cases hy : y = x
  · subst hy
    simp [Vmm.maps, hent, hused, hlive]
  · rw [update_of_ne hy]
    simp [Vmm.maps, hent, hused, hy]

theorem Owned.change (h : Owned m)
    (hent : ∀ y, m'.entry y = if y = x then w else m.entry y)
    (hused : m'.spaceUsed = m.spaceUsed) (hlive : m.spaceUsed x.1 = true)
    (htab : ∀ i t, (m.spaces i).tableUsed t = true → (m'.spaces i).tableUsed t = true)
    (hker : (m'.kernelTables 0).isSome = true)
    (hexact : Exact m'.pmm (count m'.maps))
    (hw : bit w 0 = true → (m'.spaces x.1).tableUsed x.2.1 = true ∧ bit w 2 = true ∧
      (bit w 1 = true ∨ bit w 9 = true) ∧
      ∀ y, y ≠ x → m.maps y = some (pageNumber w) →
        y.2 = x.2 ∧ bit (m.entry y) 1 = false ∧ bit w 1 = false) : Owned m' := by
  have hmaps := maps_change hent hused hlive
  -- A place of the new state is `x` with the new word, or an old place with its old word.
  have look : ∀ y f, m'.maps y = some f →
      (y = x ∧ bit w 0 = true ∧ pageNumber w = f) ∨ (y ≠ x ∧ m.maps y = some f) := by
    intro y f hy
    rw [hmaps] at hy
    by_cases hyx : y = x
    · subst hyx
      rw [update_self] at hy
      split at hy <;> simp_all
    · rw [update_of_ne hyx] at hy
      exact Or.inr ⟨hyx, hy⟩
  refine ⟨by rw [hused]; exact h.slot, hexact, ?_, ?_, ?_, hker⟩
  · intro y z f hy hz
    rcases look y f hy with ⟨rfl, hw0, hf⟩ | ⟨hyx, hy⟩
    · rcases look z f hz with ⟨rfl, -, -⟩ | ⟨hzx, hz⟩
      · rfl
      · exact ((hw hw0).2.2.2 z hzx (hf ▸ hz)).1.symm
    · rcases look z f hz with ⟨rfl, hw0, hf⟩ | ⟨hzx, hz⟩
      · exact ((hw hw0).2.2.2 y hyx (hf ▸ hy)).1
      · exact h.same y z f hy hz
  · intro y f hy
    rcases look y f hy with ⟨rfl, hw0, hf⟩ | ⟨hyx, hy⟩
    · obtain ⟨h1, h2, h3, -⟩ := hw hw0
      rw [hent, if_pos rfl]
      exact ⟨h1, h2, h3⟩
    · obtain ⟨h1, h2, h3⟩ := h.flags y f hy
      rw [hent, if_neg hyx]
      exact ⟨htab _ _ h1, h2, h3⟩
  · intro y z f hy hwr hz
    rw [hent] at hwr
    rcases look y f hy with ⟨rfl, hw0, hf⟩ | ⟨hyx, hy⟩
    · rcases look z f hz with ⟨rfl, -, -⟩ | ⟨hzx, hz⟩
      · rfl
      · have := ((hw hw0).2.2.2 z hzx (hf ▸ hz)).2.2
        simp [this] at hwr
    · rw [if_neg hyx] at hwr
      rcases look z f hz with ⟨rfl, hw0, hf⟩ | ⟨hzx, hz⟩
      · have := ((hw hw0).2.2.2 y hyx (hf ▸ hy)).2.1
        simp [this] at hwr
      · exact h.alone y z f hy hwr hz

end Ceblar
