import Ceblar.Mm.Ownership

/-! # Copy on write

`vmm_clone_address_space_cow` shares every page read-only between the two spaces, and the fault on a
shared page gives the writer a copy of its own.
-/

namespace Ceblar

open Function

variable {m m' : Vmm} {d j s t : Nat} {a error page : Word}

/-! ## Shared entries -/

def cowEntry (w : Word) : Word := pageBase w ||| (((w &&& 0xfff) ||| pageCow) &&& ~~~pageWrite)

theorem cowFlags_lt (w : Word) : (((w &&& 0xfff) ||| pageCow) &&& ~~~pageWrite).toNat < 4096 := by
  have hlow : ((w &&& 0xfff) ||| pageCow).toNat < 4096 := or_lt _ _ (offset_lt w) (by decide)
  rw [BitVec.toNat_and]
  exact lt_of_le_of_lt Nat.and_le_left hlow

@[simp] theorem pageNumber_cowEntry (w : Word) : pageNumber (cowEntry w) = pageNumber w :=
  pageNumber_base_or w _ (cowFlags_lt w)

theorem bit_cowEntry (w : Word) (k : Nat) (hk : k < 12) :
    bit (cowEntry w) k = ((bit w k || decide (k = 9)) && !decide (k = 1)) := by
  simp only [cowEntry, BitVec.ofNat_eq_ofNat, bit_or, bit_pageBase, bit_and, bit_mask, bit_not,
    bit_pageCow, bit_pageWrite, show ¬ 12 ≤ k by omega, hk, show k < 32 by omega, decide_true,
    decide_false, Bool.true_and, Bool.and_true, Bool.false_and, Bool.false_or]

theorem userEntry_eq_cowEntry (w : Word) (h0 : bit w 0 = true) (h2 : bit w 2 = true) :
    pageBase (pageBase w) |||
      (((w &&& 0xfff) ||| pageCow) &&& ~~~pageWrite ||| pagePresent ||| pageUser) = cowEntry w := by
  have hp : bit (((w &&& 0xfff) ||| pageCow) &&& ~~~pageWrite) 0 = true := by
    simp [bit_not, h0]
  have hu : bit (((w &&& 0xfff) ||| pageCow) &&& ~~~pageWrite) 2 = true := by
    simp [bit_not, h2]
  rw [pageBase_pageBase, or_pagePresent hp, or_pageUser hu]
  rfl

theorem Owned.protect (h : Owned m) {i : Nat} (hlive : m.spaceUsed i = true)
    (ht : t < 8) (hj : j < 1024) (hbit : bit (m.pte i t j) 0 = true) :
    Owned (m.setPte i t j (cowEntry (m.pte i t j))) := by
  have hx := maps_place h.slot hlive ht hj hbit
  have hent := entry_setPte m i t j (cowEntry (m.pte i t j)) m.pmm (h.slot i hlive) ht hj
  refine h.change hent rfl hlive (fun k u hk => by rw [setPte_tableUsed]; exact hk) h.table ?_ ?_
  · rw [maps_change hent rfl hlive, bit_cowEntry _ 0 (by omega), hbit, pageNumber_cowEntry]
    have hsame : update m.maps (place i t j (h.slot i hlive) ht hj)
        (some (pageNumber (m.pte i t j))) = m.maps := by
      rw [← hx]
      exact update_eq_self _ _
    simpa [hsame] using h.exact
  · intro _
    obtain ⟨htab, huser, -⟩ : (m.spaces i).tableUsed t = true ∧ bit (m.pte i t j) 2 = true ∧ _ :=
      h.flags _ _ hx
    refine ⟨by rw [setPte_tableUsed]; exact htab, by simp [bit_cowEntry, huser],
      by simp [bit_cowEntry], fun y hne hy => ?_⟩
    rw [pageNumber_cowEntry] at hy
    refine ⟨h.same y _ _ hy hx, ?_, by simp [bit_cowEntry]⟩
    by_contra hwr
    exact hne (h.alone y _ _ hy (by simpa using hwr) hx).symm

theorem Owned.share (h : Owned m) (hs : m.spaceUsed s = true)
    (hd : m.spaceUsed d = true) (ht : t < 8) (hj : j < 1024) {w : Word} (hw : m.pte s t j = w)
    (ha : pageNumber a = pageNumber w) (hbit : bit w 0 = true) (hro : bit w 1 = false)
    (hnone : bit (m.pte d t j) 0 = false) :
    Owned ({ m.markTable d t with pmm := pmmRetainPage m.pmm a }.setPte d t j w) := by
  subst hw
  let x := place s t j (h.slot s hs) ht hj
  let y := place d t j (h.slot d hd) ht hj
  have hx : m.maps x = some (pageNumber (m.pte s t j)) := maps_place h.slot hs ht hj hbit
  have hy : m.maps y = none := (maps_eq_none m y hd).mpr hnone
  have hent : ∀ z, ({ m.markTable d t with pmm := pmmRetainPage m.pmm a }.setPte d t j
      (m.pte s t j)).entry z = if z = y then m.pte s t j else m.entry z := by
    intro z
    refine (entry_setPte (m.markTable d t) d t j _ _ (h.slot d hd) ht hj z).trans ?_
    split
    · rfl
    · exact pte_markTable m d t _ _ _
  have hpos := (count_pos m.maps _).mpr ⟨_, hx⟩
  have hroom := h.count_le (pageNumber (m.pte s t j))
  refine h.change hent rfl hd ?_ h.table ?_ ?_
  · intro k u hk
    rw [setPte_tableUsed, markTable_tableUsed]
    simp [hk]
  · rw [maps_change hent rfl hd, if_pos hbit, count_take hy, ← ha]
    rw [← ha] at hpos hroom
    exact h.exact.retain hpos (by omega)
  · intro _
    obtain ⟨-, huser, hcow⟩ : _ ∧ bit (m.pte s t j) 2 = true ∧
        (bit (m.pte s t j) 1 = true ∨ bit (m.pte s t j) 9 = true) := h.flags _ _ hx
    refine ⟨?_, huser, hcow, fun z _ hz => ⟨h.same z x _ hz hx, ?_, hro⟩⟩
    · rw [setPte_tableUsed, markTable_tableUsed]
      simp [y, place]
    · -- A writable entry of the frame would be the source's own, which is read-only.
      by_contra hwr
      have hxz := h.alone z x _ hz (by simpa using hwr) hx
      rw [← hxz] at hwr
      exact hwr hro

def shareEntry (s d t j : Nat) (m : Vmm) : Vmm :=
  { (m.setPte s t j (cowEntry (m.pte s t j))).markTable d t with
    pmm := pmmRetainPage m.pmm (pageBase (m.pte s t j)) }.setPte d t j (cowEntry (m.pte s t j))

theorem pte_shareEntry (s d t j : Nat) (m : Vmm) (k u l : Nat) :
    (shareEntry s d t j m).pte k u l =
      if (k = s ∨ k = d) ∧ u = t ∧ l = j then cowEntry (m.pte s t j) else m.pte k u l := by
  have hmark : ∀ p : Pmm,
      ({ (m.setPte s t j (cowEntry (m.pte s t j))).markTable d t with pmm := p }).pte k u l =
      (m.setPte s t j (cowEntry (m.pte s t j))).pte k u l := fun p => pte_markTable _ d t k u l
  rw [shareEntry, pte_setPte, hmark, pte_setPte, ← ite_or]
  exact if_congr (by tauto) rfl rfl

theorem Owned.shareEntry (h : Owned m) (hs : m.spaceUsed s = true)
    (hd : m.spaceUsed d = true) (hne : s ≠ d) (ht : t < 8) (hj : j < 1024)
    (hbit : bit (m.pte s t j) 0 = true) (hnone : bit (m.pte d t j) 0 = false) :
    Owned (shareEntry s d t j m) := by
  refine (h.protect hs ht hj hbit).share (s := s) hs hd ht hj ?_ (by simp) ?_ ?_ ?_
  · rw [pte_setPte, if_pos ⟨rfl, rfl, rfl⟩]
  · simp [bit_cowEntry, hbit]
  · simp [bit_cowEntry]
  · rw [pte_setPte, if_neg (by tauto)]
    exact hnone

theorem vmmMapUser_entry (m : Vmm) (d : Nat) (ht : t < 8) (hj : j < 1024) (phys flags : Word) :
    vmmMapUser m d (BitVec.ofNat 32 ((t + 1) * 0x400000 + j * 4096)) phys flags =
      some ((m.markTable d t).setPte d t j (pageBase phys ||| (flags ||| pagePresent ||| pageUser))) := by
  obtain ⟨hslot, hindex⟩ := userSlot_entry ht hj
  rw [vmmMapUser, hslot, hindex]
  rfl

theorem cloneCowEntry_eq (s d : Nat) (ht : t < 8) (hj : j < 1024)
    (hbit : bit (m.pte s t j) 0 = true) (huser : bit (m.pte s t j) 2 = true) :
    cloneCowEntry s d t j m = .ok (shareEntry s d t j m) := by
  unfold cloneCowEntry
  extract_lets pte va flags m1
  have hword : pageBase (pageBase pte) ||| (flags ||| pagePresent ||| pageUser) = cowEntry pte :=
    userEntry_eq_cowEntry pte hbit huser
  have hmap : vmmMapUser m1 d va (pageBase pte) flags =
      some ((m1.markTable d t).setPte d t j (cowEntry pte)) := by
    rw [← hword]
    exact vmmMapUser_entry m1 d ht hj (pageBase pte) flags
  rw [if_neg ((and_pagePresent pte).mpr hbit), hmap]
  rfl

/-! ## The clone loop -/

/-- The state of the clone loop at entry `(t, j)`, begun in `m₀`: the entries before it are
shared, the others are still as they were. -/
structure Cloned (m₀ : Vmm) (s d t j : Nat) (m : Vmm) : Prop where
  owned : Owned m
  spaces : ∀ k, k ≠ s → k ≠ d → m.spaces k = m₀.spaces k
  tableUsed : (m.spaces s).tableUsed = (m₀.spaces s).tableUsed
  vmas : ∀ k, (m.spaces k).vmas = (m₀.spaces k).vmas
  phys : m.phys = m₀.phys
  spaceUsed : m.spaceUsed = m₀.spaceUsed
  source : ∀ u l, u < 8 → l < 1024 → m.pte s u l =
    if (u < t ∨ u = t ∧ l < j) ∧ bit (m₀.pte s u l) 0 = true then cowEntry (m₀.pte s u l)
    else m₀.pte s u l
  dest : ∀ u l, u < 8 → l < 1024 → m.pte d u l =
    if (u < t ∨ u = t ∧ l < j) ∧ bit (m₀.pte s u l) 0 = true then cowEntry (m₀.pte s u l) else 0

section CloneLoop

variable {m₀ m : Vmm} {s d t j : Nat}

theorem Cloned.skip (h : Cloned m₀ s d t j m) {t' j' : Nat}
    (hskip : ∀ u l, u < 8 → l < 1024 → bit (m₀.pte s u l) 0 = true →
      ((u < t ∨ u = t ∧ l < j) ↔ (u < t' ∨ u = t' ∧ l < j'))) : Cloned m₀ s d t' j' m := by
  refine { h with source := fun u l hu hl => ?_, dest := fun u l hu hl => ?_ }
  · rw [h.source u l hu hl]
    exact if_congr (and_congr_left (hskip u l hu hl)) rfl rfl
  · rw [h.dest u l hu hl]
    exact if_congr (and_congr_left (hskip u l hu hl)) rfl rfl

theorem Cloned.pte_source (h : Cloned m₀ s d t j m) (ht : t < 8) (hj : j < 1024) :
    m.pte s t j = m₀.pte s t j := by
  rw [h.source t j ht hj, if_neg (by omega)]

theorem cloneCowEntry_absent (h : Cloned m₀ s d t j m) (ht : t < 8) (hj : j < 1024)
    (hbit : bit (m₀.pte s t j) 0 = false) :
    cloneCowEntry s d t j m = .ok m ∧ Cloned m₀ s d t (j + 1) m := by
  constructor
  · simp [cloneCowEntry, h.pte_source ht hj, hbit]
  · refine h.skip fun u l _ _ hp => ?_
    by_cases hlast : u = t ∧ l = j
    · rw [hlast.1, hlast.2, hbit] at hp
      simp at hp
    · omega

theorem cloneCowEntry_present (h : Cloned m₀ s d t j m) (hs : m₀.spaceUsed s = true)
    (hd : m₀.spaceUsed d = true) (hne : s ≠ d) (ht : t < 8) (hj : j < 1024)
    (hbit : bit (m₀.pte s t j) 0 = true) :
    ∃ m', cloneCowEntry s d t j m = .ok m' ∧ Cloned m₀ s d t (j + 1) m' := by
  have hpte := h.pte_source ht hj
  have hnone : bit (m.pte d t j) 0 = false := by
    rw [h.dest t j ht hj, if_neg (by omega)]
    simp
  have hs' : m.spaceUsed s = true := by rw [h.spaceUsed]; exact hs
  have hd' : m.spaceUsed d = true := by rw [h.spaceUsed]; exact hd
  rw [← hpte] at hbit
  have huser : bit (m.pte s t j) 2 = true :=
    (h.owned.flags _ _ (maps_place h.owned.slot hs' ht hj hbit)).2.1
  -- In both spaces the entry at `(t, j)` is the only one that changes.
  have hlater : ∀ u l, u < 8 → l < 1024 → ∀ (k : Nat) (v : Word), k = s ∨ k = d →
      (m.pte k u l = if (u < t ∨ u = t ∧ l < j) ∧ bit (m₀.pte s u l) 0 = true
        then cowEntry (m₀.pte s u l) else v) →
      (shareEntry s d t j m).pte k u l = if (u < t ∨ u = t ∧ l < j + 1) ∧ bit (m₀.pte s u l) 0 = true
        then cowEntry (m₀.pte s u l) else v := by
    intro u l hu hl k v hk hold
    rw [pte_shareEntry, hpte]
    by_cases hlast : u = t ∧ l = j
    · rw [if_pos ⟨hk, hlast⟩, if_pos ⟨by omega, by rw [hlast.1, hlast.2, ← hpte]; exact hbit⟩,
        hlast.1, hlast.2]
    · rw [if_neg (by tauto), hold]
      exact if_congr (and_congr_left' (by omega)) rfl rfl
  refine ⟨_, cloneCowEntry_eq s d ht hj hbit huser, h.owned.shareEntry hs' hd' hne ht hj hbit hnone,
    ?_, ?_, ?_, h.phys, h.spaceUsed, ?_, ?_⟩
  · intro k hks hkd
    rw [shareEntry, setPte_spaces_ne _ _ _ _ _ hkd]
    refine (markTable_spaces_ne _ _ _ hkd).trans ?_
    rw [setPte_spaces_ne _ _ _ _ _ hks]
    exact h.spaces k hks hkd
  · rw [← h.tableUsed, shareEntry, setPte_spaces_ne _ _ _ _ _ hne]
    refine (congrArg _ (markTable_spaces_ne _ _ _ hne)).trans ?_
    funext u
    simp
  · intro k
    rw [← h.vmas k, shareEntry, setPte_vmas]
    refine (markTable_vmas _ d t k).trans ?_
    simp
  · exact fun u l hu hl => hlater u l hu hl s _ (Or.inl rfl) (h.source u l hu hl)
  · exact fun u l hu hl => hlater u l hu hl d _ (Or.inr rfl) (h.dest u l hu hl)

theorem cloneCowEntry_cloned (h : Cloned m₀ s d t j m) (hs : m₀.spaceUsed s = true)
    (hd : m₀.spaceUsed d = true) (hne : s ≠ d) (ht : t < 8) (hj : j < 1024) :
    ∃ m', cloneCowEntry s d t j m = .ok m' ∧ Cloned m₀ s d t (j + 1) m' := by
  cases hbit : bit (m₀.pte s t j) 0 with
  | true => exact cloneCowEntry_present h hs hd hne ht hj hbit
  | false => exact ⟨m, cloneCowEntry_absent h ht hj hbit⟩

theorem cloneCowTables_cloned (h₀ : Owned m₀) (hs : m₀.spaceUsed s = true) (hd : m₀.spaceUsed d = true)
    (hne : s ≠ d) (hzero : ∀ u l, m₀.pte d u l = 0) :
    ∃ m', cloneCowTables s d m₀ = .ok m' ∧ Cloned m₀ s d 8 0 m' := by
  have hbegin : Cloned m₀ s d 0 0 m₀ :=
    ⟨h₀, fun _ _ _ => rfl, rfl, fun _ => rfl, rfl, rfl, fun u l _ _ => by rw [if_neg (by omega)],
      fun u l _ _ => by rw [if_neg (by omega), hzero]⟩
  refine forRangeE_inv (fun t m => Cloned m₀ s d t 0 m) 8 hbegin fun t ht m h => ?_
  split
  · obtain ⟨m', hrun, hm'⟩ := forRangeE_inv (fun j m => Cloned m₀ s d t j m) 1024 h
      fun j hj m h => cloneCowEntry_cloned h hs hd hne ht hj
    exact ⟨m', hrun, hm'.skip fun u l _ hl _ => by omega⟩
  · rename_i hunused
    refine ⟨m, rfl, h.skip fun u l hu hl hp => ?_⟩
    -- A table that is not in use holds no present entry.
    have hut : u ≠ t := by
      rintro rfl
      rw [h.tableUsed] at hunused
      exact hunused (h₀.flags _ _ (maps_place h₀.slot hs hu hl hp)).1
    omega

end CloneLoop

theorem vmmCloneAddressSpaceCow_cloned {m1 : Vmm} (h : Owned m) (hs : m.spaceUsed s = true)
    (hcreate : vmmCreateAddressSpace m = some (d, m1)) :
    ∃ m', vmmCloneAddressSpaceCow m s = (some d, m') ∧
      Cloned (m1.setSpace d { m1.spaces d with vmas := (m1.spaces s).vmas }) s d 8 0 m' := by
  have hd := vmmCreateAddressSpace_spec hcreate
  have hsd := hd.ne hs
  simp only [vmmCloneAddressSpaceCow, hcreate]
  generalize hm2 : m1.setSpace d { m1.spaces d with vmas := (m1.spaces s).vmas } = m2
  have h2 : Owned m2 := hm2 ▸ (h.create hcreate).setVmas d _ rfl rfl
  have hused2 : m2.spaceUsed = update m.spaceUsed d true := by
    rw [← hm2]
    exact hd.used
  have hzero2 : ∀ u l, m2.pte d u l = 0 := by
    intro u l
    rw [← hd.zero u l, ← hm2]
    simp [Vmm.pte, Vmm.setSpace]
  obtain ⟨m', hloop, h'⟩ := cloneCowTables_cloned h2 (s := s) (d := d)
    (by rw [hused2, update_of_ne hsd]; exact hs) (by simp [hused2]) hsd hzero2
  exact ⟨m', by rw [hloop], h'⟩

/-- What a clone does: the new space maps what the source maps, and both map it read-only. -/
theorem vmmCloneAddressSpaceCow_spec (h : Owned m) (hs : m.spaceUsed s = true)
    (hc : vmmCloneAddressSpaceCow m s = (some d, m')) :
    Owned m' ∧ m.spaceUsed d = false ∧ m'.spaceUsed = update m.spaceUsed d true ∧
      m'.phys = m.phys ∧ (∀ k, k ≠ s → k ≠ d → m'.spaces k = m.spaces k) ∧
      (∀ t j, t < 8 → j < 1024 → m'.pte s t j =
        if bit (m.pte s t j) 0 = true then cowEntry (m.pte s t j) else m.pte s t j) ∧
      (∀ t j, t < 8 → j < 1024 → m'.pte d t j =
        if bit (m.pte s t j) 0 = true then cowEntry (m.pte s t j) else 0) := by
  cases hcreate : vmmCreateAddressSpace m with
  | none => simp [vmmCloneAddressSpaceCow, hcreate] at hc
  | some r =>
    obtain ⟨d', m1⟩ := r
    obtain ⟨m3, hrun, h3⟩ := vmmCloneAddressSpaceCow_cloned h hs hcreate
    rw [hrun, Prod.mk.injEq, Option.some.injEq] at hc
    obtain ⟨rfl, rfl⟩ := hc
    have hd := vmmCreateAddressSpace_spec hcreate
    have hstart := onlySpace_setSpace m1 d' { m1.spaces d' with vmas := (m1.spaces s).vmas }
    have hsd := hd.ne hs
    have hpte : ∀ u l, (m1.setSpace d' { m1.spaces d' with vmas := (m1.spaces s).vmas }).pte s u l =
        m.pte s u l := fun u l =>
      congrArg (fun sp : AddressSpace => sp.userTables u l)
        ((hstart.spaces s hsd).trans (hd.spaces s hsd))
    refine ⟨h3.owned, hd.free, h3.spaceUsed.trans (hstart.spaceUsed.trans hd.used),
      h3.phys.trans (hstart.phys.trans hd.phys), ?_, ?_, ?_⟩
    · exact fun k hks hkd => (h3.spaces k hks hkd).trans ((hstart.spaces k hkd).trans (hd.spaces k hkd))
    · intro t j ht hj
      rw [h3.source t j ht hj, hpte]
      exact if_congr (by simp [ht]) rfl rfl
    · intro t j ht hj
      rw [h3.dest t j ht hj, hpte]
      exact if_congr (by simp [ht]) rfl rfl

theorem vmmCloneAddressSpaceCow_none (h : Owned m) (hs : m.spaceUsed s = true)
    (hc : vmmCloneAddressSpaceCow m s = (none, m')) : m' = m := by
  cases hcreate : vmmCreateAddressSpace m with
  | none =>
    simp only [vmmCloneAddressSpaceCow, hcreate, Prod.mk.injEq, true_and] at hc
    exact hc.symm
  | some r =>
    obtain ⟨m3, hrun, -⟩ := vmmCloneAddressSpaceCow_cloned h hs hcreate
    rw [hrun] at hc
    simp at hc

section Window

variable (m : Vmm) (virt phys flags : Word)

@[simp] theorem vmmMap_phys : (vmmMap m virt phys flags).phys = m.phys := by
  unfold vmmMap; split <;> rfl

@[simp] theorem vmmMap_spaces : (vmmMap m virt phys flags).spaces = m.spaces := by
  unfold vmmMap; split <;> rfl

@[simp] theorem vmmMap_spaceUsed : (vmmMap m virt phys flags).spaceUsed = m.spaceUsed := by
  unfold vmmMap; split <;> rfl

@[simp] theorem vmmMap_currentSpace : (vmmMap m virt phys flags).currentSpace = m.currentSpace := by
  unfold vmmMap; split <;> rfl

@[simp] theorem vmmMap_copyPage : (vmmMap m virt phys flags).copyPage = m.copyPage := by
  unfold vmmMap; split <;> rfl

end Window

theorem kernelFrame_window (h : (m.kernelTables 0).isSome = true) (phys flags : Word)
    (hflags : flags.toNat < 4096) :
    (vmmMap m window phys flags).kernelFrame window = some (pageNumber phys) ∧
      ((vmmMap m window phys flags).kernelTables 0).isSome = true := by
  have hdir : dirIndex window = 0 := by decide
  obtain ⟨table, htable⟩ := Option.isSome_iff_exists.mp h
  have hword : pageNumber (pageBase phys ||| (flags ||| pagePresent)) = pageNumber phys :=
    pageNumber_base_or _ _ (or_lt _ _ hflags (by decide))
  simp [vmmMap, Vmm.kernelFrame, hdir, htable, hword]

theorem table_of_window (h : (m.kernelFrame window).isSome = true) :
    (m.kernelTables 0).isSome = true := by
  have hdir : dirIndex window = 0 := by decide
  cases ht : m.kernelTables 0 with
  | none => simp [Vmm.kernelFrame, hdir, ht] at h
  | some table => rfl

/-! ## The fault on a shared page -/

theorem pageNumber_copyEntry (a : Word) :
    pageNumber (a ||| pagePresent ||| pageUser ||| pageWrite) = pageNumber a := by
  simp only [pageNumber_or]
  rw [show pageNumber pagePresent = 0 by decide, show pageNumber pageUser = 0 by decide,
    show pageNumber pageWrite = 0 by decide]
  simp

def faultEntry (m : Vmm) (s : Nat) (page : Word) : Word := m.pte s (dirIndex page - 1) (tableIndex page)

structure Copied (m : Vmm) (s : Nat) (page a : Word) (p : Pmm) (m' : Vmm) : Prop where
  alloc : pmmAllocPage m.pmm = some (a, p)
  pmm : m'.pmm = pmmFreePage p (pageBase (faultEntry m s page))
  phys : m'.phys = update m.phys (pageNumber a) (m.phys (pageNumber (faultEntry m s page)))
  spaces : m'.spaces = (m.setPte s (dirIndex page - 1) (tableIndex page)
    (a ||| pagePresent ||| pageUser ||| pageWrite)).spaces
  spaceUsed : m'.spaceUsed = m.spaceUsed
  currentSpace : m'.currentSpace = m.currentSpace
  window : (m'.kernelFrame window).isSome = true

def CowGuard (m : Vmm) (s : Nat) (error page : Word) : Prop :=
  error &&& 2 ≠ 0 ∧ error &&& 4 ≠ 0 ∧ (m.spaces s).tableUsed (dirIndex page - 1) = true ∧
    faultEntry m s page &&& pageCow ≠ 0 ∧ faultEntry m s page &&& pagePresent ≠ 0

theorem cowFault_copied (h : (m.kernelTables 0).isSome = true)
    {p : Pmm} (hguard : CowGuard m s error page) (ha : pmmAllocPage m.pmm = some (a, p)) :
    ∃ m', cowFault m s error page = .ok m' ∧ Copied m s page a p m' := by
  let m1 := vmmMap { m with pmm := p } window (pageBase (faultEntry m s page)) 0
  obtain ⟨hold, h1⟩ := kernelFrame_window (m := { m with pmm := p }) h
    (pageBase (faultEntry m s page)) 0 (by decide)
  let m2 := { m1 with copyPage := m1.phys (pageNumber (pageBase (faultEntry m s page))) }
  obtain ⟨hnew, h3⟩ := kernelFrame_window (m := m2) h1 a pageWrite (by decide)
  let m3 := vmmMap m2 window a pageWrite
  let m4 := { m3 with phys := update m3.phys (pageNumber a) m3.copyPage }
  obtain ⟨hlast, -⟩ := kernelFrame_window (m := m4) h3 window pageWrite (by decide)
  have hload : m1.loadWindow = .ok m2 := by
    rw [Vmm.loadWindow, hold]
  have hstore : m3.storeWindow m3.copyPage = .ok m4 := by
    rw [Vmm.storeWindow, hnew]
  refine ⟨{ (vmmMap m4 window window pageWrite).setPte s (dirIndex page - 1) (tableIndex page)
      (a ||| pagePresent ||| pageUser ||| pageWrite) with
      pmm := pmmFreePage (vmmMap m4 window window pageWrite).pmm (pageBase (faultEntry m s page)) },
      ?_, ?_⟩
  · unfold cowFault
    dsimp only
    split <;> rename_i hg
    · simp only [ha]
      change (m1.loadWindow >>= _) = _
      rw [hload]
      change (m3.storeWindow m3.copyPage >>= _) = _
      rw [hstore]
      rfl
    · exact absurd hguard hg
  · refine ⟨ha, ?_, ?_, ?_, ?_, ?_, ?_⟩
    · simp [m4, m3, m2, m1]
    · simp [m4, m3, m2, m1]
    · simp [Vmm.setPte, Vmm.setSpace, m4, m3, m2, m1]
    · simp [m4, m3, m2, m1]
    · simp [m4, m3, m2, m1]
    · change ((vmmMap m4 window window pageWrite).kernelFrame window).isSome = true
      rw [hlast]
      rfl

theorem cowFault_no_frame (hguard : CowGuard m s error page)
    (ha : pmmAllocPage m.pmm = none) : cowFault m s error page = .error .outOfMemoryCow := by
  unfold cowFault
  dsimp only
  split <;> rename_i hg
  · simp only [ha]
  · exact absurd hguard hg

theorem cowFault_inv (hf : cowFault m s error page = .ok m') :
    CowGuard m s error page ∧ ∃ a p, Copied m s page a p m' := by
  have hguard : CowGuard m s error page := by
    by_contra hn
    unfold cowFault at hf
    dsimp only at hf
    split at hf <;> rename_i hg
    · exact hn hg
    · simp at hf
  refine ⟨hguard, ?_⟩
  cases ha : pmmAllocPage m.pmm with
  | none =>
    rw [cowFault_no_frame hguard ha] at hf
    simp at hf
  | some r =>
    -- Without the first kernel table the window could not have been read.
    have h : (m.kernelTables 0).isSome = true := by
      by_contra hn
      rw [Bool.not_eq_true, Option.isSome_eq_false_iff, Option.isNone_iff_eq_none] at hn
      have hdir : dirIndex window = 0 := by decide
      unfold cowFault at hf
      simp only [ha, vmmMap, Vmm.loadWindow, Vmm.kernelFrame, hdir, hn] at hf
      split at hf <;> simp [bind, Except.bind] at hf
    obtain ⟨m'', hrun, hcopied⟩ := cowFault_copied h hguard ha
    rw [hrun, Except.ok.injEq] at hf
    exact ⟨r.1, r.2, hf ▸ hcopied⟩

theorem Owned.copied (h : Owned m) {p : Pmm} (hlive : m.spaceUsed s = true)
    (ht : dirIndex page - 1 < 8) (htab : (m.spaces s).tableUsed (dirIndex page - 1) = true)
    (hbit : bit (faultEntry m s page) 0 = true) (hc : Copied m s page a p m') : Owned m' := by
  have hx : m.maps
      (place s (dirIndex page - 1) (tableIndex page) (h.slot s hlive) ht (tableIndex_lt page)) =
      some (pageNumber (faultEntry m s page)) := maps_place h.slot hlive ht (tableIndex_lt page) hbit
  obtain ⟨hfresh, hexact⟩ := h.exact.alloc hc.alloc
  have hent : ∀ y, m'.entry y =
      if y = place s (dirIndex page - 1) (tableIndex page) (h.slot s hlive) ht (tableIndex_lt page)
      then a ||| pagePresent ||| pageUser ||| pageWrite else m.entry y := by
    intro y
    rw [← entry_setPte m s _ _ _ m.pmm (h.slot s hlive) ht (tableIndex_lt page) y]
    simp only [Vmm.entry, Vmm.pte, hc.spaces]
  have hne : pageNumber (faultEntry m s page) ≠ pageNumber a := by
    intro heq
    rw [heq] at hx
    exact (count_eq_zero _ _).mp hfresh _ hx
  refine h.change hent hc.spaceUsed hlive ?_ (table_of_window hc.window) ?_ ?_
  · intro k u hk
    rw [hc.spaces, setPte_tableUsed]
    exact hk
  · rw [maps_change hent hc.spaceUsed hlive, hc.pmm, pageNumber_copyEntry]
    simp only [bit_or, bit_pagePresent, decide_true, Bool.or_true, Bool.true_or, if_true]
    rw [count_move hx hfresh]
    have hfree := hexact.free (a := pageBase (faultEntry m s page)) (by
      rw [pageNumber_pageBase, update_of_ne hne]
      exact (count_pos _ _).mpr ⟨_, hx⟩)
    rwa [pageNumber_pageBase, update_of_ne hne] at hfree
  · intro _
    refine ⟨by rw [hc.spaces, setPte_tableUsed]; exact htab, by simp, by simp, fun y _ hy => ?_⟩
    rw [pageNumber_copyEntry] at hy
    exact absurd hy ((count_eq_zero _ _).mp hfresh y)

end Ceblar
