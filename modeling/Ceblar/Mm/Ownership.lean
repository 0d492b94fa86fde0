import Ceblar.Mm.Entries

/-! # Every frame is counted by the entries that map it

Each operation on address spaces keeps `Owned`, so after any run of them the allocator's
count of a mapped frame is the number of its entries, and a frame whose last entry has gone
is free again.
-/

namespace Ceblar

open Function

variable {d i t : Nat} {m m' : Vmm} {a flags virt : Word}
variable {m'' : Vmm} {b base pages phys : Word} {p : Pmm} {k : Nat}

/-! ## What an operation leaves alone -/

structure OnlySpace (i : Nat) (m m' : Vmm) : Prop where
  spaces : ∀ k, k ≠ i → m'.spaces k = m.spaces k
  phys : m'.phys = m.phys
  kernelTables : m'.kernelTables = m.kernelTables
  spaceUsed : m'.spaceUsed = m.spaceUsed
  currentSpace : m'.currentSpace = m.currentSpace

structure OnlyTables (i : Nat) (m m' : Vmm) : Prop extends OnlySpace i m m' where
  vmas : (m'.spaces i).vmas = (m.spaces i).vmas
  refs : (m'.spaces i).refs = (m.spaces i).refs

theorem OnlySpace.refl (i : Nat) (m : Vmm) : OnlySpace i m m := ⟨fun _ _ => rfl, rfl, rfl, rfl, rfl⟩

theorem OnlySpace.trans (h : OnlySpace i m m') (h' : OnlySpace i m' m'') :
    OnlySpace i m m'' where
  spaces k hk := (h'.spaces k hk).trans (h.spaces k hk)
  phys := h'.phys.trans h.phys
  kernelTables := h'.kernelTables.trans h.kernelTables
  spaceUsed := h'.spaceUsed.trans h.spaceUsed
  currentSpace := h'.currentSpace.trans h.currentSpace

theorem OnlyTables.refl (i : Nat) (m : Vmm) : OnlyTables i m m := ⟨.refl i m, rfl, rfl⟩

theorem OnlyTables.trans (h : OnlyTables i m m') (h' : OnlyTables i m' m'') :
    OnlyTables i m m'' :=
  ⟨h.toOnlySpace.trans h'.toOnlySpace, h'.vmas.trans h.vmas, h'.refs.trans h.refs⟩

theorem onlySpace_setSpace (m : Vmm) (i : Nat) (s : AddressSpace) : OnlySpace i m (m.setSpace i s) :=
  ⟨fun _ hk => update_of_ne hk _ _, rfl, rfl, rfl, rfl⟩

theorem onlyTables_setPte (m : Vmm) (p : Pmm) (i t j : Nat) (w : Word) :
    OnlyTables i m ({ m with pmm := p }.setPte i t j w) where
  toOnlySpace := ⟨fun _ hk => setPte_spaces_ne _ i t j w hk, rfl, rfl, rfl, rfl⟩
  vmas := by simp
  refs := by simp [Vmm.setPte, Vmm.setSpace]

theorem onlyTables_markTable (m : Vmm) (i t : Nat) : OnlyTables i m (m.markTable i t) where
  toOnlySpace := ⟨fun _ hk => markTable_spaces_ne _ i t hk, rfl, rfl, rfl, rfl⟩
  vmas := by simp
  refs := by simp [Vmm.markTable, Vmm.setSpace]

theorem onlyTables_pmm (m : Vmm) (i : Nat) (p : Pmm) : OnlyTables i m { m with pmm := p } :=
  ⟨⟨fun _ _ => rfl, rfl, rfl, rfl, rfl⟩, rfl, rfl⟩

theorem onlyTables_mapUser (h : vmmMapUser m i virt phys flags = some m') : OnlyTables i m m' := by
  simp only [vmmMapUser, Option.map_eq_some_iff] at h
  obtain ⟨t, -, rfl⟩ := h
  exact (onlyTables_markTable m i t).trans (onlyTables_setPte _ _ i t _ _)

theorem onlyTables_unmapUser (h : vmmUnmapUser m i virt = some m') : OnlyTables i m m' := by
  unfold vmmUnmapUser at h
  split at h
  · simp at h
  · split at h
    · simp only at h
      split at h
      · simp at h
      · cases h
        exact onlyTables_setPte m _ i _ _ 0
    · simp at h

theorem Owned.congr (h : Owned m) (hslot : ∀ i, m'.spaceUsed i = true → i < 32)
    (hpmm : m'.pmm = m.pmm) (hmaps : m'.maps = m.maps)
    (hent : ∀ x f, m.maps x = some f → m'.entry x = m.entry x ∧
      (m'.spaces x.1).tableUsed x.2.1 = (m.spaces x.1).tableUsed x.2.1)
    (hker : m'.kernelTables = m.kernelTables) : Owned m' := by
  refine ⟨hslot, by rw [hpmm, hmaps]; exact h.exact, by rw [hmaps]; exact h.same, ?_, ?_, ?_⟩
  · intro x f hx
    rw [hmaps] at hx
    rw [(hent x f hx).1, (hent x f hx).2]
    exact h.flags x f hx
  · intro x y f hx hwr hy
    rw [hmaps] at hx hy
    rw [(hent x f hx).1] at hwr
    exact h.alone x y f hx hwr hy
  · rw [hker]
    exact h.table

theorem Owned.withPmm (h : Owned m) (hp : Exact p (count m.maps)) :
    Owned { m with pmm := p } :=
  ⟨h.slot, hp, h.same, h.flags, h.alone, h.table⟩

def Absent (m : Vmm) (i : Nat) (virt : Word) : Prop :=
  ∀ t, userSlot virt = some t → bit (m.pte i t (tableIndex virt)) 0 = false

theorem Owned.absent_of_physical (h : Owned m) (hlive : m.spaceUsed i = true)
    (hphys : vmmGetUserPhysical (m.spaces i) virt = 0) : Absent m i virt := by
  intro t ht
  by_contra hbit
  simp only [Bool.not_eq_false] at hbit
  have hx := maps_place h.slot hlive (userSlot_lt ht) (tableIndex_lt virt) hbit
  obtain ⟨htab, huser, -⟩ : (m.spaces i).tableUsed t = true ∧
      bit (m.pte i t (tableIndex virt)) 2 = true ∧ _ := h.flags _ _ hx
  have hin := ((h.exact _).held ((count_pos _ _).mpr ⟨_, hx⟩)).1
  rw [inUse_iff] at hin
  -- The address is the frame's, and the frame is not 0.
  have hz : pageNumber (vmmGetUserPhysical (m.spaces i) virt) =
      pageNumber (m.pte i t (tableIndex virt)) := by
    simp only [vmmGetUserPhysical, ht]
    rw [if_pos htab, if_neg (by simpa [Vmm.pte] using ⟨hbit, huser⟩)]
    exact pageNumber_base_or _ _ (offset_lt virt)
  rw [hphys, pageNumber_eq] at hz
  simp only [BitVec.ofNat_eq_ofNat, BitVec.toNat_ofNat] at hz
  omega

theorem Owned.mapUser (h : Owned m) (hlive : m.spaceUsed i = true)
    (hflags : flags.toNat < 4096) (habs : Absent m i virt)
    (ha : pmmAllocPage m.pmm = some (a, p))
    (hmap : vmmMapUser { m with pmm := p } i virt a (flags ||| pageWrite) = some m') : Owned m' := by
  simp only [vmmMapUser, Option.map_eq_some_iff] at hmap
  obtain ⟨t, ht, rfl⟩ := hmap
  let x := place i t (tableIndex virt) (h.slot i hlive) (userSlot_lt ht) (tableIndex_lt virt)
  have hnum := pageNumber_userEntry a (flags ||| pageWrite) (or_lt _ _ hflags (by decide))
  have hx : m.maps x = none := (maps_eq_none m x hlive).mpr (habs t ht)
  obtain ⟨hfresh, hexact⟩ := h.exact.alloc ha
  have hent' : ∀ y, (({ m with pmm := p }.markTable i t).setPte i t (tableIndex virt)
      (pageBase a ||| (flags ||| pageWrite ||| pagePresent ||| pageUser))).entry y =
      if y = x then pageBase a ||| (flags ||| pageWrite ||| pagePresent ||| pageUser) else m.entry y := by
    intro y
    refine (entry_setPte (m.markTable i t) i t _ _ p (h.slot i hlive) (userSlot_lt ht)
      (tableIndex_lt virt) y).trans ?_
    split
    · rfl
    · exact pte_markTable m i t _ _ _
  refine h.change (x := x) hent' rfl hlive ?_ h.table ?_ ?_
  · intro k u hk
    rw [setPte_tableUsed, markTable_tableUsed]
    simp [hk]
  · rw [maps_change hent' rfl hlive]
    simp only [bit_or, bit_pagePresent, decide_true, Bool.or_true, Bool.true_or, if_true, hnum]
    rw [count_take hx, hfresh]
    exact hexact
  · intro _
    refine ⟨?_, by simp, by simp, ?_⟩
    · rw [setPte_tableUsed, markTable_tableUsed]
      simp [x, place]
    · intro y _ hy
      rw [hnum] at hy
      exact absurd hy ((count_eq_zero _ _).mp hfresh y)

theorem Owned.dropEntry (h : Owned m) {j : Nat} (hlive : m.spaceUsed i = true)
    (ht : t < 8) (hj : j < 1024) (hbit : bit (m.pte i t j) 0 = true) :
    Owned ({ m with pmm := pmmFreePage m.pmm (pageBase (m.pte i t j)) }.setPte i t j 0) := by
  have hx := maps_place h.slot hlive ht hj hbit
  have hent := entry_setPte m i t j 0 (pmmFreePage m.pmm (pageBase (m.pte i t j)))
    (h.slot i hlive) ht hj
  have hpos : 0 < count m.maps (pageNumber (pageBase (m.pte i t j))) := by
    rw [pageNumber_pageBase]
    exact (count_pos _ _).mpr ⟨_, hx⟩
  refine h.change (w := 0) hent rfl hlive ?_ h.table ?_ (by simp)
  · intro k u hk
    rw [setPte_tableUsed]
    exact hk
  · rw [maps_change hent rfl hlive]
    simp only [BitVec.ofNat_eq_ofNat, bit_zero, Bool.false_eq_true, if_false]
    rw [count_drop hx]
    have := h.exact.free hpos
    rwa [pageNumber_pageBase] at this

theorem Owned.unmapUser (h : Owned m) (hlive : m.spaceUsed i = true)
    (hun : vmmUnmapUser m i virt = some m') : Owned m' := by
  unfold vmmUnmapUser at hun
  split at hun
  · simp at hun
  · rename_i t ht
    split at hun
    · simp only at hun
      split at hun <;> rename_i hbit
      · simp at hun
      · cases hun
        exact h.dropEntry hlive (userSlot_lt ht) (tableIndex_lt virt) ((and_pagePresent _).mp hbit)
    · simp at hun

/-! ## Ranges -/

theorem pageNumber_of_slot {v : Word} (h : userSlot v = some t) :
    pageNumber v = (t + 1) * 1024 + tableIndex v := by
  rw [userSlot_eq_some] at h
  rw [pageNumber_eq, tableIndex_eq]
  omega

theorem userSlot_page (hp : pageNumber a = pageNumber b) :
    userSlot a = userSlot b ∧ tableIndex a = tableIndex b := by
  rw [pageNumber_eq, pageNumber_eq] at hp
  rw [tableIndex_eq, tableIndex_eq, hp]
  refine ⟨?_, rfl⟩
  apply Option.ext
  intro t
  rw [userSlot_eq_some, userSlot_eq_some]
  omega

theorem page_of_slot (ha : userSlot a = some t) (hb : userSlot b = some t)
    (hi : tableIndex a = tableIndex b) : pageNumber a = pageNumber b := by
  rw [pageNumber_of_slot ha, pageNumber_of_slot hb, hi]

theorem toNat_pageAt (h : base.toNat + 4096 * k < 4294967296) :
    (pageAt base k).toNat = base.toNat + 4096 * k := by
  rw [pageAt, BitVec.toNat_add, BitVec.toNat_mul, BitVec.toNat_ofNat]
  simp only [BitVec.ofNat_eq_ofNat, BitVec.toNat_ofNat]
  omega

theorem Absent.mapUser {virt' : Word} (h : vmmMapUser m i virt phys flags = some m')
    (hne : pageNumber virt' ≠ pageNumber virt) (habs : Absent m i virt') : Absent m' i virt' := by
  simp only [vmmMapUser, Option.map_eq_some_iff] at h
  obtain ⟨t, ht, rfl⟩ := h
  intro t' ht'
  rw [pte_setPte, if_neg, pte_markTable]
  · exact habs t' ht'
  · rintro ⟨-, rfl, hti⟩
    rw [pageNumber_of_slot ht, pageNumber_of_slot ht', hti] at hne
    exact hne rfl

theorem unmapBack_owned (i : Nat) (base : Word) (n : Nat) (h : Owned m)
    (hlive : m.spaceUsed i = true) :
    Owned (unmapBack i base n m) ∧ OnlyTables i m (unmapBack i base n m) := by
  induction n generalizing m with
  | zero => exact ⟨h, .refl i m⟩
  | succ n ih =>
    rw [unmapBack]
    cases hun : vmmUnmapUser m i (pageAt base n) with
    | none => exact ih h hlive
    | some m1 =>
      have hot := onlyTables_unmapUser hun
      obtain ⟨h1, h2⟩ := ih (h.unmapUser hlive hun) (by rw [hot.spaceUsed]; exact hlive)
      exact ⟨h1, hot.trans h2⟩

theorem unmapPages_only (i : Nat) (virt : Word) (n : Nat) (m : Vmm) :
    OnlyTables i m (unmapPages i virt n m) := by
  refine forRange_inv (fun _ m' => OnlyTables i m m') n (.refl i m) fun k _ m1 hot => ?_
  cases hun : vmmUnmapUser m1 i (pageAt virt k) with
  | none => exact hot
  | some m2 => exact hot.trans (onlyTables_unmapUser hun)

theorem unmapPages_owned (i : Nat) (virt : Word) (n : Nat) (h : Owned m)
    (hlive : m.spaceUsed i = true) : Owned (unmapPages i virt n m) := by
  refine (forRange_inv (fun _ m' => Owned m' ∧ m'.spaceUsed i = true) n ⟨h, hlive⟩ ?_).1
  rintro k - m1 ⟨h1, hlive1⟩
  cases hun : vmmUnmapUser m1 i (pageAt virt k) with
  | none => exact ⟨h1, hlive1⟩
  | some m2 =>
    exact ⟨h1.unmapUser hlive1 hun, by
      rw [Option.getD_some, (onlyTables_unmapUser hun).spaceUsed]; exact hlive1⟩

theorem mapPages_owned (i : Nat) (base flags : Word) (hflags : flags.toNat < 4096) (left : Nat) :
    ∀ (done : Nat) {m : Vmm}, Owned m → m.spaceUsed i = true →
      base.toNat + 4096 * (done + left) < 4294967296 →
      (∀ k, done ≤ k → k < done + left → Absent m i (pageAt base k)) →
      Owned (mapPages i base flags done left m).2 ∧
        OnlyTables i m (mapPages i base flags done left m).2 := by
  induction left with
  | zero => intro done m h _ _ _; exact ⟨h, .refl i m⟩
  | succ left ih =>
    intro done m h hlive hfit habs
    rw [mapPages]
    split
    · exact unmapBack_owned i base done h hlive
    · rename_i a p ha
      split
      · -- The page is outside the eight tables: the frame goes back at once.
        have hback := h.withPmm (h.exact.alloc_free ha)
        obtain ⟨h1, h2⟩ := unmapBack_owned i base done hback hlive
        exact ⟨h1, (onlyTables_pmm m i _).trans h2⟩
      · rename_i m1 hmap
        have hot := (onlyTables_pmm m i p).trans (onlyTables_mapUser hmap)
        have hown := h.mapUser hlive hflags (habs done (by omega) (by omega)) ha hmap
        have hrest : ∀ k, done + 1 ≤ k → k < done + 1 + left → Absent m1 i (pageAt base k) := by
          intro k hk1 hk2
          have hk : base.toNat + 4096 * k < 4294967296 := by omega
          have hd : base.toNat + 4096 * done < 4294967296 := by omega
          refine Absent.mapUser hmap ?_ (habs k (by omega) (by omega))
          rw [pageNumber_eq, pageNumber_eq, toNat_pageAt hk, toNat_pageAt hd]
          omega
        have hfit' : base.toNat + 4096 * (done + 1 + left) < 4294967296 := by omega
        obtain ⟨h1, h2⟩ := ih (done + 1) hown (by rw [hot.spaceUsed]; exact hlive) hfit' hrest
        exact ⟨h1, hot.trans h2⟩

theorem Owned.setVmas (h : Owned m) (i : Nat) (s : AddressSpace)
    (htab : s.userTables = (m.spaces i).userTables) (hused : s.tableUsed = (m.spaces i).tableUsed) :
    Owned (m.setSpace i s) := by
  have hspace : ∀ k, ((m.setSpace i s).spaces k).userTables = (m.spaces k).userTables ∧
      ((m.setSpace i s).spaces k).tableUsed = (m.spaces k).tableUsed := by
    intro k
    by_cases hk : k = i
    · subst hk
      simp [Vmm.setSpace, htab, hused]
    · simp [Vmm.setSpace, hk]
  have hent : ∀ x, (m.setSpace i s).entry x = m.entry x := by
    intro x
    simp only [Vmm.entry, Vmm.pte, (hspace x.1).1]
  refine h.congr h.slot rfl ?_ (fun x _ _ => ⟨hent x, by rw [(hspace x.1).2]⟩) rfl
  exact funext fun x => maps_congr rfl (hent x)

theorem rangeClear_iff (s : AddressSpace) (base pages : Word) :
    rangeClear s base pages = true ↔
      ∀ k < pages.toNat, vmmGetUserPhysical s (pageAt base k) = 0 := by
  simp [rangeClear]

theorem range_fits (hp : ¬ (0x80000 : Word) < pages)
    (hb : ¬ base + pages * 4096 < base) (he : ¬ (0xc0000000 : Word) < base + pages * 4096) :
    base.toNat + 4096 * pages.toNat ≤ 0xc0000000 := by
  have h8 : (0x80000 : Word).toNat = 0x80000 := rfl
  have hc : (0xc0000000 : Word).toNat = 0xc0000000 := rfl
  have h4 : (4096 : Word).toNat = 4096 := rfl
  rw [BitVec.lt_def, BitVec.toNat_add, BitVec.toNat_mul] at hb he
  rw [BitVec.lt_def] at hp
  rw [h4] at hb he
  rw [hc] at he
  rw [h8] at hp
  have := base.isLt
  omega

theorem Owned.mapRange (h : Owned m) (hlive : m.spaceUsed i = true)
    (virt pages : Word) (hflags : flags.toNat < 4096) :
    Owned (vmmMapRange m i virt pages flags).2 ∧ OnlySpace i m (vmmMapRange m i virt pages flags).2 := by
  unfold vmmMapRange
  extract_lets s base stop
  split
  · exact ⟨h, .refl i m⟩
  · rename_i hpages
    split
    · exact ⟨h, .refl i m⟩
    · rename_i hbounds
      split
      · exact ⟨h, .refl i m⟩
      · rename_i hclear
        cases hslot : s.freeVma with
        | none => exact ⟨h, .refl i m⟩
        | some slot =>
          have hfit : base.toNat + 4096 * pages.toNat ≤ 0xc0000000 :=
            range_fits (by tauto) (by tauto) (by tauto)
          have habs : ∀ k, 0 ≤ k → k < 0 + pages.toNat → Absent m i (pageAt base k) := by
            intro k _ hk
            rw [Bool.not_eq_true, Bool.not_eq_false', rangeClear_iff] at hclear
            exact h.absent_of_physical hlive (hclear k (by omega))
          obtain ⟨hown, hot⟩ :=
            mapPages_owned i base flags hflags pages.toNat 0 h hlive (by omega) habs
          simp only
          split <;> rename_i m1 hloop <;> rw [hloop] at hown hot
          · exact ⟨hown, hot.toOnlySpace⟩
          · exact ⟨hown.setVmas i _ rfl rfl, hot.toOnlySpace.trans (onlySpace_setSpace m1 i _)⟩

theorem cutVma_tables (s : AddressSpace) (slot : Nat) (virt stop : Word) :
    (cutVma s slot virt stop).userTables = s.userTables ∧
      (cutVma s slot virt stop).tableUsed = s.tableUsed := by
  simp only [cutVma]
  split
  · exact ⟨rfl, rfl⟩
  · split
    · exact ⟨rfl, rfl⟩
    · split
      · exact ⟨rfl, rfl⟩
      · cases s.freeVma <;> exact ⟨rfl, rfl⟩

theorem Owned.unmapRange (h : Owned m) (hlive : m.spaceUsed i = true)
    (hun : vmmUnmapRange m i virt pages = some m') :
    Owned m' ∧ OnlySpace i m m' := by
  unfold vmmUnmapRange at hun
  extract_lets s stop at hun
  split at hun
  · simp at hun
  · split at hun
    · simp at hun
    · split at hun
      · simp at hun
      · simp only [Option.map_eq_some_iff] at hun
        obtain ⟨slot, -, rfl⟩ := hun
        have hown := unmapPages_owned i virt pages.toNat h hlive
        have hot := unmapPages_only i virt pages.toNat m
        obtain ⟨htab, hused⟩ := cutVma_tables ((unmapPages i virt pages.toNat m).spaces i) slot virt stop
        exact ⟨hown.setVmas i _ htab hused, hot.toOnlySpace.trans (onlySpace_setSpace _ i _)⟩

/-! ## Spaces come and go -/

structure Created (m : Vmm) (d : Nat) (m' : Vmm) : Prop where
  lt : d < 32
  free : m.spaceUsed d = false
  used : m'.spaceUsed = update m.spaceUsed d true
  spaces : ∀ k, k ≠ d → m'.spaces k = m.spaces k
  zero : ∀ t j, m'.pte d t j = 0
  vmas : ∀ v, ((m'.spaces d).vmas v).used = false
  pmm : m'.pmm = m.pmm
  phys : m'.phys = m.phys
  kernelTables : m'.kernelTables = m.kernelTables
  currentSpace : m'.currentSpace = m.currentSpace

theorem vmmCreateAddressSpace_spec
    (h : vmmCreateAddressSpace m = some (d, m')) : Created m d m' := by
  simp only [vmmCreateAddressSpace, Option.map_eq_some_iff, Prod.mk.injEq] at h
  obtain ⟨i, hfind, rfl, rfl⟩ := h
  have hlt : i < 32 := List.mem_range.mp (List.mem_of_find?_eq_some hfind)
  have hfree : m.spaceUsed i = false := by simpa using List.find?_some hfind
  exact ⟨hlt, hfree, rfl, fun k hk => update_of_ne hk _ _, fun t j => by simp [Vmm.pte],
    fun v => by simp, rfl, rfl, rfl, rfl⟩

theorem Created.ne (h : Created m d m') (hk : m.spaceUsed k = true) : k ≠ d := by
  rintro rfl
  rw [h.free] at hk
  simp at hk

theorem Owned.create (h : Owned m) (hc : vmmCreateAddressSpace m = some (d, m')) : Owned m' := by
  have hd := vmmCreateAddressSpace_spec hc
  have hne : ∀ x f, m.maps x = some f → x.1.val ≠ d := fun x f hx => hd.ne ((maps_eq_some m x f).mp hx).1
  refine h.congr ?_ hd.pmm ?_ ?_ hd.kernelTables
  · intro k hk
    by_cases hkd : k = d
    · rw [hkd]
      exact hd.lt
    · rw [hd.used, update_of_ne hkd] at hk
      exact h.slot k hk
  · funext x
    by_cases hx : x.1.val = d
    · simp [Vmm.maps, Vmm.entry, hx, hd.zero, hd.free]
    · refine maps_congr (by rw [hd.used, update_of_ne hx]) ?_
      simp only [Vmm.entry, Vmm.pte, hd.spaces _ hx]
  · intro x f hx
    have := hd.spaces _ (hne x f hx)
    simp only [Vmm.entry, Vmm.pte, this, and_self]

theorem Owned.retain (h : Owned m) (i : Nat) : Owned (vmmRetainAddressSpace m i) :=
  h.setVmas i { m.spaces i with refs := (m.spaces i).refs + 1 } rfl rfl

/-- What the loop of `vmm_destroy_address_space` has done when it reaches entry `(t, j)`: the
allocator is that of a state in which the entries before it have been dropped. -/
structure Dropped (m : Vmm) (i t j : Nat) (p : Pmm) (mg : Vmm) : Prop where
  owned : Owned mg
  pmm : mg.pmm = p
  only : OnlyTables i m mg
  gone : ∀ u l, (u < t ∨ u = t ∧ l < j) → u < 8 → l < 1024 → bit (mg.pte i u l) 0 = false
  kept : ∀ u l, ¬ (u < t ∨ u = t ∧ l < j) → mg.pte i u l = m.pte i u l

theorem freeTables_dropped (h : Owned m) (hlive : m.spaceUsed i = true) :
    ∃ mg, Dropped m i 8 0 (freeTables (m.spaces i) m.pmm) mg := by
  have hbegin : Dropped m i 0 0 m.pmm m :=
    ⟨h, rfl, .refl i m, fun u l hb => by omega, fun _ _ _ => rfl⟩
  refine forRange_inv (fun t p => ∃ mg, Dropped m i t 0 p mg) 8 ⟨m, hbegin⟩ ?_
  rintro t ht p ⟨mg, hmg⟩
  split
  · suffices hinner : ∃ mg, Dropped m i t 1024 (forRange 1024 (fun j p =>
        if (m.spaces i).userTables t j &&& pagePresent = 0 then p
        else pmmFreePage p (pageBase ((m.spaces i).userTables t j))) p) mg by
      obtain ⟨mg', hmg'⟩ := hinner
      exact ⟨mg', hmg'.owned, hmg'.pmm, hmg'.only, fun u l hb hu hl => hmg'.gone u l (by omega) hu hl,
        fun u l hb => hmg'.kept u l (by omega)⟩
    refine forRange_inv (fun j p => ∃ mg, Dropped m i t j p mg) 1024 ⟨mg, hmg⟩ ?_
    · rintro j hj p ⟨mg, hmg⟩
      have hkept := hmg.kept t j (by omega)
      split <;> rename_i hbit
      · refine ⟨mg, hmg.owned, hmg.pmm, hmg.only, fun u l hb hu hl => ?_,
          fun u l hb => hmg.kept u l (by omega)⟩
        by_cases hlast : u = t ∧ l = j
        · rw [hlast.1, hlast.2, hkept]
          exact (and_pagePresent_eq_zero _).mp hbit
        · exact hmg.gone u l (by omega) hu hl
      · have hpres : bit (mg.pte i t j) 0 = true := by
          rw [hkept]
          exact (and_pagePresent _).mp hbit
        have hdrop := hmg.owned.dropEntry (by rw [hmg.only.spaceUsed]; exact hlive) ht hj hpres
        refine ⟨_, hdrop, ?_, hmg.only.trans (onlyTables_setPte mg _ i t j 0), fun u l hb hu hl => ?_,
          fun u l hb => ?_⟩
        · rw [setPte_pmm, hkept, hmg.pmm]
          rfl
        · rw [pte_setPte]
          split
          · simp
          · exact hmg.gone u l (by omega) hu hl
        · rw [pte_setPte, if_neg (by omega)]
          exact hmg.kept u l (by omega)
  · rename_i hunused
    -- A table that is not in use holds no present entry.
    refine ⟨mg, hmg.owned, hmg.pmm, hmg.only, fun u l hb hu hl => ?_,
      fun u l hb => hmg.kept u l (by omega)⟩
    by_cases hut : u = t
    · subst hut
      rw [hmg.kept u l (by omega)]
      by_contra hpres
      rw [Bool.not_eq_false] at hpres
      exact hunused (h.flags _ _ (maps_place h.slot hlive hu hl hpres)).1
    · exact hmg.gone u l (by omega) hu hl

theorem Owned.destroy (h : Owned m) (hlive : m.spaceUsed i = true) :
    Owned (vmmDestroyAddressSpace m i) := by
  unfold vmmDestroyAddressSpace
  extract_lets s m1
  split
  · exact h
  · have h1 : Owned m1 := h.setVmas i { s with refs := s.refs - 1 } rfl rfl
    split
    · exact h1
    · rw [if_pos (show m1.spaceUsed i = true from hlive)]
      obtain ⟨mg, hmg⟩ := freeTables_dropped h1 hlive
      have htables : freeTables s m1.pmm = mg.pmm := by
        rw [hmg.pmm]
        simp [m1, Vmm.setSpace, freeTables, s]
      have hspaces : ∀ k, k ≠ i → m1.spaces k = mg.spaces k := fun k hk => (hmg.only.spaces k hk).symm
      refine hmg.owned.congr ?_ htables ?_ ?_ hmg.only.kernelTables.symm
      · intro k hk
        by_cases hki : k = i
        · exact hki ▸ h.slot i hlive
        · simp only [update_of_ne hki] at hk
          exact h.slot k hk
      · funext x
        by_cases hx : x.1.val = i
        · have hdead : bit (mg.entry x) 0 = false := by
            have := hmg.gone x.2.1 x.2.2 (by omega) x.2.1.isLt x.2.2.isLt
            rwa [← hx] at this
          simp [Vmm.maps, hx, hdead]
        · refine maps_congr ?_ ?_
          · simp only [update_of_ne hx, hmg.only.spaceUsed]
          · simp only [Vmm.entry, Vmm.pte, hspaces _ hx]
      · intro x f hx
        have hxi : x.1.val ≠ i := by
          intro hxi
          have hdead := hmg.gone x.2.1 x.2.2 (by omega) x.2.1.isLt x.2.2.isLt
          rw [← hxi] at hdead
          have := ((maps_eq_some _ _ _).mp hx).2.1
          rw [Vmm.entry, hdead] at this
          simp at this
        simp only [Vmm.entry, Vmm.pte, hspaces _ hxi, and_self]

end Ceblar
