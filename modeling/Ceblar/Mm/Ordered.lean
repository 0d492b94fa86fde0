import Ceblar.Mm.Kmalloc

/-! # What the parts of a call do to the blocks

A call of the heap is made of a few parts: a page more, a block taken, cut or given back, and the
copy of `krealloc`.
-/

namespace Ceblar

theorem kernelFrame_of_index (m : Vmm) {a b : Word} (hd : dirIndex a = dirIndex b)
    (ht : tableIndex a = tableIndex b) : m.kernelFrame a = m.kernelFrame b := by
  unfold Vmm.kernelFrame
  rw [hd, ht]

theorem present_ne_zero (phys flags : Word) :
    (pageBase phys ||| (flags ||| pagePresent)) &&& pagePresent ≠ 0 := by
  intro h0
  have hbit := congrArg (fun w => bit w 0) h0
  simp [bit, pagePresent] at hbit

theorem kernelFrame_vmmMap {m : Vmm} {a : Word} (virt phys flags : Word) (h : m.kernelFrame a ≠ none) :
    (vmmMap m virt phys flags).kernelFrame a ≠ none := by
  unfold vmmMap
  cases ht : m.kernelTables (dirIndex virt) with
  | none => exact h
  | some table =>
    by_cases hd : dirIndex a = dirIndex virt
    · unfold Vmm.kernelFrame at h ⊢
      rw [hd, ht] at h
      simp only [hd, Function.update_self] at h ⊢
      by_cases hti : tableIndex a = tableIndex virt
      · rw [hti, Function.update_self, if_neg (present_ne_zero _ _)]
        simp
      · rw [Function.update_of_ne hti]
        exact h
    · unfold Vmm.kernelFrame at h ⊢
      simp only [Function.update_of_ne hd]
      exact h

theorem kernelFrame_vmmMap_self (m : Vmm) (virt phys flags : Word) :
    (vmmMap m virt phys flags).kernelFrame virt = none ↔ m.kernelTables (dirIndex virt) = none := by
  unfold vmmMap Vmm.kernelFrame
  cases ht : m.kernelTables (dirIndex virt) with
  | none => simp [ht]
  | some table =>
    simp only [Function.update_self, if_neg (present_ne_zero _ _)]
    simp

/-! ## The list -/

/-- The list is in order of address and ends below `heap_virt_top`, which has not left the one page
table of the heap. -/
structure Ordered (h : Heap) (es : List Extent) : Prop where
  chain : Chain h.mem h.head es
  nonempty : es ≠ []
  below : ∀ e ∈ es, e.stop 16 ≤ h.heapVirtTop.toNat
  top_ge : 0xd0000000 ≤ h.heapVirtTop.toNat
  top_le : h.heapVirtTop.toNat ≤ 0xd0400000
  aligned : h.heapVirtTop.toNat % 4096 = 0
  oneTable : h.vmm.kernelTables 833 = none

def Heap.newPage (h : Heap) : Extent := { start := h.heapVirtTop.toNat, len := 4080, free := true }

theorem newPage_addr (h : Heap) : h.newPage.addr = h.heapVirtTop := by
  rw [Extent.addr, Heap.newPage, BitVec.ofNat_toNat, BitVec.setWidth_eq]

theorem newPage_len (h : Heap) : BitVec.ofNat 32 h.newPage.len = 4096 - headerSize := by
  show BitVec.ofNat 32 4080 = 4096 - headerSize
  decide

section

variable {h h' : Heap} {es es' l r : List Extent} {e f : Extent} {m : Mem} {a : Word}
variable {area n x : Word}

theorem Ordered.head_ne (hs : Ordered h es) : h.head ≠ 0 := by
  cases es with
  | nil => exact absurd rfl hs.nonempty
  | cons e es => exact hs.chain.1 ▸ hs.chain.2.1.addr_ne

theorem Ordered.update (hs : Ordered h es) (hm : Chain m h.head es') (hne : es' ≠ [])
    (hstop : ∀ d ∈ es', ∃ f ∈ es, d.stop 16 ≤ f.stop 16) : Ordered { h with mem := m } es' := by
  refine ⟨hm, hne, fun d hd => ?_, hs.top_ge, hs.top_le, hs.aligned, hs.oneTable⟩
  obtain ⟨f, hf, hle⟩ := hstop d hd
  exact hle.trans (hs.below f hf)

theorem Ordered.write (hs : Ordered h es) (hm : Chain m h.head es) : Ordered { h with mem := m } es :=
  hs.update hm hs.nonempty fun d hd => ⟨d, hd, le_refl _⟩

theorem Ordered.frames (hs : Ordered h es) (pmm : Pmm) :
    Ordered { h with vmm := { h.vmm with pmm } } es :=
  ⟨hs.chain, hs.nonempty, hs.below, hs.top_ge, hs.top_le, hs.aligned, hs.oneTable⟩

theorem Ordered.replace (mid : List Extent) (hs : Ordered h (l ++ e :: r))
    (hm : Chain m h.head (l ++ (mid ++ r))) (hmid : Tiles 16 e.start (e.stop 16) mid) :
    Ordered { h with mem := m } (l ++ (mid ++ r)) := by
  refine hs.update hm ?_ fun d hd => ?_
  · rcases mid with _ | ⟨d, mid⟩
    · have hempty : e.start = e.stop 16 := hmid
      unfold Extent.stop at hempty
      omega
    · simp
  · rcases List.mem_append.mp hd with hd | hd
    · exact ⟨d, by simp [hd], le_refl _⟩
    rcases List.mem_append.mp hd with hd | hd
    · exact ⟨e, by simp, (hmid.bounds hd).2⟩
    · exact ⟨d, by simp [hd], le_refl _⟩

structure PageAdded (h h' : Heap) : Prop where
  top : h'.heapVirtTop.toNat = h.heapVirtTop.toNat + 4096
  vmm : ∃ pmm page, h'.vmm = vmmMap { h.vmm with pmm } h.heapVirtTop page pageWrite
  mapped : h'.vmm.kernelFrame h.heapVirtTop ≠ none

theorem Ordered.top_lt (hs : Ordered h es) (ht : h.vmm.kernelTables (dirIndex h.heapVirtTop) ≠ none) :
    h.heapVirtTop.toNat < 0xd0400000 := by
  refine lt_of_le_of_ne hs.top_le fun htop => ht ?_
  have hdir : dirIndex h.heapVirtTop = 833 := by rw [dirIndex_eq, htop]
  rw [hdir, hs.oneTable]

theorem Ordered.grow_cases (hs : Ordered h es) :
    (h.vmm.pmm.firstFree = none ∧ grow h = .ok (-1, h)) ∨
      h.vmm.pmm.firstFree ≠ none ∧
        ((h.vmm.kernelTables (dirIndex h.heapVirtTop) = none ∧ grow h = .error .unhandledPageFault) ∨
          h.vmm.kernelTables (dirIndex h.heapVirtTop) ≠ none ∧
            ∃ h1, grow h = .ok (0, h1) ∧ Ordered h1 (es ++ [h.newPage]) ∧ PageAdded h h1) := by
  unfold grow
  cases hp : pmmAllocPage h.vmm.pmm with
  | none => exact .inl ⟨Option.map_eq_none_iff.mp hp, rfl⟩
  | some res =>
    obtain ⟨page, pmm⟩ := res
    obtain ⟨f, hf, -⟩ := pmmAllocPage_spec hp
    refine .inr ⟨by rw [hf]; exact Option.some_ne_none f, ?_⟩
    have hmap := kernelFrame_vmmMap_self { h.vmm with pmm } h.heapVirtTop page pageWrite
    by_cases htable : h.vmm.kernelTables (dirIndex h.heapVirtTop) = none
    · exact .inl ⟨htable, if_pos (hmap.mpr htable)⟩
    refine .inr ⟨htable, ?_⟩
    have hmapped := mt hmap.mp htable
    have hlt := hs.top_lt htable
    have htop := hs.top_ge
    -- the list as it is after the new header is written
    have hfits : h.newPage.stop 16 < 2 ^ 32 := by
      simp only [Heap.newPage, Extent.stop]
      omega
    have hfresh :=
      chain_fresh (m := h.mem) (e := h.newPage) (by simp only [Heap.newPage]; omega) hfits rfl
    rw [newPage_addr, newPage_len] at hfresh
    have hkeep : Chain (freshBlock h.mem h.heapVirtTop (4096 - headerSize)) h.head es := by
      refine chain_congr hs.chain fun c hc x hx => freshBlock_outside ?_
      have hstop := hs.below c hc
      have haddr := toNat_addr (chain_header hs.chain hc).fits
      unfold Extent.stop at hstop
      exact (apart_of_le (b := c.addr) (c := h.heapVirtTop) (by omega) (by omega)).symm.outside hx
    obtain ⟨l, e, rfl⟩ : ∃ l e, es = l ++ [e] := ⟨es.dropLast, es.getLast hs.nonempty,
      (List.dropLast_append_getLast _).symm⟩
    have hlen := chain_length hkeep
    simp only [List.length_append, List.length_singleton] at hlen
    have hlast : lastBlock (2 ^ 32) h.head _ = .ok e.addr := lastBlock_spec hkeep (by omega)
    simp only [if_neg hmapped, if_neg hs.head_ne, hlast, bind, Except.bind, pure, Except.pure]
    refine ⟨_, rfl, ?_⟩
    have happ := chain_append hkeep (f := h.newPage) (by rw [newPage_addr]; exact hfresh) hs.below
    rw [newPage_addr] at happ
    have htop' : (h.heapVirtTop + 4096).toNat = h.heapVirtTop.toNat + 4096 := by bv_omega
    have haligned := hs.aligned
    refine ⟨⟨by simpa using happ, by simp, fun d hd => ?_, ?_, ?_, ?_, ?_⟩, htop',
      ⟨pmm, page, rfl⟩, hmapped⟩
    · simp only [htop']
      rcases List.mem_append.mp hd with hd | hd
      · have := hs.below d hd
        omega
      · rw [List.mem_singleton.mp hd]
        simp only [Heap.newPage, Extent.stop]
        omega
    · simp only [htop']
      omega
    · simp only [htop']
      omega
    · simp only [htop']
      omega
    · exact (kernelTables_vmmMap _ _ _ _ _).mpr hs.oneTable

theorem Ordered.grow (hs : Ordered h es) (hg : grow h = .ok (0, h')) :
    Ordered h' (es ++ [h.newPage]) ∧ PageAdded h h' := by
  rcases hs.grow_cases with ⟨-, hend⟩ | ⟨-, ⟨-, hend⟩ | ⟨-, h1, hend, hpage⟩⟩
  · rw [hg] at hend
    cases hend
  · rw [hg] at hend
    cases hend
  · rw [hg] at hend
    cases hend
    exact hpage

/-! ## A block that is taken -/

structure Allocated (es es' : List Extent) (n : Nat) (e : Extent) : Prop where
  live : e.free = false
  room : n ≤ e.len
  fresh : e ∉ es
  mem : ∀ d : Extent, d.free = false → (d ∈ es' ↔ d ∈ es ∨ d = e)

def Extent.taken (n : Nat) (e : Extent) : List Extent := Extent.divide 16 8 n { e with free := false }

theorem fits_iff {n : Nat} : e.fits n = true ↔ e.free = true ∧ n ≤ e.len := by
  simp [Extent.fits]

theorem chain_take (h : Chain m a (l ++ e :: r)) (hn : n.toNat ≤ e.len) :
    Chain (setField (split m e.addr n) e.addr .free 0) a (l ++ (e.taken n.toNat ++ r)) := by
  obtain ⟨len, rest, hdiv, -⟩ := divide_eq 16 8 n.toNat e
  have hsplit := chain_split h hn
  rw [show e.divide 16 8 n.toNat = _ from hdiv e.free] at hsplit
  have hmark := chain_setFree hsplit false
  rw [Extent.taken, hdiv]
  exact hmark

theorem tiles_taken (n : Nat) (e : Extent) : Tiles 16 e.start (e.stop 16) (e.taken n) :=
  tiles_divide 8 { e with free := false }

theorem split_outside_block (he : HasHeader m e) (hn : n.toNat ≤ e.len)
    (hx : 16 + e.len ≤ (x - e.addr).toNat) : split m e.addr n x = m x := by
  refine split_outside (by omega) fun hroom => ?_
  rw [split_room he hn] at hroom
  have haddr := toNat_addr he.fits
  have hfits := he.fits
  unfold Extent.stop at hfits
  unfold headerSize
  bv_omega

theorem take_outside (he : HasHeader m e) (hn : n.toNat ≤ e.len) (hx : 16 + e.len ≤ (x - e.addr).toNat) :
    setField (split m e.addr n) e.addr .free 0 x = m x := by
  rw [setField_of_le _ _ (by omega), split_outside_block he hn hx]

theorem allocated_take (hs : Spaced 16 (l ++ e :: r)) {n : Nat} (hfit : e.fits n = true) :
    ∃ f, Allocated (l ++ e :: r) (l ++ (e.taken n ++ r)) n f ∧ f.addr = e.addr := by
  obtain ⟨hfree, hn⟩ := fits_iff.mp hfit
  obtain ⟨len, rest, hdiv, hroom, -, hrest⟩ := divide_eq 16 8 n e
  have hne := fun d => hs.start_ne (d := d) (by omega)
  rw [Extent.taken, hdiv]
  refine ⟨{ e with len, free := false }, ⟨rfl, hroom hn, fun hmem => ?_, fun d hd => ?_⟩, rfl⟩
  · rcases List.mem_append.mp hmem with hmem | hmem
    · exact hne _ (Or.inl hmem) rfl
    rcases List.mem_cons.mp hmem with heq | hmem
    · rw [← heq] at hfree
      cases hfree
    · exact hne _ (Or.inr hmem) rfl
  · have hde : d ≠ e := by
      rintro rfl
      exact absurd (hd.symm.trans hfree) (by decide)
    have hdrest : d ∉ rest := fun hmem => absurd (hd.symm.trans (hrest d hmem)) (by decide)
    simp only [List.mem_append, List.mem_cons, hde, hdrest, false_or]
    tauto

/-! ## A block that is given back -/

def released (l : List Extent) (e : Extent) (r : List Extent) : List Extent :=
  coalesce 16 (l ++ { e with free := true } :: r)

theorem payload_ne_zero (he : HasHeader m e) : e.addr + headerSize ≠ 0 := by
  have h1 := toNat_addr he.fits
  have h2 := he.fits
  unfold Extent.stop at h2
  unfold headerSize
  bv_omega

theorem payload_sub (e : Extent) : e.addr + headerSize - headerSize = e.addr := by bv_omega

theorem kfree_chain (hc : Chain h.mem h.head (l ++ e :: r)) (hlive : e.free = false) :
    ∃ m, kfree (e.addr + headerSize) h = .ok { h with mem := m } ∧ Chain m h.head (released l e r) ∧
      ∀ x, (∀ d ∈ l ++ e :: r, 16 ≤ (x - d.addr).toNat) → m x = h.mem x := by
  have he := chain_header hc (e := e) (by simp)
  have hused : field h.mem e.addr .free = 0 := by
    rw [he.free, hlive]
    rfl
  have hmark := chain_setFree hc true
  rw [if_pos rfl] at hmark
  obtain ⟨m, hmerge, hchain, hframe⟩ :=
    merge_spec (h := { h with mem := setField h.mem e.addr .free 1 }) hmark
  refine ⟨m, ?_, hchain, fun x hx => ?_⟩
  · unfold kfree
    simp only [if_neg (payload_ne_zero he), payload_sub, if_pos (And.intro he.magic hused)]
    exact hmerge
  · have hxe := hx e (by simp)
    refine (hframe x fun d hd => ?_).trans (setField_of_le _ _ hxe)
    rcases List.mem_append.mp hd with hd | hd
    · exact hx d (by simp [hd])
    rcases List.mem_cons.mp hd with rfl | hd
    · exact hxe
    · exact hx d (by simp [hd])

theorem Ordered.release (hs : Ordered h (l ++ e :: r)) (hm : Chain m h.head (released l e r)) :
    Ordered { h with mem := m } (released l e r) := by
  have hspaced :
      Spaced 16 (l ++ { e with free := true } :: r) := chain_spaced (chain_setFree hs.chain true)
  refine hs.update hm ?_ fun d hd => ?_
  · unfold released
    cases l with
    | nil =>
      obtain ⟨f, fs, heq, -⟩ := coalesce_start (k := 16) { e with free := true } r
      rw [List.nil_append, heq]
      exact List.cons_ne_nil f fs
    | cons c l =>
      obtain ⟨f, fs, heq, -⟩ := coalesce_start (k := 16) c (l ++ { e with free := true } :: r)
      rw [List.cons_append, heq]
      exact List.cons_ne_nil f fs
  · obtain ⟨f, hf, hle⟩ := stop_le_of_mem_coalesce hspaced hd
    rcases List.mem_append.mp hf with hf | hf
    · exact ⟨f, by simp [hf], hle⟩
    rcases List.mem_cons.mp hf with rfl | hf
    · exact ⟨e, by simp, hle⟩
    · exact ⟨f, by simp [hf], hle⟩

theorem mem_released (hs : Spaced 16 (l ++ e :: r)) {d : Extent} (hd : d.free = false) :
    d ∈ released l e r ↔ d ∈ l ++ e :: r ∧ d ≠ e := by
  have hne : d ∈ l ∨ d ∈ r → d ≠ e := fun hd heq => hs.start_ne (by omega) hd (by rw [heq])
  have hmark : d ≠ { e with free := true } := by
    rintro rfl
    cases hd
  rw [released, mem_coalesce hd]
  simp only [List.mem_append, List.mem_cons, hmark, false_or]
  tauto

def LivePtr (es : List Extent) (p : Word) : Prop := ∃ e ∈ es, e.free = false ∧ p = e.addr + headerSize

theorem livePtr_congr (h : ∀ d : Extent, d.free = false → (d ∈ es' ↔ d ∈ es)) (p : Word) :
    LivePtr es' p ↔ LivePtr es p := by
  constructor
  · rintro ⟨d, hd, hfree, rfl⟩
    exact ⟨d, (h d hfree).mp hd, hfree, rfl⟩
  · rintro ⟨d, hd, hfree, rfl⟩
    exact ⟨d, (h d hfree).mpr hd, hfree, rfl⟩

theorem Allocated.livePtr {n : Nat} (h : Allocated es es' n e) (p : Word) :
    LivePtr es' p ↔ LivePtr es p ∨ p = e.addr + headerSize := by
  constructor
  · rintro ⟨d, hd, hfree, rfl⟩
    rcases (h.mem d hfree).mp hd with hd | rfl
    · exact Or.inl ⟨d, hd, hfree, rfl⟩
    · exact Or.inr rfl
  · rintro (⟨d, hd, hfree, rfl⟩ | rfl)
    · exact ⟨d, (h.mem d hfree).mpr (Or.inl hd), hfree, rfl⟩
    · exact ⟨e, (h.mem e h.live).mpr (Or.inr rfl), h.live, rfl⟩

theorem livePtr_released (hc : Chain m a (l ++ e :: r)) (p : Word) :
    LivePtr (released l e r) p ↔ LivePtr (l ++ e :: r) p ∧ p ≠ e.addr + headerSize := by
  have hmem := fun d => mem_released (d := d) (chain_spaced hc)
  constructor
  · rintro ⟨d, hd, hfree, rfl⟩
    obtain ⟨hd, hne⟩ := (hmem d hfree).mp hd
    refine ⟨⟨d, hd, hfree, rfl⟩, fun heq => hne (chain_addr_inj hc hd (by simp) ?_)⟩
    bv_omega
  · rintro ⟨⟨d, hd, hfree, rfl⟩, hne⟩
    refine ⟨d, (hmem d hfree).mpr ⟨hd, ?_⟩, hfree, rfl⟩
    rintro rfl
    exact hne rfl

theorem livePtr_divide (hlive : e.free = false) (n : Nat) (p : Word) :
    LivePtr (l ++ (e.divide 16 8 n ++ r)) p ↔ LivePtr (l ++ e :: r) p := by
  obtain ⟨len, rest, hdiv, -, -, hrest⟩ := divide_eq 16 8 n e
  rw [show e.divide 16 8 n = _ from hdiv e.free]
  unfold LivePtr
  simp only [List.cons_append, List.mem_append, List.mem_cons]
  constructor
  · rintro ⟨d, hd | rfl | hd | hd, hdfree, rfl⟩
    · exact ⟨d, by simp [hd], hdfree, rfl⟩
    · exact ⟨e, by simp, hlive, rfl⟩
    · exact absurd (hdfree.symm.trans (hrest d hd)) (by decide)
    · exact ⟨d, by simp [hd], hdfree, rfl⟩
  · rintro ⟨d, hd | rfl | hd, hdfree, rfl⟩
    · exact ⟨d, by simp [hd], hdfree, rfl⟩
    · exact ⟨{ d with len, free := d.free }, by simp, hlive, rfl⟩
    · exact ⟨d, by simp [hd], hdfree, rfl⟩

theorem kmalloc_grown {p : Word} (hhead : h.head ≠ 0) (hrun : kmalloc area n h = .ok (p, h')) :
    (∃ h1 b, Grown h h1 ∧ findFit (roundUp n) (2 ^ 32) h1.head h1.mem = .ok (some b) ∧
      p = b + headerSize ∧
      h' = { h1 with mem := setField (split h1.mem b (roundUp n)) b .free 0 }) ∨ p = 0 ∧ Grown h h' := by
  unfold kmalloc at hrun
  rw [if_neg hhead] at hrun
  dsimp only at hrun
  split at hrun
  · cases hrun
    exact .inr ⟨rfl, .refl⟩
  · exact kmallocLoop_grown hrun

theorem findFit_chain {b : Word} (hc : Chain m a es) (hfit : findFit n (2 ^ 32) a m = .ok (some b)) :
    ∃ l e r, es = l ++ e :: r ∧ e.fits n.toNat = true ∧ b = e.addr := by
  have hlen := chain_length hc
  rw [findFit_spec hc (by omega)] at hfit
  obtain ⟨e, he, rfl⟩ := Option.map_eq_some_iff.mp (Except.ok.inj hfit)
  obtain ⟨hfits, l, r, rfl, -⟩ := List.find?_eq_some_iff_append.mp he
  exact ⟨l, e, r, rfl, hfits, rfl⟩

theorem krealloc_eq (he : HasHeader h.mem e) (hlive : e.free = false) (hn : n ≠ 0) :
    krealloc area (e.addr + headerSize) n h =
      if n.toNat ≤ e.len then .ok (e.addr + headerSize, { h with mem := split h.mem e.addr n })
      else do
        let (q, h1) ← kmalloc area n h
        if q = 0 then return (0, h1)
        let mem ← copyFrom e.addr (e.addr + headerSize) q (2 ^ 32 + 1) 0 h1.mem
        let h2 ← kfree (e.addr + headerSize) { h1 with mem }
        return (q, h2) := by
  have hused : ¬ (field h.mem e.addr .magic ≠ heapMagic ∨ field h.mem e.addr .free ≠ 0) := by
    rw [he.free_ne, hlive]
    simp [he.magic]
  unfold krealloc
  rw [if_neg (payload_ne_zero he), if_neg hn]
  simp only [payload_sub, if_neg hused, BitVec.le_def, he.size_toNat]

theorem krealloc_cases {q : Word} (he : HasHeader h.mem e) (hlive : e.free = false)
    (hrun : krealloc area (e.addr + headerSize) n h = .ok (q, h')) :
    (n = 0 ∧ q = 0 ∧ kfree (e.addr + headerSize) h = .ok h') ∨
      n ≠ 0 ∧ ((n.toNat ≤ e.len ∧ q = e.addr + headerSize ∧ h' = { h with mem := split h.mem e.addr n }) ∨
        e.len < n.toNat ∧ ∃ h1, kmalloc area n h = .ok (q, h1) ∧ ((q = 0 ∧ h' = h1) ∨
          q ≠ 0 ∧ ∃ m, copyFrom e.addr (e.addr + headerSize) q (2 ^ 32 + 1) 0 h1.mem = .ok m ∧
            kfree (e.addr + headerSize) { h1 with mem := m } = .ok h')) := by
  by_cases hn : n = 0
  · unfold krealloc at hrun
    rw [if_neg (payload_ne_zero he), if_pos hn] at hrun
    obtain ⟨h1, hfree, hend⟩ := bind_eq_ok.mp hrun
    cases hend
    exact .inl ⟨hn, rfl, hfree⟩
  · refine .inr ⟨hn, ?_⟩
    rw [krealloc_eq he hlive hn] at hrun
    split at hrun
    · rename_i hfit
      cases hrun
      exact .inl ⟨hfit, rfl, rfl⟩
    · rename_i hfit
      obtain ⟨⟨q1, h1⟩, hk, hrun⟩ := bind_eq_ok.mp hrun
      refine .inr ⟨by omega, ?_⟩
      dsimp only at hrun
      split at hrun
      · rename_i hq
        cases hrun
        exact ⟨h', hq ▸ hk, .inl ⟨rfl, rfl⟩⟩
      · rename_i hq
        obtain ⟨m, hcopy, hrun⟩ := bind_eq_ok.mp hrun
        obtain ⟨h2, hfree, hend⟩ := bind_eq_ok.mp hrun
        cases hend
        exact ⟨h1, hk, .inr ⟨hq, m, hcopy, hfree⟩⟩

theorem payload_outside (hc : Chain m a es) (he : e ∈ es) (hf : f ∈ es) (hne : e ≠ f)
    (hx : (x - (e.addr + headerSize)).toNat < e.len) : 16 + f.len ≤ (x - f.addr).toNat := by
  have h1 := toNat_addr (chain_header hc he).fits
  have h2 := toNat_addr (chain_header hc hf).fits
  have h3 := (chain_header hc he).fits
  have h4 := (chain_header hc hf).fits
  unfold Extent.stop at h3 h4
  unfold headerSize at hx
  rcases chain_disjoint hc he hf with heq | hle | hle
  · exact absurd heq hne
  · unfold Extent.stop at hle
    bv_omega
  · unfold Extent.stop at hle
    bv_omega

theorem payload_apart (hc : Chain m a es) (he : e ∈ es) (hf : f ∈ es) (hne : e ≠ f)
    (hx : (x - (e.addr + headerSize)).toNat < e.len) : f.len ≤ (x - (f.addr + headerSize)).toNat := by
  have hout := payload_outside hc he hf hne hx
  unfold headerSize
  bv_omega

theorem copy_chain (hc : Chain m a es) (he : e ∈ es) (hf : f ∈ es) (hne : e ≠ f) (hlen : e.len ≤ f.len) :
    ∃ m', copyFrom e.addr (e.addr + headerSize) (f.addr + headerSize) (2 ^ 32 + 1) 0 m = .ok m' ∧
    Chain m' a es ∧
      (∀ x, e.len ≤ (x - (f.addr + headerSize)).toNat → m' x = m x) ∧
      ∀ j : Word, j.toNat < e.len → m' (f.addr + headerSize + j) = m (e.addr + headerSize + j) := by
  have he1 := chain_header hc he
  have hfits := he1.fits
  have hsource : ∀ x, (x - (e.addr + headerSize)).toNat < e.len →
      e.len ≤ (x - (f.addr + headerSize)).toNat :=
    fun x hx => hlen.trans (payload_apart hc he hf hne hx)
  unfold Extent.stop at hfits
  obtain ⟨m', hcopy, hframe, hcopied⟩ :=
    copyFrom_spec (fun x hx => hlen.trans (payload_clear hc hf he hx)) hsource
    he1.size_toNat (i := 0) (Nat.zero_le _) (show e.len - 0 < 2 ^ 32 + 1 by omega)
  refine ⟨m', hcopy, ?_, fun x hx => hframe x (.inl hx), fun j hj => hcopied j (Nat.zero_le _) hj⟩
  exact chain_payload hc hf hlen fun x hx => hframe x (.inl hx)

end

end Ceblar
