import Ceblar.Mm.Requests

/-! # What `krealloc` preserves

A size that wraps when it is rounded makes the copy run over the end of the new block and the blocks
behind it.
-/

namespace Ceblar

def LiveBlock (h : Heap) (p : Word) : Prop :=
  OnList h (p - headerSize) ∧ field h.mem (p - headerSize) .free = 0

def blockSize (h : Heap) (p : Word) : Word := field h.mem (p - headerSize) .size

structure SameBlock (h h' : Heap) (p : Word) : Prop where
  live : LiveBlock h' p
  size : blockSize h' p = blockSize h p
  bytes : ∀ i, i < blockSize h p → h'.mem (p + i) = h.mem (p + i)

/-- What a caller relies on when `krealloc(p, n)` returns `q`. -/
structure Preserves (live : List Word) (p n q : Word) (h h' : Heap) : Prop where
  served : q ≠ 0 → LiveBlock h' q ∧ n ≤ blockSize h' q ∧
    ∀ i, i < blockSize h p → i < n → h'.mem (q + i) = h.mem (p + i)
  left : q ≠ 0 → LiveBlock h' p → q = p
  others : ∀ x ∈ live, x ≠ p → SameBlock h h' x
  null : q = 0 → SameBlock h h' p

def HeapOp.NoWrap : HeapOp → Prop
  | .krealloc p n => p ≠ 0 → n.toNat ≤ 0xfffffff8
  | _ => True

instance : (op : HeapOp) → Decidable op.NoWrap
  | .krealloc _ _ => inferInstanceAs (Decidable (_ → _))
  | .kmalloc _ | .kfree _ | .store _ _ _ | .frames _ => instDecidableTrue

section

variable {area n : Word} {h h' : Heap} {es es' : List Extent} {e : Extent} {live : List Word}

theorem liveBlock_iff (hc : Chain h.mem h.head es) (p : Word) : LiveBlock h p ↔ LivePtr es p := by
  unfold LiveBlock LivePtr
  rw [onList_iff hc]
  constructor
  · rintro ⟨⟨e, he, haddr⟩, hfree⟩
    refine ⟨e, he, ?_, by rw [haddr]; bv_omega⟩
    rw [← haddr] at hfree
    rw [← Bool.not_eq_true, ← (chain_header hc he).free_ne]
    exact not_not.mpr hfree
  · rintro ⟨e, he, hlive, rfl⟩
    rw [payload_sub]
    refine ⟨⟨e, he, rfl⟩, ?_⟩
    rw [(chain_header hc he).free, hlive]
    rfl

theorem blockSize_toNat (he : HasHeader h.mem e) : (blockSize h (e.addr + headerSize)).toNat = e.len := by
  rw [blockSize, payload_sub, he.size_toNat]

theorem sameBlock (hc : Chain h.mem h.head es) (hc' : Chain h'.mem h'.head es') (he : e ∈ es)
    (he' : e ∈ es') (hlive : e.free = false)
    (hbytes : ∀ x, (x - (e.addr + headerSize)).toNat < e.len → h'.mem x = h.mem x) :
    SameBlock h h' (e.addr + headerSize) := by
  have hheader := chain_header hc he
  refine ⟨(liveBlock_iff hc' _).mpr ⟨e, he', hlive, rfl⟩, ?_, fun i hi => hbytes _ ?_⟩
  · apply BitVec.eq_of_toNat_eq
    rw [blockSize_toNat hheader, blockSize_toNat (chain_header hc' he')]
  · rw [BitVec.lt_def, blockSize_toNat hheader] at hi
    rwa [show e.addr + headerSize + i - (e.addr + headerSize) = i by bv_omega]

theorem preserves_of_blocks {f : Extent} (h' : Heap) (hc : Chain h.mem h.head es)
    (hc' : Chain h'.mem h'.head es')
    (hlist : ∀ p, p ∈ live ↔ LivePtr es p) (he : e ∈ es) (hf : f ∈ es') (hlive : f.free = false)
      (hroom : n.toNat ≤ f.len)
    (hfront : ∀ i : Word, i.toNat < e.len → i < n →
      h'.mem (f.addr + headerSize + i) = h.mem (e.addr + headerSize + i))
    (hleft : ∀ d ∈ es', d.free = false → d.addr = e.addr → f.addr = e.addr)
    (hothers : ∀ d ∈ es, d.free = false → d ≠ e →
      d ∈ es' ∧ ∀ x, (x - (d.addr + headerSize)).toNat < d.len → h'.mem x = h.mem x) :
    Preserves live (e.addr + headerSize) n (f.addr + headerSize) h h' := by
  refine ⟨fun _ => ⟨?_, ?_, fun i hi hin => hfront i ?_ hin⟩, fun _ hold => ?_, fun x hx hne => ?_,
    fun h0 => ?_⟩
  · exact (liveBlock_iff hc' _).mpr ⟨f, hf, hlive, rfl⟩
  · rwa [BitVec.le_def, blockSize_toNat (chain_header hc' hf)]
  · rwa [BitVec.lt_def, blockSize_toNat (chain_header hc he)] at hi
  · obtain ⟨d, hd, hdlive, heq⟩ := (liveBlock_iff hc' _).mp hold
    rw [hleft d hd hdlive (by bv_omega)]
  · obtain ⟨d, hd, hdlive, rfl⟩ := (hlist x).mp hx
    obtain ⟨hd', hbytes⟩ := hothers d hd hdlive (by rintro rfl; exact hne rfl)
    exact sameBlock hc hc' hd hd' hdlive hbytes
  · exact absurd h0 (payload_ne_zero (chain_header hc' hf))

theorem cut_preserves (hs : Ordered h es) (hlist : ∀ p, p ∈ live ↔ LivePtr es p) (he : e ∈ es)
    (hlive : e.free = false) (hn : n.toNat ≤ e.len) :
    Preserves live (e.addr + headerSize) n (e.addr + headerSize) h
      { h with mem := split h.mem e.addr n } := by
  obtain ⟨l, r, rfl⟩ := List.append_of_mem he
  have hheader := chain_header hs.chain he
  obtain ⟨len, rest, hdiv, hroom, -⟩ := divide_eq 16 8 n.toNat e
  have hsplit := chain_split hs.chain hn
  rw [show e.divide 16 8 n.toNat = _ from hdiv e.free] at hsplit
  refine preserves_of_blocks (f := { e with len, free := e.free }) { h with mem := split h.mem e.addr n }
    hs.chain hsplit hlist he (by simp) hlive (hroom hn) (fun i _ hi => ?_)
      (fun _ _ _ _ => rfl) fun d hd hdlive hde => ?_
  · -- in front of the new header
    have haddr := toNat_addr hheader.fits
    have hfits := hheader.fits
    unfold Extent.stop at hfits
    refine split_outside ?_ fun _ => ?_
    · unfold headerSize
      change 16 ≤ (e.addr + 16 + i - e.addr).toNat
      bv_omega
    · unfold headerSize
      change 16 ≤ (e.addr + 16 + i - (e.addr + 16 + n)).toNat
      bv_omega
  · refine ⟨?_, fun x hx => split_outside_block hheader hn (payload_outside hs.chain hd he hde hx)⟩
    rcases List.mem_append.mp hd with hd | hd
    · simp [hd]
    · simp [(List.mem_cons.mp hd).resolve_left hde]

theorem kmalloc_stays (area : Word) (hs : Ordered h es) (hn : n ≠ 0)
    (hstay : HasFit h (roundUp n) ∨ h.vmm.pmm.firstFree = none) :
    (∃ l g r, es = l ++ g :: r ∧ g.fits (roundUp n).toNat = true ∧ kmalloc area n h =
      .ok (g.addr + headerSize,
        { h with mem := setField (split h.mem g.addr (roundUp n)) g.addr .free 0 })) ∨
      kmalloc area n h = .ok (0, h) := by
  obtain ⟨fuel, hfuel⟩ : ∃ k, 2 ^ 20 = k + 1 := ⟨2 ^ 20 - 1, by norm_num⟩
  have hloop : kmalloc area n h = kmallocLoop (roundUp n) (fuel + 1) h := by
    unfold kmalloc
    rw [if_neg hs.head_ne, if_neg hn, hfuel]
  rw [hloop]
  by_cases hfit : ∃ e ∈ es, e.fits (roundUp n).toNat = true
  · obtain ⟨e, he, hfits⟩ := hfit
    obtain ⟨g, hg, hmem, hrun⟩ := kmallocLoop_fits fuel hs he hfits
    obtain ⟨l, r, rfl⟩ := List.append_of_mem hmem
    exact .inl ⟨l, g, r, rfl, hg, hrun⟩
  · right
    have hframe := hstay.resolve_left fun h0 => hfit ((hasFit_iff hs.chain _).mp h0)
    rcases hs.grow_cases with ⟨-, hgrow⟩ | ⟨hsome, -⟩
    · rw [kmallocLoop_grows hs fun e he hfits => hfit ⟨e, he, hfits⟩, hgrow]
      rfl
    · exact absurd hframe hsome

theorem move_preserves {l r : List Extent} {g : Extent} (hs : Ordered h (l ++ g :: r))
    (hlist : ∀ p, p ∈ live ↔ LivePtr (l ++ g :: r) p) (he : e ∈ l ++ g :: r) (hlive : e.free = false)
    (hn : n.toNat ≤ 0xfffffff8) (hlong : e.len < n.toNat) (hfit : g.fits (roundUp n).toNat = true) :
    ∃ m m', copyFrom e.addr (e.addr + headerSize) (g.addr + headerSize) (2 ^ 32 + 1) 0
        (setField (split h.mem g.addr (roundUp n)) g.addr .free 0) = .ok m ∧
      kfree (e.addr + headerSize) { h with mem := m } = .ok { h with mem := m' } ∧
      Preserves live (e.addr + headerSize) n (g.addr + headerSize) h { h with mem := m' } := by
  obtain ⟨hgfree, hgroom⟩ := fits_iff.mp hfit
  obtain ⟨f, hf, hfaddr⟩ := allocated_take (chain_spaced hs.chain) hfit
  have htake := chain_take hs.chain hgroom
  have hf1 := (hf.mem f hf.live).mpr (.inr rfl)
  have he1 := (hf.mem e hlive).mpr (.inl he)
  have hef : e ≠ f := fun heq => hf.fresh (heq ▸ he)
  have hlen : n.toNat ≤ f.len := (le_roundUp hn).trans hf.room
  obtain ⟨m, hcopy, hchain, hframe, hcopied⟩ := copy_chain htake he1 hf1 hef (by omega)
  rw [← hfaddr]
  obtain ⟨l1, r1, hsplit⟩ := List.append_of_mem he1
  rw [hsplit] at hchain
  obtain ⟨m', hkfree, hchain', hframe'⟩ := kfree_chain (h := { h with mem := m }) hchain hlive
  refine ⟨m, m', ?_, hkfree, ?_⟩
  · rw [hfaddr] at hcopy ⊢
    exact hcopy
  have hin : ∀ d : Extent, d.free = false →
      (d ∈ released l1 e r1 ↔ d ∈ l ++ (g.taken (roundUp n).toNat ++ r) ∧ d ≠ e) := by
    intro d hd
    rw [mem_released (chain_spaced hchain) hd, hsplit]
  -- giving back changes headers only, and taking changes the new block only
  have hclear : ∀ d ∈ l1 ++ e :: r1, ∀ x, (x - (d.addr + headerSize)).toNat < d.len → m' x = m x := by
    refine fun d hd x hx => hframe' x fun c hc => ?_
    by_contra hlt
    have := payload_clear hchain hd hc (x := x) (by omega)
    omega
  have hkeep : ∀ d ∈ l ++ g :: r, d.free = false → ∀ x, (x - (d.addr + headerSize)).toNat < d.len →
      setField (split h.mem g.addr (roundUp n)) g.addr .free 0 x = h.mem x := by
    refine fun d hd hdlive x hx => take_outside (chain_header hs.chain (by simp)) hgroom
      (payload_outside hs.chain hd (by simp) ?_ hx)
    rintro rfl
    exact absurd (hdlive.symm.trans hgfree) (by decide)
  refine preserves_of_blocks { h with mem := m' } hs.chain hchain' hlist he
    ((hin f hf.live).mpr ⟨hf1, hef.symm⟩) hf.live hlen (fun i hi _ => ?_) (fun d hd hdlive haddr => ?_)
    fun d hd hdlive hde => ?_
  · have hat : ∀ d : Extent, d.addr + headerSize + i - (d.addr + headerSize) = i := fun d => by bv_omega
    change m' _ = _
    rw [hclear f (hsplit ▸ hf1) _ (by rw [hat]; omega), hcopied i hi]
    exact hkeep e he hlive _ (by rw [hat]; exact hi)
  · obtain ⟨hd1, hde⟩ := (hin d hdlive).mp hd
    exact absurd (chain_addr_inj htake hd1 he1 haddr) hde
  · have hd1 := (hf.mem d hdlive).mpr (.inl hd)
    have hdf : d ≠ f := fun heq => hf.fresh (heq ▸ hd)
    refine ⟨(hin d hdlive).mpr ⟨hd1, hde⟩, fun x hx => ?_⟩
    change m' x = _
    rw [hclear d (hsplit ▸ hd1) x hx, hframe x, hkeep d hd hdlive x hx]
    exact (show e.len ≤ f.len by omega).trans (payload_apart htake hd1 hf1 hdf hx)

theorem null_preserves (hs : Ordered h es) (hlist : ∀ p, p ∈ live ↔ LivePtr es p) (he : e ∈ es)
    (hlive : e.free = false) : Preserves live (e.addr + headerSize) n 0 h h := by
  have hsame : ∀ d ∈ es, d.free = false → SameBlock h h (d.addr + headerSize) :=
    fun d hd hdlive => sameBlock hs.chain hs.chain hd hd hdlive fun _ _ => rfl
  refine ⟨fun h0 => absurd rfl h0, fun h0 => absurd rfl h0, fun x hx _ => ?_, fun _ => hsame e he hlive⟩
  obtain ⟨d, hd, hdlive, rfl⟩ := (hlist x).mp hx
  exact hsame d hd hdlive

/-! ## Any state -/

theorem ordered_rule : BlockRule (fun _ _ => True) (fun _ _ => True) fun _ _ _ => True where
  grow _ _ _ := trivial
  take _ _ := trivial
  cut _ _ _ _ := trivial
  free _ _ _ _ := trivial
  write _ := trivial
  frames _ := trivial

theorem HeapOp.NoWrap.ok {s : HeapState} {op : HeapOp} (h : op.NoWrap) :
    op.Ok (fun _ _ => True) (fun _ _ _ => True) area s := by
  cases op with
  | kmalloc | store | frames => trivial
  | kfree p => exact fun _ => trivial
  | krealloc p n =>
    exact fun hp => ⟨h hp, fun _ => trivial, fun _ _ => trivial, fun _ _ _ _ _ _ => trivial⟩

theorem Ordered.krealloc (hs : Ordered h es) (hlist : ∀ p, p ∈ live ↔ LivePtr es p) {p : Word}
    (hp : p ∈ live) (hpos : n ≠ 0) (hn : n.toNat ≤ 0xfffffff8)
    (hstay : n ≤ blockSize h p ∨ HasFit h (roundUp n) ∨ h.vmm.pmm.firstFree = none) :
    ∃ q h', krealloc area p n h = .ok (q, h') ∧ Preserves live p n q h h' := by
  obtain ⟨e, he, hlive, rfl⟩ := (hlist p).mp hp
  have hheader := chain_header hs.chain he
  rw [krealloc_eq hheader hlive hpos]
  rw [BitVec.le_def, blockSize_toNat hheader] at hstay
  by_cases hfit : n.toNat ≤ e.len
  · rw [if_pos hfit]
    exact ⟨_, _, rfl, cut_preserves hs hlist he hlive hfit⟩
  rw [if_neg hfit]
  rcases kmalloc_stays area hs hpos (hstay.resolve_left hfit) with ⟨l, g, r, rfl, hg, hk⟩ | hk
  · obtain ⟨m, m', hcopy, hkfree, hend⟩ := move_preserves hs hlist he hlive hn (by omega) hg
    have hq := payload_ne_zero (chain_header hs.chain (e := g) (by simp))
    refine ⟨_, _, ?_, hend⟩
    simp only [hk, if_neg hq, hcopy, hkfree, bind, Except.bind, pure, Except.pure]
  · refine ⟨0, h, ?_, null_preserves hs hlist he hlive⟩
    rw [hk]
    rfl

end

/-- In a state that is reached with no `krealloc` of a size that wraps, a `krealloc` that does not
grow the heap preserves what was in the block, and all other blocks. -/
theorem krealloc_preserves {area : Word} (hA : HeapArea area) (mem : Mem) (vmm : Vmm)
    (ops : List HeapOp) (s : HeapState)
    (hwrap : Along (fun _ op => HeapOp.NoWrap op) (heapStep area) (heapBoot area mem vmm) ops)
    (hrun : runs (heapStep area) (heapBoot area mem vmm) ops = some s) {p n : Word}
    (hp : p ∈ s.live) (hpos : n ≠ 0) (hn : n ≤ heapBytes)
    (hstay : n ≤ blockSize s.heap p ∨ HasFit s.heap (roundUp n) ∨ s.heap.vmm.pmm.firstFree = none) :
    ∃ q h', krealloc area p n s.heap = .ok (q, h') ∧ Preserves s.live p n q s.heap h' := by
  have hk : Kept (fun _ _ => True) s.heap s.live := by
    refine runs_inv_along (fun s => Kept (fun _ _ => True) s.heap s.live)
      (fun _ _ _ hk hwrap hstep => heapStep_kept ordered_rule hk hwrap.ok hstep) ?_ hwrap hrun
    exact ⟨[wholeArea area], (heapBoot_laid hA mem vmm).ordered hA, trivial, heapBoot_live area mem vmm⟩
  obtain ⟨es, hs, -, hlist⟩ := hk
  have hbytes : n.toNat ≤ heapBytes.toNat := hn
  have hmega : heapBytes.toNat = 0x100000 := by decide
  exact hs.krealloc hlist hp hpos (by omega) hstay

theorem krealloc_preserves_moved :
    ∃ s, runs (heapStep 0x200000) (heapBoot 0x200000 (fun _ => 0) bareMachine)
      [.kmalloc 32, .store 0x200010 5 7, .kmalloc 16] = some s ∧
    ∃ q h', krealloc 0x200000 0x200010 100 s.heap = .ok (q, h') ∧ q ≠ 0 ∧
      Preserves s.live 0x200010 100 q s.heap h' := by
  have hrun : (runs (heapStep 0x200000) (heapBoot 0x200000 (fun _ => 0) bareMachine)
      [.kmalloc 32, .store 0x200010 5 7, .kmalloc 16]).map (fun s => (s.live,
        (findFit (roundUp 100) (2 ^ 32) s.heap.head s.heap.mem).toOption,
        (krealloc 0x200000 0x200010 100 s.heap).toOption.map (·.1))) =
      some ([0x200040, 0x200010], some (some 0x200050), some 0x200060) := by decide +kernel
  obtain ⟨s, hs, heq⟩ := Option.map_eq_some_iff.mp hrun
  obtain ⟨hlive, heq⟩ := Prod.mk.inj heq
  obtain ⟨hfit, hq⟩ := Prod.mk.inj heq
  have hwrap : alongCheck (fun _ op => decide (HeapOp.NoWrap op)) (heapStep 0x200000)
      (heapBoot 0x200000 (fun _ => 0) bareMachine) [.kmalloc 32, .store 0x200010 5 7, .kmalloc 16] =
        true := by
    decide +kernel
  have hfits : HasFit s.heap (roundUp 100) := ⟨0x200050, findFit_some (toOption_eq_some hfit)⟩
  obtain ⟨q, h', hk, hend⟩ := @krealloc_preserves 0x200000 ⟨by decide, by decide, by decide⟩ _ _ _ s
    (along_of_check (fun _ _ h => of_decide_eq_true h) hwrap) hs 0x200010 100 (by simp [hlive])
    (by decide) (by decide) (.inr (.inl hfits))
  rw [hk] at hq
  obtain rfl : q = 0x200060 := Option.some.inj hq
  exact ⟨s, hs, _, h', hk, by decide, hend⟩

/-- The owner of the first block writes what reads as the header of a block of 1000 bytes, followed
by the one at 0x2000a0. -/
def forgedHeader : List HeapOp :=
  [(16, 0xe8), (17, 0x03), (24, 0xe7), (25, 0xa9), (26, 0xb1), (27, 0xc3), (28, 0xa0), (30, 0x20)].map
    fun (i, v) => .store 0x200010 i v

/-- The first of four blocks is reallocated to 2^32 - 1 bytes, when the second one is free. -/
def overrun : Option HeapState :=
  runs (heapStep 0x200000) (heapBoot 0x200000 (fun _ => 0) bareMachine)
    (.kmalloc 32 :: forgedHeader ++
      [.kmalloc 16, .kmalloc 64, .kmalloc 1024, .kfree 0x200040, .krealloc 0x200010 0xffffffff])

/-- It is copied into the 16 bytes of the second block and over the header of the third. When that
is cut to 500 bytes, a header is written into the fourth. -/
theorem krealloc_overruns : ∃ s, overrun = some s ∧ s.live = [0x200040, 0x2000b0, 0x200060] ∧
    s.heap.heapVirtTop = heapVirtStart ∧ HasFit s.heap (roundUp 500) ∧
    ∃ h', krealloc 0x200000 0x200060 500 s.heap = .ok (0x200060, h') ∧
      ¬ Preserves s.live 0x200060 500 0x200060 s.heap h' := by
  have hrun : overrun.map (fun s => (s.live, s.heap.heapVirtTop,
      (findFit (roundUp 500) (2 ^ 32) s.heap.head s.heap.mem).toOption)) =
      some ([0x200040, 0x2000b0, 0x200060], heapVirtStart, some (some 0x2004b0)) := by decide +kernel
  have hcut : overrun.map (fun s => (blockSize s.heap 0x2000b0, s.heap.mem 0x200254,
      (krealloc 0x200000 0x200060 500 s.heap).toOption.map fun r => (r.1, r.2.mem 0x200254))) =
      some (1024, 0, some (0x200060, 0xe4)) := by decide +kernel
  obtain ⟨s, hs, heq⟩ := Option.map_eq_some_iff.mp hrun
  rw [hs] at hcut
  obtain ⟨hlive, heq⟩ := Prod.mk.inj heq
  obtain ⟨htop, hfit⟩ := Prod.mk.inj heq
  obtain ⟨hsize, hcut⟩ := Prod.mk.inj (Option.some.inj hcut)
  obtain ⟨hold, hk⟩ := Prod.mk.inj hcut
  obtain ⟨⟨q, h'⟩, hk, heq⟩ := Option.map_eq_some_iff.mp hk
  obtain ⟨rfl, hnew⟩ := Prod.mk.inj heq
  refine ⟨s, hs, hlive, htop,
    ⟨0x2004b0, findFit_some (toOption_eq_some hfit)⟩, h', toOption_eq_some hk, fun hend => ?_⟩
  have hsame := (hend.others 0x2000b0 (by simp [hlive]) (by decide)).bytes 0x1a4 (by rw [hsize]; decide)
  rw [show (0x2000b0 : Word) + 0x1a4 = 0x200254 from rfl, hold] at hsame
  exact absurd (hnew.symm.trans hsame) (by decide)

end Ceblar
