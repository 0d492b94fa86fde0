import Ceblar.Mm.HeapRun

/-! # Every byte of `heap_area`

As long as the heap does not grow, the blocks cover `heap_area` without a gap.
-/

namespace Ceblar

def HeapOp.size : HeapOp → Word
  | .kmalloc n | .krealloc _ n => n
  | _ => 0

/-- The call asks for no more than there is, and the heap does not grow. -/
def HeapOp.Within (area : Word) (s : HeapState) (op : HeapOp) : Prop :=
  op.size ≤ heapBytes ∧ ∀ s', heapStep area s op = some s' → s'.heap.heapVirtTop = s.heap.heapVirtTop

/-- The blocks `bs` of the list cover `heap_area`. -/
structure Covers (area : Word) (h : Heap) (bs : List Word) : Prop where
  linked : Linked (nextBlock h.mem) (ptr h.head) bs
  first : bs.head? = some area
  joined : bs.IsChain fun b c => blockEnd h.mem b = c.toNat
  last : ∀ b ∈ bs.getLast?, blockEnd h.mem b = area.toNat + heapBytes.toNat
  total : (bs.map fun b => (field h.mem b .size).toNat + 16).sum = heapBytes.toNat

structure NoByteLost (area : Word) (s : HeapState) : Prop where
  covered : ∃ bs, Covers area s.heap bs
  /-- After a `kfree` no two neighbours are free. -/
  merged : ∀ p ∈ s.live, ∀ s', heapStep area s (.kfree p) = some s' →
    ∃ bs, Covers area s'.heap bs ∧
      bs.IsChain fun b c => ¬ (field s'.heap.mem b .free ≠ 0 ∧ field s'.heap.mem c .free ≠ 0)
  /-- When all pointers are freed, there is one free block again. -/
  whole : s.live = [] → Covers area s.heap [area] ∧ field s.heap.mem area .free = 1 ∧
    field s.heap.mem area .size = heapBytes - headerSize

/-- The blocks tile `heap_area`, and if all of them are free there is one. -/
def Filled (area : Word) (h : Heap) (es : List Extent) : Prop :=
  h.heapVirtTop = heapVirtStart →
    Tiles 16 area.toNat (area.toNat + 0x100000) es ∧ ((∀ e ∈ es, e.free = true) → es.length ≤ 1)

section

variable {area : Word} {h : Heap} {es l r : List Extent} {e : Extent} {s : HeapState}

theorem Filled.replace {mid : List Extent} {m : Mem} (hQ : Filled area h (l ++ e :: r))
    (hmid : Tiles 16 e.start (e.stop 16) mid) (hlive : ∃ d ∈ mid, d.free = false) :
    Filled area { h with mem := m } (l ++ (mid ++ r)) := by
  intro htop
  refine ⟨(hQ htop).1.replace hmid, fun hall => ?_⟩
  obtain ⟨d, hd, hfree⟩ := hlive
  exact absurd (hfree.symm.trans (hall d (by simp [hd]))) (by decide)

theorem exists_live_divide (hlive : e.free = false) (n : Nat) :
    ∃ d ∈ e.divide 16 8 n, d.free = false := by
  obtain ⟨len, rest, hdiv, -⟩ := divide_eq 16 8 n e
  rw [show e.divide 16 8 n = _ from hdiv e.free]
  exact ⟨_, List.mem_cons_self, hlive⟩

theorem length_le_one_of_free {bs : List Extent}
    (hchain : bs.IsChain fun a b => ¬ (a.free = true ∧ b.free = true))
    (hall : ∀ e ∈ bs, e.free = true) : bs.length ≤ 1 := by
  rcases bs with _ | ⟨e, _ | ⟨f, bs⟩⟩
  · simp
  · simp
  · exact absurd ⟨hall e (by simp), hall f (by simp)⟩ (List.isChain_cons_cons.mp hchain).1

theorem filled_rule (area : Word) : BlockRule (Filled area) (fun _ _ => True) fun _ _ _ => True where
  grow hs _ hg htop := by
    have hpage := (hs.grow hg).2.top
    have hlow := hs.top_ge
    rw [htop] at hpage
    have hstart : heapVirtStart.toNat = 0xd0000000 := by decide
    omega
  take hQ _ := hQ.replace (tiles_taken _ _) (exists_live_divide rfl _)
  cut _ hQ hlive _ := hQ.replace (tiles_divide 8 _) (exists_live_divide hlive _)
  free {_ _ _ e _} _ hQ _ _ htop := by
    have hfreed : Tiles 16 e.start (e.stop 16) [{ e with free := true }] := ⟨rfl, rfl⟩
    refine ⟨tiles_coalesce ((hQ htop).1.replace hfreed), fun hall => ?_⟩
    exact length_le_one_of_free (coalesce_isChain _) hall
  write hQ := hQ
  frames hQ := hQ

theorem HeapOp.Within.ok {op : HeapOp} (h : op.Within area s) :
    op.Ok (fun _ _ => True) (fun _ _ _ => True) area s := by
  cases op with
  | kmalloc | store | frames => trivial
  | kfree p => exact fun _ => trivial
  | krealloc p n =>
    have hsize : n.toNat ≤ heapBytes.toNat := h.1
    have hbytes : heapBytes.toNat = 0x100000 := by decide
    exact fun _ => ⟨by omega, fun _ => trivial, fun _ _ => trivial, fun _ _ _ _ _ _ => trivial⟩

/-! ## The list as it is in memory -/

theorem covers_of_tiles (hc : Chain h.mem h.head es)
    (ht : Tiles 16 area.toNat (area.toNat + 0x100000) es) :
    Covers area h (es.map Extent.addr) := by
  have hends : ∀ e ∈ es, blockEnd h.mem e.addr = e.stop 16 := fun e he => blockEnd_eq (chain_header hc he)
  have hbytes : heapBytes.toNat = 0x100000 := by decide
  refine ⟨chain_linked hc, ?_, ?_, fun b hb => ?_, ?_⟩
  · cases es with
    | nil =>
      have hempty : area.toNat = area.toNat + 0x100000 := ht
      omega
    | cons e es =>
      rw [List.map_cons, List.head?_cons, Extent.addr, ht.1, BitVec.ofNat_toNat, BitVec.setWidth_eq]
  · rw [List.isChain_map]
    refine List.IsChain.imp_of_mem_imp ?_ ht.isChain
    intro a b ha hb hab
    rw [hends a ha, toNat_addr (chain_header hc hb).fits]
    exact hab
  · obtain ⟨e, he, rfl⟩ := Option.map_eq_some_iff.mp (List.getLast?_map ▸ hb)
    obtain ⟨l, rfl⟩ := List.getLast?_eq_some_iff.mp he
    obtain ⟨mid, -, -, hstop⟩ := tiles_append.mp ht
    rw [hends e (by simp), hbytes]
    exact hstop
  · have hsum := ht.sum
    rw [List.map_map]
    have hlens : es.map (((fun b => (field h.mem b .size).toNat + 16)) ∘ Extent.addr) =
        es.map fun e => e.len + 16 := by
      apply List.map_congr_left
      intro e he
      simp only [Function.comp_apply, (chain_header hc he).size_toNat]
    rw [hlens]
    omega

theorem wholeArea_addr (area : Word) : (wholeArea area).addr = area := by
  rw [Extent.addr, wholeArea, BitVec.ofNat_toNat, BitVec.setWidth_eq]

theorem eq_wholeArea (ht : Tiles 16 area.toNat (area.toNat + 0x100000) [e]) (hfree : e.free = true) :
    e = wholeArea area := by
  obtain ⟨hstart, hstop⟩ := ht
  have hlen : e.len = 0xffff0 := by
    simp only [Tiles, Extent.stop] at hstop
    omega
  obtain ⟨start, len, free⟩ := e
  simp only at hstart hlen hfree
  rw [wholeArea, hstart, hlen, hfree]

theorem Kept.noByteLost (hk : Kept (Filled area) s.heap s.live)
    (htop : s.heap.heapVirtTop = heapVirtStart) :
    NoByteLost area s := by
  obtain ⟨es, hs, hQ, hlive⟩ := hk
  obtain ⟨ht, hone⟩ := hQ htop
  refine ⟨⟨_, covers_of_tiles hs.chain ht⟩, fun p hp s' hstep => ?_, fun hnone => ?_⟩
  · obtain ⟨e, he, hfree, rfl⟩ := (hlive p).mp hp
    obtain ⟨l, r, rfl⟩ := List.append_of_mem he
    obtain ⟨m, hkfree, hchain, -⟩ := kfree_chain hs.chain hfree
    simp only [heapStep, if_pos (Or.inr hp), hkfree] at hstep
    cases hstep
    have hrel := ((filled_rule area).free (m := m) hs hQ hfree trivial htop).1
    refine ⟨_, covers_of_tiles (h := { s.heap with mem := m }) hchain hrel, ?_⟩
    rw [List.isChain_map]
    refine List.IsChain.imp_of_mem_imp (fun a b ha hb hab => ?_) (coalesce_isChain _)
    rwa [(chain_header hchain ha).free_ne, (chain_header hchain hb).free_ne]
  · have hall : ∀ e ∈ es, e.free = true := by
      intro e he
      rw [← Bool.not_eq_false]
      intro hfree
      have hmem := (hlive (e.addr + headerSize)).mpr ⟨e, he, hfree, rfl⟩
      rw [hnone] at hmem
      cases hmem
    obtain ⟨e, rfl⟩ : ∃ e, es = [e] := by
      rw [← List.length_eq_one_iff]
      have hpos := List.length_pos_iff.mpr hs.nonempty
      have := hone hall
      omega
    obtain rfl := eq_wholeArea ht (hall e (by simp))
    have hcovers := covers_of_tiles hs.chain ht
    have hheader := chain_header hs.chain (e := wholeArea area) (by simp)
    have hsize := hheader.size
    have hfree := hheader.free
    rw [wholeArea_addr] at hsize hfree
    rw [List.map_singleton, wholeArea_addr] at hcovers
    exact ⟨hcovers, hfree, hsize.trans (show BitVec.ofNat 32 0xffff0 = heapBytes - headerSize by decide)⟩

end

/-- In every run that asks for no more than `heap_area` holds and does not grow the heap, no byte is
lost. -/
theorem no_byte_lost {area : Word} (hA : HeapArea area) (mem : Mem) (vmm : Vmm) (ops : List HeapOp)
    (s : HeapState)
    (hin : Along (fun s op => HeapOp.Within area s op) (heapStep area) (heapBoot area mem vmm) ops)
    (hrun : runs (heapStep area) (heapBoot area mem vmm) ops = some s) : NoByteLost area s := by
  have hinv : Kept (Filled area) s.heap s.live ∧ s.heap.heapVirtTop = heapVirtStart := by
    refine runs_inv_along (fun s => Kept (Filled area) s.heap s.live ∧ s.heap.heapVirtTop = heapVirtStart)
      (fun _ _ s' hk hwithin hstep => ?_) ?_ hin hrun
    · exact ⟨heapStep_kept (filled_rule area) hk.1 hwithin.ok hstep, (hwithin.2 s' hstep).trans hk.2⟩
    · have hL := heapBoot_laid hA mem vmm
      refine ⟨⟨[wholeArea area], hL.ordered hA,
        fun _ => ⟨?_, fun _ => le_refl 1⟩, heapBoot_live area mem vmm⟩, rfl⟩
      refine ⟨rfl, ?_⟩
      show area.toNat + 16 + 0xffff0 = area.toNat + 0x100000
      omega
  exact hinv.1.noByteLost hinv.2

/-- A test that is enough for a step to stay within `heap_area`. -/
def HeapOp.within (area : Word) (s : HeapState) (op : HeapOp) : Bool :=
  decide (op.size ≤ heapBytes) &&
    (heapStep area s op).all fun s' => s'.heap.heapVirtTop == s.heap.heapVirtTop

theorem within_of_check (area : Word) (s : HeapState) (op : HeapOp) (h : op.within area s = true) :
    op.Within area s := by
  simp only [HeapOp.within, Bool.and_eq_true, decide_eq_true_eq] at h
  refine ⟨h.1, fun s' hstep => ?_⟩
  rw [hstep] at h
  simpa using h.2

theorem no_byte_lost_two : ∃ s, runs (heapStep 0x200000) (heapBoot 0x200000 (fun _ => 0) bareMachine)
      [.kmalloc 100, .kmalloc 200, .krealloc 0x200010 40, .kfree 0x200010, .kfree 0x200088] = some s ∧
    s.live = [] ∧ NoByteLost 0x200000 s := by
  have hrun : (runs (heapStep 0x200000) (heapBoot 0x200000 (fun _ => 0) bareMachine)
      [.kmalloc 100, .kmalloc 200, .krealloc 0x200010 40, .kfree 0x200010, .kfree 0x200088]).map
        (·.live) = some [] := by
    decide +kernel
  have hin : alongCheck (fun s op => HeapOp.within 0x200000 s op) (heapStep 0x200000)
      (heapBoot 0x200000 (fun _ => 0) bareMachine)
      [.kmalloc 100, .kmalloc 200, .krealloc 0x200010 40, .kfree 0x200010, .kfree 0x200088] = true := by
    decide +kernel
  obtain ⟨s, hs, hlive⟩ := Option.map_eq_some_iff.mp hrun
  exact ⟨s, hs, hlive, no_byte_lost ⟨by decide, by decide, by decide⟩ _ _ _ s
    (along_of_check (within_of_check 0x200000) hin) hs⟩

end Ceblar
