import Ceblar.Mm.HeapOps
import Ceblar.Mm.Isolation

/-! # Runs of the heap

Any sequence of `kmalloc`, `kfree` and `krealloc` of live pointers, with the owners writing into
their blocks and the rest of the kernel taking and returning frames in between.
-/

namespace Ceblar

structure HeapState where
  heap : Heap
  live : List Word

inductive HeapOp where
  | kmalloc (n : Word)
  | kfree (p : Word)
  | krealloc (p n : Word)
  /-- The owner of `p` writes a byte of its block. -/
  | store (p i : Word) (v : Byte)
  /-- Other code takes and returns frames. -/
  | frames (pmm : Pmm)

def heapStep (area : Word) (s : HeapState) : HeapOp → Option HeapState
  | .kmalloc n =>
    match kmalloc area n s.heap with
    | .error _ => none
    | .ok (p, heap) => some ⟨heap, if p = 0 then s.live else p :: s.live⟩
  | .kfree p =>
    if p = 0 ∨ p ∈ s.live then
      match kfree p s.heap with
      | .error _ => none
      | .ok heap => some ⟨heap, s.live.filter (· ≠ p)⟩
    else none
  | .krealloc p n =>
    if p = 0 ∨ p ∈ s.live then
      match krealloc area p n s.heap with
      | .error _ => none
      | .ok (q, heap) => some ⟨heap, reallocated n p q s.live⟩
    else none
  | .store p i v =>
    if p ∈ s.live ∧ i < field s.heap.mem (p - headerSize) .size then
      some { s with heap := { s.heap with mem := Function.update s.heap.mem (p + i) v } }
    else none
  | .frames pmm => some { s with heap := { s.heap with vmm := { s.heap.vmm with pmm } } }

def heapBoot (area : Word) (mem : Mem) (vmm : Vmm) : HeapState where
  heap := heapInit area { mem, head := 0, heapVirtTop := heapVirtStart, vmm := vmmInit vmm }
  live := []

def HeapOp.Safe (area : Word) (s : HeapState) : HeapOp → Prop
  | .kfree p => p ≠ 0 → KeepsGap s.heap p
  | .krealloc p n => p ≠ 0 → KreallocSafe area s.heap p n
  | _ => True

def HeapOp.Ok (OkFree : Heap → Word → Prop) (OkCut : Heap → Word → Word → Prop) (area : Word)
    (s : HeapState) : HeapOp → Prop
  | .kfree p => p ≠ 0 → OkFree s.heap p
  | .krealloc p n => p ≠ 0 → ReallocOk OkFree OkCut area s.heap p n
  | _ => True

/-! ## Every step keeps the blocks in place -/

def HeapInv (area : Word) (s : HeapState) : Prop :=
  ∃ es, Laid area s.heap es ∧ ∀ p, p ∈ s.live ↔ LivePtr es p

section

variable {area : Word} {s s' : HeapState}

theorem heapInv_iff (hA : HeapArea area) : HeapInv area s ↔ Kept (InPlace area) s.heap s.live := by
  unfold HeapInv Kept
  simp only [laid_iff hA, and_assoc]

def wholeArea (area : Word) : Extent := { start := area.toNat, len := 0xffff0, free := true }

theorem heapBoot_laid (hA : HeapArea area) (mem : Mem) (vmm : Vmm) :
    Laid area (heapBoot area mem vmm).heap [wholeArea area] := by
  obtain ⟨e, he⟩ : ∃ e, e = wholeArea area := ⟨_, rfl⟩
  have hstart : e.start = area.toNat := by rw [he]; rfl
  have hlen : e.len = 0xffff0 := by rw [he]; rfl
  have hpos := hA.pos
  have halign := hA.aligned
  have hbelow := hA.below
  have hstop : e.stop 16 = area.toNat + 0x100000 := by
    unfold Extent.stop
    omega
  have haddr : e.addr = area := by rw [Extent.addr, hstart, BitVec.ofNat_toNat, BitVec.setWidth_eq]
  have hsize : BitVec.ofNat 32 e.len = heapBytes - headerSize := by
    rw [hlen]
    decide
  have hfresh := chain_fresh (m := mem) (e := e) (by omega) (by omega) (by rw [he]; rfl)
  rw [haddr, hsize] at hfresh
  have htop : (heapBoot area mem vmm).heap.heapVirtTop.toNat = 0xd0000000 := by
    show heapVirtStart.toNat = 0xd0000000
    decide
  rw [← he]
  refine ⟨hfresh,
    ⟨[e], [], rfl, ⟨hstart, hstop⟩, htop.symm⟩, by omega, by omega, ?_, fun a ha hlt => by omega⟩
  show bootTables 833 = none
  decide

theorem heapBoot_live (area : Word) (mem : Mem) (vmm : Vmm) (p : Word) :
    p ∈ (heapBoot area mem vmm).live ↔ LivePtr [wholeArea area] p := by
  simp [heapBoot, LivePtr, wholeArea]

theorem heapBoot_inv (hA : HeapArea area) (mem : Mem) (vmm : Vmm) :
    HeapInv area (heapBoot area mem vmm) :=
  ⟨[wholeArea area], heapBoot_laid hA mem vmm, heapBoot_live area mem vmm⟩

theorem heapStep_kept {Q : Heap → List Extent → Prop} {OkFree : Heap → Word → Prop}
    {OkCut : Heap → Word → Word → Prop} (R : BlockRule Q OkFree OkCut) {op : HeapOp}
    (hk : Kept Q s.heap s.live) (hok : op.Ok OkFree OkCut area s)
    (hstep : heapStep area s op = some s') : Kept Q s'.heap s'.live := by
  cases op with
  | kmalloc n =>
    simp only [heapStep] at hstep
    split at hstep
    · cases hstep
    · rename_i p heap hrun
      cases hstep
      exact R.kmalloc hk hrun
  | kfree p =>
    simp only [heapStep, Option.ite_none_right_eq_some] at hstep
    obtain ⟨hp, hstep⟩ := hstep
    split at hstep
    · cases hstep
    · rename_i heap hrun
      cases hstep
      exact R.kfree hk hp hok hrun
  | krealloc p n =>
    simp only [heapStep, Option.ite_none_right_eq_some] at hstep
    obtain ⟨hp, hstep⟩ := hstep
    split at hstep
    · cases hstep
    · rename_i q heap hrun
      cases hstep
      by_cases hp0 : p = 0
      · -- `krealloc` of null is `kmalloc`
        subst hp0
        have hzero := hk.zero_not_mem
        have hfilter : s.live.filter (· ≠ 0) = s.live := by
          rw [List.filter_eq_self]
          intro x hx
          simpa using fun h0 : x = 0 => hzero (h0 ▸ hx)
        have hnew := R.kmalloc hk hrun
        rwa [reallocated, hfilter, ite_self]
      · exact R.krealloc hk (hp.resolve_left hp0) (hok hp0) hrun
  | store p i v =>
    simp only [heapStep, Option.ite_none_right_eq_some] at hstep
    obtain ⟨⟨hp, hi⟩, hstep⟩ := hstep
    cases hstep
    exact R.store hk hp hi v
  | frames pmm =>
    cases hstep
    exact R.otherFrames hk pmm

theorem HeapOp.Safe.ok {op : HeapOp} (hsafe : op.Safe area s) :
    op.Ok KeepsGap (fun _ _ _ => True) area s := by
  cases op with
  | kmalloc | store | frames => trivial
  | kfree p => exact hsafe
  | krealloc p n => exact fun hp => (hsafe hp).ok

theorem heapStep_inv (hA : HeapArea area) {op : HeapOp} (h : HeapInv area s) (hsafe : op.Safe area s)
    (hstep : heapStep area s op = some s') : HeapInv area s' := by
  rw [heapInv_iff hA] at h ⊢
  exact heapStep_kept (inPlace_rule area) h hsafe.ok hstep

/-! ## The blocks of a reached state -/

def blockEnd (m : Mem) (b : Word) : Nat := b.toNat + 16 + (field m b .size).toNat

/-- Block `b` lies in `[lo, hi)`, header and payload. -/
def BlockIn (m : Mem) (b : Word) (lo hi : Nat) : Prop := lo ≤ b.toNat ∧ blockEnd m b ≤ hi

/-- The blocks `bs` that the list from `head` goes through are backed by memory and disjoint. -/
structure BlocksBacked (area : Word) (h : Heap) (bs : List Word) : Prop where
  linked : Linked (nextBlock h.mem) (ptr h.head) bs
  inside : ∀ b ∈ bs, BlockIn h.mem b area.toNat (area.toNat + heapBytes.toNat) ∨
    BlockIn h.mem b heapVirtStart.toNat h.heapVirtTop.toNat
  disjoint : bs.Pairwise fun b c => blockEnd h.mem b ≤ c.toNat ∨ blockEnd h.mem c ≤ b.toNat
  mapped : ∀ a, heapVirtStart ≤ a → a < h.heapVirtTop → h.vmm.kernelFrame a ≠ none

theorem blockEnd_eq {m : Mem} {e : Extent} (he : HasHeader m e) : blockEnd m e.addr = e.stop 16 := by
  rw [blockEnd, he.size_toNat, toNat_addr he.fits, Extent.stop]

theorem Laid.backed {h : Heap} {es : List Extent} (hL : Laid area h es) :
    BlocksBacked area h (es.map Extent.addr) where
  linked := chain_linked hL.chain
  inside := by
    intro b hb
    obtain ⟨e, he, rfl⟩ := List.mem_map.mp hb
    have hheader := chain_header hL.chain he
    unfold BlockIn
    rw [blockEnd_eq hheader, toNat_addr hheader.fits]
    obtain ⟨st, g, rfl, hst, hg⟩ := hL.tiled
    rcases List.mem_append.mp he with he | he
    · exact Or.inl (hst.bounds he)
    · exact Or.inr (hg.bounds he)
  disjoint := by
    rw [List.pairwise_map]
    refine (chain_spaced hL.chain).imp_of_mem fun {a b} ha hb hab => Or.inl ?_
    rw [blockEnd_eq (chain_header hL.chain ha), toNat_addr (chain_header hL.chain hb).fits]
    exact hab
  mapped := fun a ha hlt => hL.mapped a (BitVec.le_def.mp ha) (BitVec.lt_def.mp hlt)

end

/-- In every run whose calls of `krealloc` are safe, the blocks are backed and disjoint. -/
theorem heap_blocks_backed {area : Word} (hA : HeapArea area) (mem : Mem) (vmm : Vmm)
    (ops : List HeapOp) (s : HeapState)
    (hsafe : Along (fun s op => HeapOp.Safe area s op) (heapStep area) (heapBoot area mem vmm) ops)
    (hrun : runs (heapStep area) (heapBoot area mem vmm) ops = some s) :
    ∃ bs, BlocksBacked area s.heap bs := by
  obtain ⟨es, hL, -⟩ := runs_inv_along (HeapInv area) (fun _ _ _ h hC hstep => heapStep_inv hA h hC hstep)
    (heapBoot_inv hA mem vmm) hsafe hrun
  exact ⟨_, hL.backed⟩

def HeapOp.check (s : HeapState) : HeapOp → Bool
  | .kfree p => field (setField s.heap.mem (p - headerSize) .free 1) heapVirtStart .free == 0
  | .krealloc p n =>
    decide (n ≠ 0 ∧ n.toNat ≤ 0xfffffff8) && decide (n ≤ field s.heap.mem (p - headerSize) .size)
  | _ => true

theorem HeapOp.safe_of_check (area : Word) (s : HeapState) (op : HeapOp) (h : op.check s = true) :
    op.Safe area s := by
  cases op with
  | kmalloc | store | frames => trivial
  | kfree p =>
    intro _ bs _ b _ hbridge
    exact hbridge.2.2 (by simpa [HeapOp.check] using h)
  | krealloc p n =>
    simp only [HeapOp.check, Bool.and_eq_true, decide_eq_true_eq] at h
    obtain ⟨⟨hn, hround⟩, hfit⟩ := h
    exact fun _ => ⟨hround, fun h0 => absurd h0 hn, fun hlt => absurd hfit (BitVec.not_le.mpr hlt)⟩

def growRun : List HeapOp := [.kmalloc 1048560, .kmalloc 8, .kfree 0x200010, .krealloc 0xd0000010 4]

theorem heap_blocks_backed_growRun :
    ∃ s, runs (heapStep 0x200000) (heapBoot 0x200000 (fun _ => 0) bareMachine) growRun = some s ∧
      ∃ bs, BlocksBacked 0x200000 s.heap bs := by
  have hsome :
      (runs (heapStep 0x200000) (heapBoot 0x200000 (fun _ => 0) bareMachine) growRun).isSome = true := by
    decide +kernel
  obtain ⟨s, hs⟩ := Option.isSome_iff_exists.mp hsome
  have hcheck : alongCheck (fun s op => HeapOp.check s op) (heapStep 0x200000)
      (heapBoot 0x200000 (fun _ => 0) bareMachine) growRun = true := by decide +kernel
  exact ⟨s, hs, heap_blocks_backed ⟨by decide, by decide, by decide⟩ _ _ growRun s
    (along_of_check (HeapOp.safe_of_check 0x200000) hcheck) hs⟩

/-- The grown block is freed too, and one block runs over the end of `heap_area`, at 0x300000. -/
theorem heap_merge_crosses_gap :
    (runs (heapStep 0x200000) (heapBoot 0x200000 (fun _ => 0) bareMachine)
        [.kmalloc 1048560, .kmalloc 8, .kfree 0x200010, .kfree 0xd0000010]).map
      (fun s => (s.heap.head, blockEnd s.heap.mem s.heap.head)) = some (0x200000, 0x301000) := by
  decide +kernel

end Ceblar
