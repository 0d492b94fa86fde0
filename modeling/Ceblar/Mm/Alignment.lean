import Ceblar.Mm.Requests

/-! # The alignment of the blocks

`krealloc` cuts a block at the size it is given, without rounding it, and from then on nothing
behind that place is aligned.
-/

namespace Ceblar

/-- `krealloc` cuts no block at a size that is not a multiple of 8, and asks for no size that wraps. -/
def HeapOp.CutsEven (s : HeapState) : HeapOp → Prop
  | .krealloc p n => p ≠ 0 → n.toNat ≤ 0xfffffff8 ∧
      (n.toNat % 8 = 0 ∨ field s.heap.mem (p - headerSize) .size < n ∨
        (field s.heap.mem (p - headerSize) .size).toNat < n.toNat + 24)
  | _ => True

instance (s : HeapState) : (op : HeapOp) → Decidable (op.CutsEven s)
  | .krealloc _ _ => inferInstanceAs (Decidable (_ → _))
  | .kmalloc _ | .kfree _ | .store _ _ _ | .frames _ => instDecidableTrue

/-- All headers on the list, and all pointers that were handed out, are multiples of 8. -/
structure HeapAligned (s : HeapState) : Prop where
  headers : ∀ b, OnList s.heap b → b.toNat % 8 = 0
  pointers : ∀ p ∈ s.live, p.toNat % 8 = 0

def Extent.Even (e : Extent) : Prop := e.start % 8 = 0 ∧ e.len % 8 = 0

theorem even_divide {e : Extent} {n : Nat} (he : e.Even) (hn : n % 8 = 0 ∨ e.len < n + 24) :
    ∀ d ∈ e.divide 16 8 n, d.Even := by
  obtain ⟨hstart, hlen⟩ := he
  unfold Extent.divide
  split
  · rename_i hroom
    have h8 : n % 8 = 0 := by omega
    intro d hd
    rcases List.mem_cons.mp hd with rfl | hd
    · exact ⟨hstart, h8⟩
    · rw [List.mem_singleton.mp hd]
      exact ⟨by simp only; omega, by simp only; omega⟩
  · intro d hd
    rw [List.mem_singleton.mp hd]
    exact ⟨hstart, hlen⟩

theorem roundUp_even (n : Word) : (roundUp n).toNat % 8 = 0 := by
  rw [roundUp_eq, BitVec.toNat_shiftLeft, toNat_shiftRight, Nat.shiftLeft_eq]
  omega

theorem even_replace {l r : List Extent} {e : Extent} {m : List Extent} (h : ∀ d ∈ l ++ e :: r, d.Even)
    (hmid : ∀ d ∈ m, d.Even) : ∀ d ∈ l ++ (m ++ r), d.Even := by
  intro d hd
  rcases List.mem_append.mp hd with hd | hd
  · exact h d (by simp [hd])
  rcases List.mem_append.mp hd with hd | hd
  · exact hmid d hd
  · exact h d (by simp [hd])

theorem even_rule : BlockRule (fun _ es => ∀ e ∈ es, e.Even) (fun _ _ => True) fun h p n =>
    n.toNat % 8 = 0 ∨ (field h.mem (p - headerSize) .size).toNat < n.toNat + 24 where
  grow hs hQ _ d hd := by
    rcases List.mem_append.mp hd with hd | hd
    · exact hQ d hd
    · have haligned := hs.aligned
      rw [List.mem_singleton.mp hd]
      refine ⟨?_, ?_⟩
      · simp only [Heap.newPage]
        omega
      · simp only [Heap.newPage]
  take {_ _ _ e _ _} hQ _ := by
    have he : e.Even := hQ e (by simp)
    exact even_replace hQ (even_divide (e := { e with free := false }) he (.inl (roundUp_even _)))
  cut hs hQ _ hcut := by
    rw [payload_sub, (chain_header hs.chain (by simp)).size_toNat] at hcut
    exact even_replace hQ (even_divide (hQ _ (by simp)) hcut)
  free {_ _ _ e _} _ hQ _ _ := by
    have he : e.Even := hQ e (by simp)
    refine coalesce_forall (fun e f he hf => ?_) (even_replace (m := [{ e with free := true }]) hQ ?_)
    · obtain ⟨hstart, hlen⟩ := he
      have hf8 := hf.2
      exact ⟨hstart, by simp only; omega⟩
    · intro d hd
      rw [List.mem_singleton.mp hd]
      exact he
  write hQ := hQ
  frames hQ := hQ

theorem HeapOp.CutsEven.ok {area : Word} {s : HeapState} {op : HeapOp} (h : op.CutsEven s) :
    op.Ok (fun _ _ => True)
      (fun h p n => n.toNat % 8 = 0 ∨
        (field h.mem (p - headerSize) .size).toNat < n.toNat + 24) area s := by
  cases op with
  | kmalloc | store | frames => trivial
  | kfree p => exact fun _ => trivial
  | krealloc p n =>
    intro hp
    obtain ⟨hround, hcut⟩ := h hp
    refine ⟨hround, fun _ => trivial, fun _ hfit => ?_, fun _ _ _ _ _ _ => trivial⟩
    rcases hcut with h8 | hlt | hshort
    · exact .inl h8
    · exact absurd hfit (BitVec.not_le.mpr hlt)
    · exact .inr hshort

theorem kept_aligned {s : HeapState} (hk : Kept (fun _ es => ∀ e ∈ es, e.Even) s.heap s.live) :
    HeapAligned s := by
  obtain ⟨es, hs, hQ, hlive⟩ := hk
  have haddr : ∀ e ∈ es, e.addr.toNat % 8 = 0 := by
    intro e he
    rw [toNat_addr (chain_header hs.chain he).fits]
    exact (hQ e he).1
  refine ⟨fun b hb => ?_, fun p hp => ?_⟩
  · obtain ⟨e, he, rfl⟩ := (onList_iff hs.chain b).mp hb
    exact haddr e he
  · obtain ⟨e, he, -, rfl⟩ := (hlive p).mp hp
    have := haddr e he
    unfold headerSize
    bv_omega

theorem heap_aligned {area : Word} (hA : HeapArea area) (mem : Mem) (vmm : Vmm) (ops : List HeapOp)
    (s : HeapState)
    (heven : Along (fun s op => HeapOp.CutsEven s op) (heapStep area) (heapBoot area mem vmm) ops)
    (hrun : runs (heapStep area) (heapBoot area mem vmm) ops = some s) : HeapAligned s := by
  apply kept_aligned
  refine runs_inv_along (fun s => Kept (fun _ es => ∀ e ∈ es, e.Even) s.heap s.live)
    (fun _ _ _ hk heven hstep => heapStep_kept even_rule hk heven.ok hstep) ?_ heven hrun
  refine ⟨[wholeArea area], (heapBoot_laid hA mem vmm).ordered hA, ?_, heapBoot_live area mem vmm⟩
  have haligned := hA.aligned
  intro e he
  rw [List.mem_singleton.mp he]
  exact ⟨by simp only [wholeArea]; omega, by simp only [wholeArea]⟩

theorem heap_aligned_cut : ∃ s, runs (heapStep 0x200000) (heapBoot 0x200000 (fun _ => 0) bareMachine)
    [.kmalloc 100, .krealloc 0x200010 48, .kmalloc 8] = some s ∧ s.live = [0x200050, 0x200010] ∧
    HeapAligned s := by
  have hrun : (runs (heapStep 0x200000) (heapBoot 0x200000 (fun _ => 0) bareMachine)
      [.kmalloc 100, .krealloc 0x200010 48, .kmalloc 8]).map (·.live) =
        some [0x200050, 0x200010] := by decide +kernel
  obtain ⟨s, hs, hlive⟩ := Option.map_eq_some_iff.mp hrun
  have heven : alongCheck (fun s op => decide (HeapOp.CutsEven s op)) (heapStep 0x200000)
      (heapBoot 0x200000 (fun _ => 0) bareMachine)
        [.kmalloc 100, .krealloc 0x200010 48, .kmalloc 8] = true := by
    decide +kernel
  exact ⟨s, hs, hlive, heap_aligned ⟨by decide, by decide, by decide⟩ _ _ _ s
    (along_of_check (fun _ _ h => of_decide_eq_true h) heven) hs⟩

/-- Cut at 51 bytes, the rest starts at 0x200043, and so does what is handed out of it. -/
theorem krealloc_misaligns : ∃ s, runs (heapStep 0x200000) (heapBoot 0x200000 (fun _ => 0) bareMachine)
    [.kmalloc 100, .krealloc 0x200010 51, .kmalloc 8] = some s ∧ s.live = [0x200053, 0x200010] ∧
    ¬ HeapAligned s := by
  have hrun : (runs (heapStep 0x200000) (heapBoot 0x200000 (fun _ => 0) bareMachine)
      [.kmalloc 100, .krealloc 0x200010 51, .kmalloc 8]).map (·.live) =
        some [0x200053, 0x200010] := by decide +kernel
  obtain ⟨s, hs, hlive⟩ := Option.map_eq_some_iff.mp hrun
  refine ⟨s, hs, hlive, fun haligned => ?_⟩
  exact absurd (haligned.pointers 0x200053 (by simp [hlive])) (by decide)

end Ceblar
