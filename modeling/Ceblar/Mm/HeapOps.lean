import Ceblar.Mm.HeapRule

/-! # What the heap keeps

The blocks tile `heap_area` and the pages the heap grew by, and every function of the heap keeps
that, with two exceptions.
-/

namespace Ceblar

/-- Where the linker puts `heap_area`: in the part of memory that `vmm_init` maps for the kernel. -/
structure HeapArea (area : Word) : Prop where
  aligned : area.toNat % 16 = 0
  pos : 0 < area.toNat
  below : area.toNat + 0x100000 ≤ 0x400000

/-- The blocks tile `heap_area` and the pages the heap grew by, and those pages are mapped. -/
structure Laid (area : Word) (h : Heap) (es : List Extent) : Prop where
  chain : Chain h.mem h.head es
  tiled : ∃ st g, es = st ++ g ∧ Tiles 16 area.toNat (area.toNat + 0x100000) st ∧
    Tiles 16 0xd0000000 h.heapVirtTop.toNat g
  top_le : h.heapVirtTop.toNat ≤ 0xd0400000
  aligned : h.heapVirtTop.toNat % 4096 = 0
  oneTable : h.vmm.kernelTables 833 = none
  mapped : ∀ a : Word, 0xd0000000 ≤ a.toNat → a.toNat < h.heapVirtTop.toNat → h.vmm.kernelFrame a ≠ none

structure InPlace (area : Word) (h : Heap) (es : List Extent) : Prop where
  tiled : ∃ st g, es = st ++ g ∧ Tiles 16 area.toNat (area.toNat + 0x100000) st ∧
    Tiles 16 0xd0000000 h.heapVirtTop.toNat g
  mapped : ∀ a : Word, 0xd0000000 ≤ a.toNat → a.toNat < h.heapVirtTop.toNat → h.vmm.kernelFrame a ≠ none

def Bridges (m : Mem) (b : Word) : Prop :=
  field m b .next = heapVirtStart ∧ field m b .free ≠ 0 ∧ field m heapVirtStart .free ≠ 0

def KeepsGap (h : Heap) (p : Word) : Prop :=
  let m := setField h.mem (p - headerSize) .free 1
  ∀ bs, Linked (nextBlock m) (ptr h.head) bs → ∀ b ∈ bs, ¬ Bridges m b

/-- What a run must not do in a `krealloc`: a size that rounds to less than itself, or a call of
`kfree` that closes the gap. -/
def KreallocSafe (area : Word) (h : Heap) (p n : Word) : Prop :=
  n.toNat ≤ 0xfffffff8 ∧ (n = 0 → KeepsGap h p) ∧
    (field h.mem (p - headerSize) .size < n → ∀ q h1 m, kmalloc area n h = .ok (q, h1) →
      copyFrom (p - headerSize) p q (2 ^ 32 + 1) 0 h1.mem = .ok m → KeepsGap { h1 with mem := m } p)

section

variable {area : Word} {h h' : Heap} {es l r : List Extent} {e : Extent} {m : Mem}

theorem Laid.ordered (hA : HeapArea area) (hL : Laid area h es) : Ordered h es := by
  obtain ⟨st, g, rfl, hst, hg⟩ := hL.tiled
  have hbelow := hA.below
  have htop := hg.le
  refine ⟨hL.chain, ?_, fun e he => ?_, by omega, hL.top_le, hL.aligned, hL.oneTable⟩
  · rcases st with _ | ⟨e, st⟩
    · simp only [Tiles] at hst
      omega
    · simp
  · rcases List.mem_append.mp he with he | he
    · have := (hst.bounds he).2
      omega
    · exact (hg.bounds he).2

theorem laid_iff (hA : HeapArea area) : Laid area h es ↔ Ordered h es ∧ InPlace area h es :=
  ⟨fun hL => ⟨hL.ordered hA, hL.tiled, hL.mapped⟩,
    fun ⟨hs, hQ⟩ => ⟨hs.chain, hQ.tiled, hs.top_le, hs.aligned, hs.oneTable, hQ.mapped⟩⟩

theorem InPlace.grow (hs : Ordered h es) (hQ : InPlace area h es) (hg : grow h = .ok (0, h')) :
    InPlace area h' (es ++ [h.newPage]) := by
  obtain ⟨-, htop, ⟨pmm, page, hvmm⟩, hmapped⟩ := hs.grow hg
  obtain ⟨st, g, rfl, hst, hgt⟩ := hQ.tiled
  have halign := hs.aligned
  have hlow := hs.top_ge
  refine ⟨⟨st, g ++ [h.newPage], by rw [List.append_assoc], hst, ?_⟩, fun a ha hlt => ?_⟩
  · rw [htop]
    exact tiles_append.mpr ⟨_, hgt, rfl, rfl⟩
  · rw [htop] at hlt
    by_cases hold : a.toNat < h.heapVirtTop.toNat
    · rw [hvmm]
      exact kernelFrame_vmmMap _ _ _ (hQ.mapped a ha hold)
    · refine kernelFrame_of_index _ ?_ ?_ ▸ hmapped
      · rw [dirIndex_eq, dirIndex_eq]
        omega
      · rw [tableIndex_eq, tableIndex_eq]
        omega

theorem InPlace.replace (mid : List Extent) (hQ : InPlace area h (l ++ e :: r))
    (hmid : Tiles 16 e.start (e.stop 16) mid) : InPlace area { h with mem := m } (l ++ (mid ++ r)) := by
  refine ⟨?_, hQ.mapped⟩
  obtain ⟨st, g, heq, hst, hg⟩ := hQ.tiled
  rcases List.append_eq_append_iff.mp heq with ⟨u, rfl, hu⟩ | ⟨u, rfl, hu⟩
  · rcases u with _ | ⟨d, u⟩
    · obtain rfl : e :: r = g := hu
      exact ⟨l, mid ++ r, rfl, by simpa using hst, hg.replace (l := []) hmid⟩
    · obtain ⟨rfl, rfl⟩ := List.cons.inj hu
      exact ⟨l ++ (mid ++ u), g, by simp, hst.replace hmid, hg⟩
  · subst hu
    exact ⟨st, u ++ (mid ++ r), by simp, hst, hg.replace hmid⟩

theorem InPlace.coalesce (hQ : InPlace area h es) {m' : Mem} (hc : Chain m h.head es)
    (hgap : ∀ b ∈ es.map Extent.addr, ¬ Bridges m b) :
    InPlace area { h with mem := m' } (Ceblar.coalesce 16 es) := by
  refine ⟨?_, hQ.mapped⟩
  obtain ⟨st, g, heq, hst, hg⟩ := hQ.tiled
  refine ⟨Ceblar.coalesce 16 st, Ceblar.coalesce 16 g, ?_, tiles_coalesce hst, tiles_coalesce hg⟩
  rw [heq]
  apply coalesce_append
  rintro a ha b hb ⟨hafree, hbfree⟩
  obtain ⟨st, rfl⟩ : ∃ l, st = l ++ [a] := List.getLast?_eq_some_iff.mp ha
  obtain ⟨g, rfl⟩ : ∃ r, g = b :: r := List.head?_eq_some_iff.mp hb
  have hes : es = st ++ a :: b :: g := by rw [heq]; simp
  rw [hes] at hc
  have hstart : b.addr = heapVirtStart := by rw [Extent.addr, hg.1]; rfl
  refine hgap a.addr (List.mem_map_of_mem (by simp [hes])) ⟨?_, ?_, ?_⟩
  · rw [chain_next hc, hstart]
  · exact (chain_header hc (by simp)).free_ne.mpr hafree
  · rw [← hstart]
    exact (chain_header hc (by simp)).free_ne.mpr hbfree

theorem InPlace.free (hQ : InPlace area h (l ++ e :: r)) (hs : Ordered h (l ++ e :: r))
    (hgap : KeepsGap h (e.addr + headerSize)) : InPlace area { h with mem := m } (released l e r) := by
  have hmark := chain_setFree hs.chain true
  have hnone := hgap (List.map Extent.addr (l ++ { e with free := true } :: r))
  rw [payload_sub] at hnone
  have hmarked : InPlace area h (l ++ { e with free := true } :: r) :=
    hQ.replace (m := h.mem) [{ e with free := true }] ⟨rfl, rfl⟩
  exact hmarked.coalesce hmark (hnone (chain_linked hmark))

theorem inPlace_rule (area : Word) : BlockRule (InPlace area) KeepsGap fun _ _ _ => True where
  grow := InPlace.grow
  take hQ _ := hQ.replace _ (tiles_taken _ _)
  cut _ hQ _ _ := hQ.replace _ (tiles_divide 8 _)
  free hs hQ _ hgap := hQ.free hs hgap
  write hQ := ⟨hQ.tiled, hQ.mapped⟩
  frames hQ := ⟨hQ.tiled, hQ.mapped⟩

theorem KreallocSafe.ok {p n : Word} (hsafe : KreallocSafe area h p n) :
    ReallocOk KeepsGap (fun _ _ _ => True) area h p n :=
  ⟨hsafe.1, hsafe.2.1, fun _ _ => trivial, hsafe.2.2⟩

end

end Ceblar
