import Ceblar.Mm.HeapRun

/-! # What a request is given, and what it costs

A size close to 2^32 is served from a block of any size, and a request for more than a page takes
every frame there is before it fails.
-/

namespace Ceblar

/-- What the caller of `kmalloc(n)` relies on when it is given `p`. -/
structure Allotted (area n p : Word) (h h' : Heap) : Prop where
  /-- The block was on the list, and free, in the heap as it was or with the pages that it grew by. -/
  found : ∃ h1, Grown (h.ready area) h1 ∧ OnList h1 (p - headerSize) ∧
    field h1.mem (p - headerSize) .free ≠ 0
  live : field h'.mem (p - headerSize) .free = 0
  room : n ≤ field h'.mem (p - headerSize) .size

/-- Whatever the memory holds, the block is large enough unless the size wraps when it is rounded. -/
theorem kmalloc_allotted_iff {area n p : Word} {h h' : Heap} (hk : kmalloc area n h = .ok (p, h'))
    (hp : p ≠ 0) :
    Allotted area n p h h' ↔ n.toNat ≤ 0xfffffff8 := by
  have hloop : kmallocLoop (roundUp n) (2 ^ 20) (h.ready area) = .ok (p, h') := by
    unfold kmalloc at hk
    dsimp only at hk
    split at hk
    · cases hk
      exact absurd rfl hp
    · exact hk
  rcases kmallocLoop_grown hloop with ⟨h1, b, hgrown, hfit, rfl, rfl⟩ | ⟨rfl, -⟩
  · obtain ⟨hlist, hfree, hroom⟩ := findFit_some hfit
    have hb : b + headerSize - headerSize = b := by bv_omega
    have hsize : field (setField (split h1.mem b (roundUp n)) b .free 0) b .size =
        if roundUp n + headerSize + 8 ≤ field h1.mem b .size then roundUp n
          else field h1.mem b .size := by
      rw [field_setField_ne _ _ _ (by decide), split_size]
    constructor
    · rintro ⟨-, -, hserved⟩
      rw [hb, hsize] at hserved
      by_contra hwrap
      rw [roundUp_wraps (by omega)] at hserved
      -- what is left is empty, or a block that was too short to be cut
      split at hserved
      · bv_omega
      · rename_i hshort
        unfold headerSize at hshort
        bv_omega
    · intro hn
      refine ⟨⟨h1, hgrown, by rwa [hb], by rwa [hb]⟩, ?_, ?_⟩
      · rw [hb]
        exact field_setField_self _ _ _ _
      · have hround := le_roundUp hn
        rw [hb, hsize, BitVec.le_def]
        split
        · exact hround
        · exact hround.trans (BitVec.le_def.mp hroom)
  · exact absurd rfl hp

def bootHeap : Heap := (heapBoot 0x200000 (fun _ => 0) bareMachine).heap

theorem kmalloc_allotted_hundred : ∃ h', kmalloc 0x200000 100 bootHeap = .ok (0x200010, h') ∧
    Allotted 0x200000 100 0x200010 bootHeap h' := by
  have hrun : (kmalloc 0x200000 100 bootHeap).toOption.map (·.1) = some 0x200010 := by decide +kernel
  obtain ⟨⟨p, h'⟩, hk, rfl⟩ := Option.map_eq_some_iff.mp hrun
  have hok := toOption_eq_some hk
  exact ⟨h', hok, (kmalloc_allotted_iff hok (by decide)).mpr (by decide)⟩

/-- A request for 2^32 - 1 bytes is given a block of 0 bytes. -/
theorem kmalloc_undersized : ∃ h', kmalloc 0x200000 0xffffffff bootHeap = .ok (0x200010, h') ∧
    field h'.mem 0x200000 .size = 0 ∧ ¬ Allotted 0x200000 0xffffffff 0x200010 bootHeap h' := by
  have hrun : (kmalloc 0x200000 0xffffffff bootHeap).toOption.map
      (fun r => (r.1, field r.2.mem 0x200000 .size)) = some (0x200010, 0) := by decide +kernel
  obtain ⟨⟨p, h'⟩, hk, heq⟩ := Option.map_eq_some_iff.mp hrun
  obtain ⟨rfl, hsize⟩ := Prod.mk.inj heq
  refine ⟨h', toOption_eq_some hk, hsize, fun hall => ?_⟩
  have hroom := hall.room
  rw [show (0x200010 : Word) - headerSize = 0x200000 from rfl] at hroom
  dsimp only at hsize
  rw [hsize] at hroom
  exact absurd hroom (by decide)

/-! ## Growth -/

def HasFit (h : Heap) (n : Word) : Prop :=
  ∃ b, OnList h b ∧ field h.mem b .free ≠ 0 ∧ n ≤ field h.mem b .size

/-- `kmalloc(n)` gives a block and takes no more frames than the block needs, or it gives nothing and
leaves everything as it was. No header is written to a page that is not mapped: that would be a fault. -/
def Bounded (area n : Word) (h : Heap) : Prop :=
  ∃ p h', kmalloc area n h = .ok (p, h') ∧
    ((p ≠ 0 ∧ h'.vmm.pmm.used ≤ h.vmm.pmm.used + (n.toNat + 16 + 4095) / 4096) ∨ p = 0 ∧ h' = h)

section

variable {area n p : Word} {h h' : Heap} {es : List Extent} {fuel : Nat}

theorem onList_iff (hc : Chain h.mem h.head es) (b : Word) : OnList h b ↔ ∃ e ∈ es, e.addr = b := by
  have hlinked := chain_linked hc
  constructor
  · rintro ⟨bs, hbs⟩
    exact List.mem_map.mp (hlinked.mem_of_seg hbs)
  · rintro ⟨e, he, rfl⟩
    obtain ⟨l, r, rfl⟩ := List.append_of_mem he
    rw [List.map_append] at hlinked
    obtain ⟨b, hl, hb, -⟩ := seg_append.mp hlinked
    exact ⟨l.map Extent.addr, hb ▸ hl⟩

theorem hasFit_iff (hc : Chain h.mem h.head es) (n : Word) :
    HasFit h n ↔ ∃ e ∈ es, e.fits n.toNat = true := by
  have hfits : ∀ e ∈ es, (field h.mem e.addr .free ≠ 0 ∧ n ≤ field h.mem e.addr .size) ↔
      e.fits n.toNat = true := by
    intro e he
    have hheader := chain_header hc he
    rw [hheader.free_ne, BitVec.le_def, hheader.size_toNat, fits_iff]
  constructor
  · rintro ⟨b, hb, hroom⟩
    obtain ⟨e, he, rfl⟩ := (onList_iff hc b).mp hb
    exact ⟨e, he, (hfits e he).mp hroom⟩
  · rintro ⟨e, he, hfit⟩
    exact ⟨e.addr, (onList_iff hc _).mpr ⟨e, he, rfl⟩, (hfits e he).mpr hfit⟩

theorem kmallocLoop_fits (fuel : Nat) (hs : Ordered h es) {e : Extent} (he : e ∈ es)
    (hfit : e.fits n.toNat = true) :
    ∃ f, f.fits n.toNat = true ∧ f ∈ es ∧ kmallocLoop n (fuel + 1) h =
      .ok (f.addr + headerSize, { h with mem := setField (split h.mem f.addr n) f.addr .free 0 }) := by
  have hlen := chain_length hs.chain
  obtain ⟨f, hf⟩ : ∃ f, es.find? (Extent.fits n.toNat) = some f := by
    rw [← Option.isSome_iff_exists, List.find?_isSome]
    exact ⟨e, he, hfit⟩
  refine ⟨f, List.find?_some hf, List.mem_of_find?_eq_some hf, ?_⟩
  rw [kmallocLoop, findFit_spec hs.chain (by omega), hf]
  rfl

theorem kmallocLoop_grows (hs : Ordered h es) (hnone : ∀ e ∈ es, e.fits n.toNat ≠ true) :
    kmallocLoop n (fuel + 1) h = (do
      let (rc, h1) ← grow h
      if rc ≠ 0 then return (0, h1) else kmallocLoop n fuel h1) := by
  have hlen := chain_length hs.chain
  rw [kmallocLoop, findFit_spec hs.chain (by omega), List.find?_eq_none.mpr hnone]
  rfl

theorem Ordered.grown_noFit (hs : Ordered h es) (hnone : ∀ e ∈ es, e.fits n.toNat ≠ true)
    (hlong : 4080 < n.toNat) (hg : Grown h h') :
    ∃ es', Ordered h' es' ∧ ∀ e ∈ es', e.fits n.toNat ≠ true := by
  induction hg with
  | refl => exact ⟨es, hs, hnone⟩
  | tail _ hlast ih =>
    obtain ⟨es1, hs1, hnone1⟩ := ih
    refine ⟨_, (hs1.grow hlast).1, fun e he => ?_⟩
    rcases List.mem_append.mp he with he | he
    · exact hnone1 e he
    · rw [List.mem_singleton.mp he, ne_eq, fits_iff]
      exact fun hfit => absurd hfit.2 (Nat.not_le.mpr hlong)

theorem kmallocLoop_long (hs : Ordered h es) (hnone : ∀ e ∈ es, e.fits n.toNat ≠ true)
    (hlong : 4080 < n.toNat) (hframe : h.vmm.pmm.firstFree ≠ none)
    (hrun : kmallocLoop n (fuel + 1) h = .ok (p, h')) :
    p = 0 ∧ h.vmm.pmm.used < h'.vmm.pmm.used := by
  constructor
  · rcases kmallocLoop_grown hrun with ⟨h1, b, hgrown, hfit, -, -⟩ | ⟨hp, -⟩
    · obtain ⟨es1, hs1, hnone1⟩ := hs.grown_noFit hnone hlong hgrown
      obtain ⟨l, e, r, rfl, hfits, -⟩ := findFit_chain hs1.chain hfit
      exact absurd hfits (hnone1 e (by simp))
    · exact hp
  · rcases kmallocLoop_round hrun with ⟨b, hfit, -⟩ | ⟨-, ⟨hend, -⟩ | ⟨h1, hgrow, hrest⟩⟩
    · obtain ⟨l, e, r, rfl, hfits, -⟩ := findFit_chain hs.chain hfit
      exact absurd hfits (hnone e (by simp))
    · exact absurd hend hframe
    · have hmore := kmallocLoop_used hrest
      obtain ⟨-, -, hused⟩ := (grow_used hgrow).resolve_left fun ⟨_, hrc, _⟩ => hrc rfl
      omega

end

/-- A call is bounded if a block fits, if there is no frame to take, or if one page is enough and has a
page table; and in no other case. -/
theorem kmalloc_bounded_iff {area n : Word} {h : Heap} {es : List Extent} (hs : Ordered h es)
    (hn : n.toNat < 2 ^ 32 - 8) :
    Bounded area n h ↔ n = 0 ∨ HasFit h (roundUp n) ∨ h.vmm.pmm.firstFree = none ∨
      (roundUp n).toNat ≤ 4080 ∧ h.vmm.kernelTables (dirIndex h.heapVirtTop) ≠ none := by
  by_cases hzero : n = 0
  · refine iff_of_true ⟨0, h, ?_, .inr ⟨rfl, rfl⟩⟩ (.inl hzero)
    unfold kmalloc
    rw [if_neg hs.head_ne, if_pos hzero]
  obtain ⟨fuel, hfuel⟩ : ∃ k, 2 ^ 20 = k + 1 + 1 := ⟨2 ^ 20 - 2, by norm_num⟩
  have hloop : kmalloc area n h = kmallocLoop (roundUp n) (fuel + 1 + 1) h := by
    unfold kmalloc
    rw [if_neg hs.head_ne, if_neg hzero, hfuel]
  unfold Bounded
  rw [hloop, hasFit_iff hs.chain]
  by_cases hfit : ∃ e ∈ es, e.fits (roundUp n).toNat = true
  · obtain ⟨e, he, hfits⟩ := hfit
    obtain ⟨f, -, hf, hrun⟩ := kmallocLoop_fits (fuel + 1) hs he hfits
    refine iff_of_true ⟨_, _, hrun, .inl ⟨?_, Nat.le_add_right _ _⟩⟩ (.inr (.inl ⟨e, he, hfits⟩))
    exact payload_ne_zero (chain_header hs.chain hf)
  have hnone : ∀ e ∈ es, e.fits (roundUp n).toNat ≠ true := fun e he hfits => hfit ⟨e, he, hfits⟩
  rcases hs.grow_cases with ⟨hframe, hgrow⟩ | ⟨hframe, ⟨htable, hgrow⟩ | ⟨htable, h1, hgrow, hs1, -⟩⟩
  · refine iff_of_true ⟨0, h, ?_, .inr ⟨rfl, rfl⟩⟩ (.inr (.inr (.inl hframe)))
    rw [kmallocLoop_grows hs hnone, hgrow]
    rfl
  · refine iff_of_false ?_ ?_
    · rintro ⟨p, h', hrun, -⟩
      rw [kmallocLoop_grows hs hnone, hgrow] at hrun
      cases hrun
    · rintro (h0 | h0 | h0 | ⟨-, h0⟩)
      · exact hzero h0
      · exact hfit h0
      · exact hframe h0
      · exact h0 htable
  by_cases hshort : (roundUp n).toNat ≤ 4080
  · -- the page that was added fits
    refine iff_of_true ?_ (.inr (.inr (.inr ⟨hshort, htable⟩)))
    have hpage : h.newPage.fits (roundUp n).toNat = true := fits_iff.mpr ⟨rfl, hshort⟩
    obtain ⟨f, -, hf, hrun⟩ := kmallocLoop_fits fuel hs1 (e := h.newPage) (by simp) hpage
    obtain ⟨-, -, hused⟩ := (grow_used hgrow).resolve_left fun ⟨_, hrc, _⟩ => hrc rfl
    refine ⟨f.addr + headerSize,
      { h1 with mem := setField (split h1.mem f.addr (roundUp n)) f.addr .free 0 }, ?_,
      .inl ⟨payload_ne_zero (chain_header hs1.chain hf), ?_⟩⟩
    · rw [kmallocLoop_grows hs hnone, hgrow]
      exact hrun
    · simp only [hused]
      omega
  · refine iff_of_false ?_ ?_
    · rintro ⟨p, h', hrun, hend⟩
      obtain ⟨hp, hused⟩ := kmallocLoop_long hs hnone (by omega) hframe hrun
      rcases hend with ⟨hp', -⟩ | ⟨-, rfl⟩
      · exact hp' hp
      · exact absurd hused (Nat.lt_irrefl _)
    · rintro (h0 | h0 | h0 | ⟨h0, -⟩)
      · exact hzero h0
      · exact hfit h0
      · exact hframe h0
      · exact hshort h0

theorem kmalloc_bounded_hundred : Bounded 0x200000 100 bootHeap := by
  have hA : HeapArea 0x200000 := ⟨by decide, by decide, by decide⟩
  have hs := (heapBoot_laid hA (fun _ => 0) bareMachine).ordered hA
  have hlist : OnList bootHeap 0x200000 := ⟨[], show ptr bootHeap.head = _ by decide⟩
  exact (kmalloc_bounded_iff hs (by decide)).mpr
    (.inr (.inl ⟨0x200000, hlist, by decide +kernel, by decide +kernel⟩))

def twoFrames : Heap :=
  { bootHeap with
    vmm := { bareMachine with pmm := { bareMachine.pmm with total := 3, total_le := by decide } } }

/-- A request for 1 MiB takes both of them and then fails. -/
theorem kmalloc_takes_all : twoFrames.vmm.pmm.used = 0 ∧ ¬ Bounded 0x200000 0x100000 twoFrames ∧
    (kmalloc 0x200000 0x100000 twoFrames).toOption.map (fun r => (r.1, r.2.vmm.pmm.used)) =
      some (0, 2) := by
  have hrun :
      (kmalloc 0x200000 0x100000 twoFrames).toOption.map (fun r => (r.1, r.2.vmm.pmm.used)) =
        some (0, 2) := by
    decide +kernel
  refine ⟨rfl, ?_, hrun⟩
  rintro ⟨p, h', hk, hend⟩
  rw [hk] at hrun
  obtain ⟨rfl, hused⟩ := Prod.mk.inj (Option.some.inj hrun)
  rcases hend with ⟨hp, -⟩ | ⟨-, rfl⟩
  · exact hp rfl
  · exact absurd hused (by decide)

end Ceblar
