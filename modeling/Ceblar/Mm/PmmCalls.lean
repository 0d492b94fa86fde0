import Ceblar.Mm.PmmInit

/-! # Calls of the allocator after its start

From the state that `pmm_init` leaves, the bitmap, the counts and the number of used frames agree with the
references that the callers hold.
-/

namespace Ceblar

open Function

/-! ## What is handed out -/

/-- Calls of `pmm_alloc_page` that all return a frame. -/
def pmmAllocs : Nat → Pmm → Option Pmm
  | 0, p => some p
  | n + 1, p => (pmmAllocPage p).bind fun r => pmmAllocs n r.2

/-- Some number of calls ends with frame `f`. -/
def Pmm.Allocatable (p : Pmm) (f : Nat) : Prop :=
  ∃ n q a q', pmmAllocs n p = some q ∧ pmmAllocPage q = some (a, q') ∧ pageNumber a = f

def Pmm.available (p : Pmm) : Finset Nat := {f ∈ Finset.range p.total | 0 < f ∧ p.bitmap f = false}

section

variable {p p' q : Pmm} {a : Word} {n f : Nat}

theorem mem_available : f ∈ p.available ↔ 0 < f ∧ f < p.total ∧ p.bitmap f = false := by
  simp only [Pmm.available, Finset.mem_filter, Finset.mem_range]
  tauto

theorem available_alloc (ha : pmmAllocPage p = some (a, p')) :
    a.toNat = pageNumber a * 4096 ∧ pageNumber a ∈ p.available ∧
    p'.available = p.available.erase (pageNumber a) := by
  obtain ⟨g, hg, rfl, hbase, rfl⟩ := pmmAllocPage_spec ha
  obtain ⟨h0, ht, hclear, -⟩ := (firstFree_eq_some p _).mp hg
  refine ⟨by rw [← toNat_pageBase, hbase], mem_available.mpr ⟨h0, ht, hclear⟩, ?_⟩
  ext f
  rw [Finset.mem_erase, mem_available, mem_available]
  by_cases hf : f = pageNumber a
  · simp [hf]
  · simp [hf]

theorem alloc_none_iff : pmmAllocPage p = none ↔ p.available = ∅ := by
  rw [pmmAllocPage, Option.map_eq_none_iff, firstFree_eq_none, Finset.eq_empty_iff_forall_notMem]
  simp only [mem_available, not_and, Bool.not_eq_false]

theorem exists_alloc (h : 0 < p.available.card) : ∃ a p', pmmAllocPage p = some (a, p') ∧
    p'.available = p.available.erase (pageNumber a) ∧ p'.available.card + 1 = p.available.card := by
  have hsome : pmmAllocPage p ≠ none := by
    rw [Ne, alloc_none_iff, ← Finset.card_eq_zero]
    omega
  obtain ⟨⟨a, p'⟩, ha⟩ := Option.ne_none_iff_exists'.mp hsome
  obtain ⟨-, hmem, herase⟩ := available_alloc ha
  exact ⟨a, p', ha, herase, herase ▸ Finset.card_erase_add_one hmem⟩

theorem pmmAllocs_available (h : pmmAllocs n p = some q) :
    q.available ⊆ p.available ∧ q.available.card + n = p.available.card := by
  induction n generalizing p with
  | zero =>
    cases h
    exact ⟨Finset.Subset.refl _, rfl⟩
  | succ n ih =>
    obtain ⟨⟨a, p'⟩, ha, hrest⟩ := Option.bind_eq_some_iff.mp h
    obtain ⟨-, hmem, herase⟩ := available_alloc ha
    obtain ⟨hsub, hcard⟩ := ih hrest
    rw [herase] at hsub hcard
    have := Finset.card_erase_add_one hmem
    exact ⟨hsub.trans (Finset.erase_subset _ _), by omega⟩

theorem pmmAllocs_of_le (h : n ≤ p.available.card) : ∃ q, pmmAllocs n p = some q := by
  induction n generalizing p with
  | zero => exact ⟨p, rfl⟩
  | succ n ih =>
    obtain ⟨a, p', ha, -, hcard⟩ := exists_alloc (by omega : 0 < p.available.card)
    obtain ⟨q, hq⟩ := ih (p := p') (by omega)
    exact ⟨q, by rw [pmmAllocs, ha]; exact hq⟩

theorem exists_allocs (hf : f ∈ p.available) : p.Allocatable f := by
  obtain ⟨k, hk⟩ : ∃ k, p.available.card = k := ⟨_, rfl⟩
  induction k generalizing p with
  | zero =>
    rw [Finset.card_eq_zero.mp hk] at hf
    cases hf
  | succ k ih =>
    obtain ⟨a, p', ha, herase, hcard⟩ := exists_alloc (by omega : 0 < p.available.card)
    by_cases hfa : pageNumber a = f
    · exact ⟨0, p, a, p', rfl, ha, hfa⟩
    · have hf' : f ∈ p'.available := herase ▸ Finset.mem_erase.mpr ⟨Ne.symm hfa, hf⟩
      obtain ⟨n, q, b, q', hq, hb, hbf⟩ := ih hf' (by omega)
      exact ⟨n + 1, q, b, q', by rw [pmmAllocs, ha]; exact hq, hb, hbf⟩

theorem allocatable_iff : p.Allocatable f ↔ 0 < f ∧ f < p.total ∧ p.bitmap f = false := by
  rw [← mem_available]
  constructor
  · rintro ⟨n, q, a, q', hq, ha, rfl⟩
    exact (pmmAllocs_available hq).1 (available_alloc ha).2.1
  · exact exists_allocs

end

/-! ## References -/

/-- The allocator, and the references to each frame that callers were given and have not freed. -/
structure Held where
  pmm : Pmm
  out : Nat → Nat

inductive PmmOp where
  | alloc
  | retain (a : Word)
  | free (a : Word)
deriving DecidableEq

/-- One call. A frame has at most 65535 references, and only a reference that is there is freed. -/
def pmmStep (s : Held) : PmmOp → Option Held
  | .alloc =>
    match pmmAllocPage s.pmm with
    | none => some s
    | some (a, p) => some ⟨p, update s.out (pageNumber a) (s.out (pageNumber a) + 1)⟩
  | .retain a =>
    if s.out (pageNumber a) < 65535 then
      some ⟨pmmRetainPage s.pmm a, update s.out (pageNumber a) (s.out (pageNumber a) + 1)⟩
    else none
  | .free a =>
    if 0 < s.out (pageNumber a) then
      some ⟨pmmFreePage s.pmm a, update s.out (pageNumber a) (s.out (pageNumber a) - 1)⟩
    else none

def Held.init (p : Pmm) : Held := ⟨p, fun _ => 0⟩

/-- What the callers rely on, in a state that was reached from `start`. -/
structure Conservative (start : Pmm) (s : Held) : Prop where
  /-- The next frame to be handed out has no reference and was free at the start. -/
  exclusive : ∀ a p', pmmAllocPage s.pmm = some (a, p') →
    s.out (pageNumber a) = 0 ∧ start.bitmap (pageNumber a) = false
  refs : ∀ f, (s.pmm.refs f).toNat = s.out f
  /-- The allocator can hand out what it could at the start and nobody refers to. -/
  allocatable : ∀ f, s.pmm.Allocatable f ↔ start.Allocatable f ∧ s.out f = 0
  clear : ∀ f, start.bitmap f = false → (s.pmm.bitmap f = false ↔ s.out f = 0)
  reserved : ∀ f, start.bitmap f = true → s.pmm.bitmap f = true
  exhausted : pmmAllocPage s.pmm = none → ∀ f, 0 < f → f < s.pmm.total → s.pmm.bitmap f = true
  counted : (pmmFreePages s.pmm).toNat = clearBits 65536 s.pmm.bitmap

def Shares (s : Held) : PmmOp → Prop
  | .retain a => 0 < s.out (pageNumber a)
  | _ => True

instance (s : Held) : (op : PmmOp) → Decidable (Shares s op)
  | .alloc => instDecidableTrue
  | .retain a => inferInstanceAs (Decidable (0 < s.out (pageNumber a)))
  | .free _ => instDecidableTrue

structure HeldInv (start : Pmm) (s : Held) : Prop where
  exact : Exact s.pmm s.out
  fresh : ∀ f, f ∉ s.pmm.handed → s.out f = 0 ∧ s.pmm.refs f = 0 ∧ s.pmm.bitmap f = start.bitmap f
  handed : ∀ f ∈ s.pmm.handed, start.bitmap f = false
  total : s.pmm.total = start.total
  counted : clearBits 65536 s.pmm.bitmap + s.pmm.used = s.pmm.total

section

variable {start : Pmm} {s s' : Held} {f : Nat} {a : Word}

theorem HeldInv.of_started (h : Started start) : HeldInv start (.init start) where
  exact f := ⟨fun hk => absurd hk (Nat.lt_irrefl 0), fun hf => by simp [Held.init, h.handed] at hf⟩
  fresh f _ := ⟨rfl, h.refs f, rfl⟩
  handed f hf := by simp [Held.init, h.handed] at hf
  total := rfl
  counted := h.counted

theorem HeldInv.clear (h : HeldInv start s) (hf : s.pmm.bitmap f = false) :
    start.bitmap f = false := by
  by_cases hm : f ∈ s.pmm.handed
  · exact h.handed f hm
  · rw [← (h.fresh f hm).2.2, hf]

theorem HeldInv.mem_handed (h : HeldInv start s) (hf : 0 < s.out f) : f ∈ s.pmm.handed := by
  by_contra hm
  have := (h.fresh f hm).1
  omega

theorem HeldInv.alloc (h : HeldInv start s) {p : Pmm} (ha : pmmAllocPage s.pmm = some (a, p)) :
    s.out (pageNumber a) = 0 ∧ start.bitmap (pageNumber a) = false ∧
      HeldInv start ⟨p, update s.out (pageNumber a) 1⟩ := by
  obtain ⟨hout, hexact⟩ := h.exact.alloc ha
  obtain ⟨f, hf, rfl, -, rfl⟩ := pmmAllocPage_spec ha
  obtain ⟨-, hlt, hclear, -⟩ := (firstFree_eq_some _ _).mp hf
  have hstart := h.clear hclear
  refine ⟨hout, hstart, hexact, fun g hg => ?_, fun g hg => ?_, h.total, ?_⟩
  · obtain ⟨hne, hold⟩ := not_or.mp (mt List.mem_cons.mpr hg)
    simpa [hne] using h.fresh g hold
  · rcases List.mem_cons.mp hg with rfl | hold
    · exact hstart
    · exact h.handed g hold
  · have hset := clearBits_set (n := 65536) (by have := s.pmm.total_le; omega) hclear
    have hcount := h.counted
    change clearBits 65536 (update s.pmm.bitmap (pageNumber a) true) + (s.pmm.used + 1) = s.pmm.total
    omega

theorem HeldInv.touch (h : HeldInv start s) {p : Pmm} {k : Nat} (hpos : 0 < s.out f)
    (hexact : Exact p (update s.out f k)) (hlog : p.handed = s.pmm.handed)
    (htotal : p.total = s.pmm.total)
    (hsame : ∀ g, f ≠ g → p.bitmap g = s.pmm.bitmap g ∧ p.refs g = s.pmm.refs g)
    (hcount : clearBits 65536 p.bitmap + p.used = p.total) : HeldInv start ⟨p, update s.out f k⟩ := by
  have hmem := h.mem_handed hpos
  refine ⟨hexact, fun g hg => ?_, fun g hg => h.handed g (hlog ▸ hg), htotal.trans h.total, hcount⟩
  have hg : g ∉ s.pmm.handed := hlog ▸ hg
  have hne : f ≠ g := by
    rintro rfl
    exact hg hmem
  obtain ⟨hbit, hrefs⟩ := hsame g hne
  simpa [hne.symm, hbit, hrefs] using h.fresh g hg

theorem HeldInv.retain (h : HeldInv start s) (hpos : 0 < s.out (pageNumber a))
    (hroom : s.out (pageNumber a) < 65535) :
    HeldInv start ⟨pmmRetainPage s.pmm a, update s.out (pageNumber a) (s.out (pageNumber a) + 1)⟩ := by
  refine h.touch hpos (h.exact.retain hpos hroom) ?_ ?_ ?_ ?_ <;> simp only [pmmRetainPage] <;> split
  · rfl
  · rfl
  · rfl
  · rfl
  · intro g hg
    simp [hg.symm]
  · exact fun g _ => ⟨rfl, rfl⟩
  · exact h.counted
  · exact h.counted

/-- The last reference clears the bit of a frame that was clear at the start, so some frame is
counted as used. -/
theorem HeldInv.free (hstart : Started start) (h : HeldInv start s) (hpos : 0 < s.out (pageNumber a)) :
    HeldInv start ⟨pmmFreePage s.pmm a, update s.out (pageNumber a) (s.out (pageNumber a) - 1)⟩ := by
  have hcount := h.counted
  obtain ⟨-, hlt, hset⟩ := (inUse_iff _ _).mp ((h.exact _).held hpos).1
  refine h.touch hpos (h.exact.free hpos) (pmmFreePage_handed _ _) ?_ (fun g => pmmFreePage_other _) ?_
  · simp only [pmmFreePage]
    split
    · split <;> rfl
    · rfl
  · simp only [pmmFreePage]
    split
    next =>
      split
      next => exact hcount
      next =>
        have hclear := clearBits_clear (n := 65536) (by have := s.pmm.total_le; omega) hset
        have hle : clearBits 65536 (update s.pmm.bitmap (pageNumber a) false) ≤ start.total := by
          refine le_trans (clearBits_mono fun g hg => ?_) (Nat.le_of_add_right_le hstart.counted.le)
          by_cases hne : g = pageNumber a
          · subst hne
            exact h.handed _ (h.mem_handed hpos)
          · rw [update_of_ne hne] at hg
            exact h.clear hg
        have := h.total
        change clearBits 65536 (update s.pmm.bitmap (pageNumber a) false) + (s.pmm.used - 1) = s.pmm.total
        omega
    next => exact hcount

theorem pmmStep_inv (hstart : Started start) (h : HeldInv start s) {op : PmmOp} (hshare : Shares s op)
    (hs : pmmStep s op = some s') : HeldInv start s' := by
  cases op with
  | alloc =>
    simp only [pmmStep] at hs
    split at hs <;> cases hs
    · exact h
    · obtain ⟨hout, -, hinv⟩ := h.alloc ‹_›
      rwa [hout]
  | retain a =>
    simp only [pmmStep] at hs
    split at hs <;> cases hs
    exact h.retain hshare ‹_›
  | free a =>
    simp only [pmmStep] at hs
    split at hs <;> cases hs
    exact h.free hstart ‹_›

theorem HeldInv.clear_iff (h : HeldInv start s) (hf : start.bitmap f = false) :
    s.pmm.bitmap f = false ↔ s.out f = 0 := by
  constructor
  · intro hclear
    by_contra hne
    have := (inUse_iff _ _).mp ((h.exact f).held (by omega)).1
    simp [hclear] at this
  · intro hz
    by_cases hm : f ∈ s.pmm.handed
    · exact ((h.exact f).gone hm hz).2
    · rw [(h.fresh f hm).2.2, hf]

theorem HeldInv.conservative (h : HeldInv start s) : Conservative start s where
  exclusive a p' ha := ⟨(h.alloc ha).1, (h.alloc ha).2.1⟩
  refs f := by
    by_cases hm : f ∈ s.pmm.handed
    · rcases Nat.eq_zero_or_pos (s.out f) with hz | hpos
      · rw [((h.exact f).gone hm hz).1, hz]
        rfl
      · exact ((h.exact f).held hpos).2
    · obtain ⟨hout, hrefs, -⟩ := h.fresh f hm
      rw [hout, hrefs]
      rfl
  allocatable f := by
    rw [allocatable_iff, allocatable_iff, h.total]
    constructor
    · rintro ⟨h0, ht, hclear⟩
      have hf := h.clear hclear
      exact ⟨⟨h0, ht, hf⟩, (h.clear_iff hf).mp hclear⟩
    · rintro ⟨⟨h0, ht, hf⟩, hz⟩
      exact ⟨h0, ht, (h.clear_iff hf).mpr hz⟩
  clear _ := h.clear_iff
  reserved f hf := by
    by_contra hne
    rw [h.clear (Bool.eq_false_iff.mpr hne)] at hf
    cases hf
  exhausted hnone := (firstFree_eq_none _).mp (Option.map_eq_none_iff.mp hnone)
  counted := by
    have hcount := h.counted
    have htotal := s.pmm.total_le
    rw [pmmFreePages, BitVec.toNat_sub_of_le] <;> simp only [BitVec.le_def, BitVec.toNat_ofNat] <;> omega

end

/-- The bitmap, the counts and the number of used frames agree with the references held. -/
theorem allocation_conservative {mem : Mem} {mbi kernelEnd : Word} {fuel : Nat} {start : Pmm}
    (hinit : pmmInit mem mbi kernelEnd fuel = some start) {ops : List PmmOp} {s : Held}
    (hshare : Along Shares pmmStep (.init start) ops) (hrun : runs pmmStep (.init start) ops = some s) :
    Conservative start s :=
  have hstart := pmmInit_started hinit
  (runs_inv_along (HeldInv start) (fun _ _ _ hs hshare => pmmStep_inv hstart hs hshare)
    (.of_started hstart) hshare hrun).conservative

theorem allocation_conservative_shared : ∃ s,
    runs pmmStep (.init pcStart)
      [.alloc, .retain 0x37b000, .free 0x37b000, .alloc, .free 0x37b000] = some s ∧
    s.out 892 = 1 ∧ Conservative pcStart s := by
  have hrun : (runs pmmStep (.init pcStart)
      [.alloc, .retain 0x37b000, .free 0x37b000, .alloc, .free 0x37b000]).map (·.out 892) = some 1 := by
    decide +kernel
  have hshare : alongCheck (fun s op => decide (Shares s op)) pmmStep (.init pcStart)
      [.alloc, .retain 0x37b000, .free 0x37b000, .alloc, .free 0x37b000] = true := by
    decide +kernel
  obtain ⟨s, hs, hout⟩ := Option.map_eq_some_iff.mp hrun
  exact ⟨s, hs, hout, allocation_conservative pcMap_start
    (along_of_check (fun _ _ h => of_decide_eq_true h) hshare) hs⟩

/-- A reference to a free frame is not counted, and one to a frame of the kernel gives it away. -/
theorem retain_unheld : pmmInit pcMap 0x10000 0x37b000 20 = some pcStart ∧
    (∃ s, runs pmmStep (.init pcStart) [.retain 0x400000] = some s ∧ s.out 0x400 = 1 ∧
      s.pmm.refs 0x400 = 0 ∧ ¬ Conservative pcStart s) ∧
    ∃ s, runs pmmStep (.init pcStart) [.retain 0x101000, .free 0x101000] = some s ∧
      pcStart.bitmap 0x101 = true ∧
      (pmmAllocPage s.pmm).map (·.1) = some 0x101000 ∧ ¬ Conservative pcStart s := by
  have hfree : (runs pmmStep (.init pcStart) [.retain 0x400000]).map
      (fun s => (s.out 0x400, s.pmm.refs 0x400)) = some (1, 0) := by
    decide +kernel
  have hkernel : (runs pmmStep (.init pcStart) [.retain 0x101000, .free 0x101000]).map
      (fun s => (pmmAllocPage s.pmm).map (·.1)) = some (some 0x101000) := by
    decide +kernel
  obtain ⟨s, hs, hfree⟩ := Option.map_eq_some_iff.mp hfree
  obtain ⟨hout, hrefs⟩ := Prod.mk.inj hfree
  obtain ⟨s', hs', halloc⟩ := Option.map_eq_some_iff.mp hkernel
  refine ⟨pcMap_start, ⟨s, hs, hout, hrefs, fun h => ?_⟩, s', hs', rfl, halloc, fun h => ?_⟩
  · have := h.refs 0x400
    rw [hrefs, hout] at this
    cases this
  · obtain ⟨⟨a, p⟩, hap, rfl⟩ := Option.map_eq_some_iff.mp halloc
    exact absurd (h.exclusive _ _ hap).2 (by decide)

end Ceblar
