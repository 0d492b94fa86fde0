import Ceblar.Mm.Lent

/-! # DMA buffers (`drivers/dma/dma.c`)

A buffer of consecutive frames below 4 MiB, made of the frames that `pmm_alloc_page` happens to give: at the
first one that does not follow the others everything is given back.
-/

namespace Ceblar

structure DmaBuffer where
  virtualAddress : Word
  physicalAddress : Word
  length : Word
  pages : Word
deriving DecidableEq

def freePages (first : Word) (n : Nat) (p : Pmm) : Pmm :=
  forRange n (fun j p => pmmFreePage p (pageAt first j)) p

/-- One round of the loop of `dma_alloc`. Left early, it has given everything back. -/
def dmaPage (i : Nat) (s : Word × Pmm) : Except Pmm (Word × Pmm) :=
  let (first, p) := s
  match pmmAllocPage p with
  | none => .error (freePages first i p)
  | some (a, p') =>
    if 0x400000 ≤ a ∨ (i ≠ 0 ∧ a ≠ pageAt first i) then .error (freePages first i (pmmFreePage p' a))
    else .ok (if i = 0 then a else first, p')

/-- `dma_alloc`, where `ready` is the flag that `dma_init` sets. -/
def dmaAlloc (ready : Bool) (length : Word) (buffer : Option DmaBuffer) (p : Pmm) :
    Int × Option DmaBuffer × Pmm :=
  match buffer with
  | none => (-1, none, p)
  | some b =>
    if ready = false ∨ length = 0 then (-1, some b, p)
    else
      let pages := (length + 4095) / 4096
      match forRangeE pages.toNat dmaPage (0, p) with
      | .error p' => (-1, some b, p')
      | .ok (first, p') => (0, some ⟨first, first, length, pages⟩, p')

def dmaFree (buffer : Option DmaBuffer) (p : Pmm) : Option DmaBuffer × Pmm :=
  match buffer with
  | none => (none, p)
  | some b =>
    if b.physicalAddress = 0 ∨ b.pages = 0 then (some b, p)
    else (some ⟨0, 0, 0, 0⟩, freePages b.physicalAddress b.pages.toNat p)

/-! ## A run of pages -/

def runFrames (first : Word) (i n : Nat) : List Nat :=
  (List.range' i (n - i)).map fun j => pageNumber (pageAt first j)

structure Run (p₀ : Pmm) (i : Nat) (first : Word) (p : Pmm) : Prop where
  lent : Lent p₀ (runFrames first 0 i) p
  below : ∀ j < i, first.toNat + j * 4096 < 0x400000

section

variable {p₀ p p' : Pmm} {first a : Word} {i n : Nat}

theorem runFrames_cons (hi : i < n) :
    runFrames first i n = pageNumber (pageAt first i) :: runFrames first (i + 1) n := by
  unfold runFrames
  rw [show n - i = (n - (i + 1)) + 1 by omega, List.range'_succ, List.map_cons]

theorem runFrames_concat :
    runFrames first 0 (i + 1) = runFrames first 0 i ++ [pageNumber (pageAt first i)] := by
  unfold runFrames
  rw [Nat.sub_zero, Nat.sub_zero, List.range'_concat, List.map_append]
  simp

theorem mem_runFrames (hi : i < n) : pageNumber (pageAt first i) ∈ runFrames first 0 n :=
  List.mem_map.mpr ⟨i, List.mem_range'_1.mpr (by omega), rfl⟩

theorem freePages_lent (hclean : p₀.Clean) (h : Lent p₀ (runFrames first 0 n) p) :
    Lent p₀ [] (freePages first n p) := by
  have hall : Lent p₀ (runFrames first n n) (freePages first n p) := by
    refine forRange_inv (fun j q => Lent p₀ (runFrames first j n) q) n h fun j hj q hq => ?_
    rw [runFrames_cons hj] at hq
    have hgive := hq.give hclean List.mem_cons_self
    rwa [List.erase_cons_head] at hgive
  rwa [runFrames, Nat.sub_self] at hall

theorem freePages_alloc (hclean : p₀.Clean) (h : Lent p₀ (runFrames first 0 n) p)
    (ha : pmmAllocPage p = some (a, p')) : Lent p₀ [] (freePages first n (pmmFreePage p' a)) := by
  apply freePages_lent hclean
  have hgive := (h.alloc ha).give hclean List.mem_cons_self
  rwa [List.erase_cons_head] at hgive

theorem Run.add (h : Run p₀ i first p) (ha : pmmAllocPage p = some (a, p')) (hlow : a.toNat < 0x400000)
    (hnext : i = 0 ∨ a = pageAt first i) : Run p₀ (i + 1) (if i = 0 then a else first) p' := by
  obtain ⟨hlent, hbelow⟩ := h
  have hperm : ∀ w, runFrames w 0 i = runFrames first 0 i → a = pageAt w i →
      Lent p₀ (runFrames w 0 (i + 1)) p' := by
    intro w hw hat
    rw [runFrames_concat, hw, ← hat]
    exact (hlent.alloc ha).perm (List.perm_append_singleton _ _).symm
  rcases Nat.eq_zero_or_pos i with rfl | hpos
  · refine ⟨hperm a rfl (by simp [pageAt]), fun j hj => ?_⟩
    obtain rfl : j = 0 := by omega
    simpa using hlow
  · have hat : a = pageAt first i := hnext.resolve_left (by omega)
    have hpage : a.toNat = first.toNat + 4096 * i := by
      -- the page before this one lies below, so the sum has not wrapped
      have hprev := hbelow (i - 1) (by omega)
      rw [hat, toNat_pageAt (by omega)]
    rw [if_neg (by omega)]
    refine ⟨hperm first rfl hat, fun j hj => ?_⟩
    omega

theorem dmaPage_exits (hclean : p₀.Clean) (h : Run p₀ i first p) :
    Exits (Lent p₀ []) (fun s => Run p₀ (i + 1) s.1 s.2) (dmaPage i (first, p)) := by
  unfold dmaPage
  dsimp only
  split
  next hnone => exact exits_error (freePages_lent hclean h.lent)
  next a p' ha =>
    split
    next => exact exits_error (freePages_alloc hclean h.lent ha)
    next hfits =>
      rw [not_or, not_and_or, not_not, not_not] at hfits
      obtain ⟨hlow, hnext⟩ := hfits
      exact exits_ok (h.add ha (by simpa [BitVec.le_def] using hlow) hnext)

theorem dmaPages_exits (hclean : p₀.Clean) (n : Nat) :
    Exits (Lent p₀ []) (fun s => Run p₀ n s.1 s.2) (forRangeE n dmaPage (0, p₀)) := by
  refine forRangeE_exits_at (Lent p₀ []) (fun i (s : Word × Pmm) => Run p₀ i s.1 s.2)
    (fun i _ s h => ?_) ?_
  · exact dmaPage_exits hclean h
  · exact ⟨lent_nil p₀, nofun⟩

end

/-! ## What was asked, or nothing -/

/-- A buffer that covers the request with frames that were free and have one reference now, and
whose release leaves the allocator as it was; or nothing. -/
structure DmaExact (ready : Bool) (length : Word) (buffer : Option DmaBuffer) (p : Pmm) : Prop where
  covers : ∀ b p', dmaAlloc ready length buffer p = (0, some b, p') →
    1 ≤ b.pages.toNat ∧ length.toNat ≤ b.pages.toNat * 4096
  frames : ∀ b p', dmaAlloc ready length buffer p = (0, some b, p') → ∀ i < b.pages.toNat,
    b.physicalAddress.toNat + i * 4096 < 0x400000 ∧
      p.bitmap (pageNumber (pageAt b.physicalAddress i)) = false ∧
      p'.bitmap (pageNumber (pageAt b.physicalAddress i)) = true ∧
      p'.refs (pageNumber (pageAt b.physicalAddress i)) = 1
  restored : ∀ b p', dmaAlloc ready length buffer p = (0, some b, p') →
    SameFrames p (dmaFree (some b) p').2 ∧ (dmaFree (some b) p').2.total = p.total
  refused : ∀ buffer' p', dmaAlloc ready length buffer p = (-1, buffer', p') → SameFrames p p'

variable {p : Pmm} {length : Word}

theorem dmaAlloc_cases (hclean : p.Clean) (ready : Bool) (length : Word) (buffer : Option DmaBuffer) :
    (∃ p', dmaAlloc ready length buffer p = (-1, buffer, p') ∧ Lent p [] p') ∨
      ∃ first p', dmaAlloc ready length buffer p =
        (0, some ⟨first, first, length, (length + 4095) / 4096⟩, p') ∧
        Run p ((length + 4095) / 4096).toNat first p' ∧ ready = true ∧ buffer ≠ none ∧ length ≠ 0 := by
  unfold dmaAlloc
  split
  next => exact .inl ⟨p, rfl, lent_nil p⟩
  next b =>
    split
    next => exact .inl ⟨p, rfl, lent_nil p⟩
    next hready =>
      rw [not_or] at hready
      have hloop := dmaPages_exits hclean ((length + 4095) / 4096).toNat
      dsimp only
      cases hr : forRangeE ((length + 4095) / 4096).toNat dmaPage (0, p) with
      | error p' => exact .inl ⟨p', rfl, hloop.error p' hr⟩
      | ok s => exact .inr ⟨s.1, s.2, rfl, hloop.ok s hr, by simpa using hready.1, nofun, hready.2⟩

theorem toNat_pages (length : Word) :
    ((length + 4095) / 4096).toNat = (length.toNat + 4095) % 4294967296 / 4096 := by
  rw [BitVec.toNat_udiv, BitVec.toNat_add]
  rfl

theorem dmaAlloc_wraps {length : Word} (hlong : 0xfffff000 < length.toNat) (b : DmaBuffer) (p : Pmm) :
    dmaAlloc true length (some b) p = (0, some ⟨0, 0, length, 0⟩, p) := by
  have hpages : (length + 4095) / 4096 = 0 := by
    apply BitVec.eq_of_toNat_eq
    rw [toNat_pages]
    have := length.isLt
    simp only [BitVec.ofNat_eq_ofNat, BitVec.toNat_ofNat]
    omega
  have hpos : ¬ (true = false ∨ length = 0) := by
    rintro (h | rfl)
    · cases h
    · simp at hlong
  unfold dmaAlloc
  dsimp only
  rw [if_neg hpos, hpages]
  rfl

theorem Run.release {first pages : Word} {p' : Pmm} (hclean : p.Clean)
    (h : Run p pages.toNat first p') (hpages : 1 ≤ pages.toNat) (length : Word) :
    Lent p [] (dmaFree (some ⟨first, first, length, pages⟩) p').2 := by
  have hfirst : first ≠ 0 := by
    rintro rfl
    have := (h.lent.free _ (mem_runFrames hpages)).1
    simp [pageAt, pageNumber] at this
  have hne : pages ≠ 0 := by
    rintro rfl
    simp at hpages
  unfold dmaFree
  dsimp only
  rw [if_neg (not_or.mpr ⟨hfirst, hne⟩)]
  exact freePages_lent hclean h.lent

/-- Any request is served in full or not at all, but for those whose last page would end past 4 GiB. -/
theorem dma_exact_iff (h : PmmReached p) (ready : Bool) (length : Word) (buffer : Option DmaBuffer) :
    DmaExact ready length buffer p ↔ (ready = true → buffer ≠ none → length.toNat ≤ 0xfffff000) := by
  constructor
  · intro hexact hready hbuffer
    obtain ⟨b, rfl⟩ := Option.ne_none_iff_exists'.mp hbuffer
    subst hready
    by_contra hlong
    have hcovers := (hexact.covers _ _ (dmaAlloc_wraps (by omega) b p)).1
    simp at hcovers
  · intro hlen
    rcases dmaAlloc_cases h.clean ready length buffer with ⟨p', hr, hlent⟩ |
      ⟨first, p', hr, hrun, hready, hbuffer, hpos⟩
    · refine ⟨?_, ?_, ?_, ?_⟩ <;> intro b q hq <;> rw [hr] at hq <;> cases hq
      exact hlent.same_iff.mpr rfl
    · have hpages := toNat_pages length
      have hlen := hlen hready hbuffer
      have hpos : length.toNat ≠ 0 := fun h0 => hpos (BitVec.eq_of_toNat_eq h0)
      have hone : 1 ≤ ((length + 4095) / 4096).toNat := by omega
      have hback := hrun.release h.clean hone length
      refine ⟨?_, ?_, ?_, ?_⟩ <;> intro b q hq <;> rw [hr] at hq <;> cases hq
      · dsimp only
        exact ⟨hone, by omega⟩
      · exact fun i hi => ⟨hrun.below i hi, hrun.lent.taken (mem_runFrames hi)⟩
      · exact ⟨hback.same_iff.mpr rfl, hback.total⟩

theorem dma_exact_two : ∃ p', pmmInit pcMap 0x10000 0x37b000 20 = some pcStart ∧
    dmaAlloc true 8192 (some ⟨0, 0, 0, 0⟩) pcStart = (0, some ⟨0x37b000, 0x37b000, 8192, 2⟩, p') ∧
    DmaExact true 8192 (some ⟨0, 0, 0, 0⟩) pcStart := by
  have hexact :=
    (dma_exact_iff (.init pcMap_start) true 8192 (some ⟨0, 0, 0, 0⟩)).mpr fun _ _ => by decide
  have hr : (dmaAlloc true 8192 (some ⟨0, 0, 0, 0⟩) pcStart).1 = 0 ∧
      (dmaAlloc true 8192 (some ⟨0, 0, 0, 0⟩) pcStart).2.1 = some ⟨0x37b000, 0x37b000, 8192, 2⟩ := by
    decide +kernel
  generalize dmaAlloc true 8192 (some ⟨0, 0, 0, 0⟩) pcStart = r at hr ⊢
  obtain ⟨result, buffer, p'⟩ := r
  obtain ⟨rfl, rfl⟩ := hr
  exact ⟨p', pcMap_start, rfl, hexact⟩

/-- A request for nearly 4 GiB is answered with 0 and a buffer of no page. -/
theorem dma_empty_buffer : pmmInit pcMap 0x10000 0x37b000 20 = some pcStart ∧
    dmaAlloc true 0xfffff001 (some ⟨0, 0, 0, 0⟩) pcStart = (0, some ⟨0, 0, 0xfffff001, 0⟩, pcStart) ∧
    ¬ DmaExact true 0xfffff001 (some ⟨0, 0, 0, 0⟩) pcStart := by
  have hr := @dmaAlloc_wraps 0xfffff001 (by decide) ⟨0, 0, 0, 0⟩ pcStart
  refine ⟨pcMap_start, hr, fun hexact => ?_⟩
  have hcovers := (hexact.covers _ _ hr).1
  simp at hcovers

end Ceblar
