import Ceblar.Lib.Memory
import Ceblar.Lib.Run
import Ceblar.Mm.Pmm
import Mathlib.Algebra.BigOperators.Group.List.Basic
import Mathlib.Order.Interval.Finset.Nat

/-! # The start of the allocator (`pmm_init`)

`pmm_init` takes the frames of the boot loader's memory map and reserves those of the kernel.
-/

namespace Ceblar

open Function

variable {mem : Mem} {rs : List Region}

def load64 (m : Mem) (a : Word) : BitVec 64 := load32 m (a + 4) ++ load32 m a

def addFrame (p : Pmm) (f : Nat) : Pmm :=
  if p.bitmap f then
    { p with
      bitmap := update p.bitmap f false
      total := if p.total < 65536 then p.total + 1 else p.total
      total_le := by
        have := p.total_le
        split <;> omega }
  else p

/-- The loop over a region. The sum wraps as it does in the source. -/
def addFrames (p : Pmm) (first pages : Word) : Pmm :=
  (List.range' first.toNat (min (first + pages).toNat 65536 - first.toNat)).foldl addFrame p

def mmapEntries (mem : Mem) (base stop entrySize : Word) : Nat → Word → Pmm → Option Pmm
  | 0, _, _ => none
  | fuel + 1, e, p =>
    if e < stop then
      let addr := load64 mem (base + e)
      let len := load64 mem (base + e + 8)
      let first := (addr / 4096).setWidth 32
      let pages := (len / 4096).setWidth 32
      let p := if load32 mem (base + e + 16) = 1 then addFrames p first pages else p
      mmapEntries mem base stop entrySize fuel (e + entrySize) p
    else some p

/-- The loop over the tags. `TAG_MMAP` is 6. -/
def mbiTags (mem : Mem) (base totalSize : Word) : Nat → Word → Pmm → Option Pmm
  | 0, _, _ => none
  | fuel + 1, off, p =>
    if off + 8 ≤ totalSize then
      let type := load32 mem (base + off)
      let size := load32 mem (base + off + 4)
      let entrySize := load32 mem (base + off + 8)
      let p := if type = 6 then mmapEntries mem base (off + size) entrySize fuel (off + 16) p else some p
      if size < 8 then p else p.bind (mbiTags mem base totalSize fuel ((off + size + 7) &&& ~~~7#32))
    else some p

def reserveFrame (p : Pmm) (f : Nat) : Pmm :=
  if p.bitmap f then p else { p with bitmap := update p.bitmap f true, used := p.used + 1 }

def reserveRange (p : Pmm) (first last : Word) : Pmm :=
  let first := (first / 4096).toNat
  let last := min ((last + 4095) / 4096).toNat 65536
  (List.range' first (last - first)).foldl reserveFrame p

def Pmm.orAll (p : Pmm) : Pmm :=
  if p.total = 0 then
    { p with bitmap := fun f => if f < 65536 then false else p.bitmap f, total := 65536, total_le := le_rfl }
  else p

/-- `pmm_init`, with the boot information at `mbi`; `none` where the loops have not ended yet. -/
def pmmInit (mem : Mem) (mbi kernelEnd : Word) (fuel : Nat) : Option Pmm :=
  (mbiTags mem mbi (load32 mem mbi) fuel 8
    { bitmap := fun _ => true, refs := fun _ => 0, total := 0, total_le := by decide, used := 0, handed := [] }).map
    fun p => reserveRange p.orAll 0 kernelEnd

def pmmFreePages (p : Pmm) : Word := BitVec.ofNat 32 p.total - BitVec.ofNat 32 p.used

def clearBits (n : Nat) (bitmap : Nat → Bool) : Nat := {f ∈ Finset.range n | bitmap f = false}.card

section

variable {n f : Nat} {b : Nat → Bool}

theorem clearBits_set (hf : f < n) (h : b f = false) :
    clearBits n (update b f true) + 1 = clearBits n b := by
  have hmem : f ∈ {g ∈ Finset.range n | b g = false} := by simp [hf, h]
  have herase : {g ∈ Finset.range n | update b f true g = false} =
      {g ∈ Finset.range n | b g = false}.erase f := by
    ext g
    by_cases hg : g = f
    · subst hg; simp
    · simp [hg]
  rw [clearBits, clearBits, herase, Finset.card_erase_add_one hmem]

theorem clearBits_clear (hf : f < n) (h : b f = true) :
    clearBits n (update b f false) = clearBits n b + 1 := by
  have hset := clearBits_set (b := update b f false) hf (update_self _ _ _)
  rw [update_idem, ← h, update_eq_self] at hset
  exact hset.symm

theorem clearBits_mono {b' : Nat → Bool} (h : ∀ f, b' f = false → b f = false) :
    clearBits n b' ≤ clearBits n b :=
  Finset.card_le_card fun f hf => by
    rw [Finset.mem_filter] at hf ⊢
    exact ⟨hf.1, h f hf.2⟩

theorem clearBits_le : clearBits n b ≤ n := by
  simpa [clearBits] using Finset.card_filter_le (Finset.range n) fun f => b f = false

theorem clearBits_none : clearBits n (fun _ => true) = 0 := by
  simp [clearBits]

theorem clearBits_all (h : ∀ f, f < n → b f = false) : clearBits n b = n := by
  rw [clearBits, Finset.filter_true_of_mem fun f hf => h f (Finset.mem_range.mp hf), Finset.card_range]

end

/-! ## The state that `pmm_init` leaves -/

structure Started (p : Pmm) : Prop where
  counted : clearBits 65536 p.bitmap + p.used = p.total
  refs : ∀ f, p.refs f = 0
  handed : p.handed = []

def Found (p : Pmm) : Prop := Started p ∧ p.used = 0

section

variable {p : Pmm} {mem : Mem} {base : Word} {fuel : Nat}

theorem Found.addFrame (h : Found p) {f : Nat} (hf : f < 65536) : Found (addFrame p f) := by
  obtain ⟨⟨hcount, hrefs, hlog⟩, hused⟩ := h
  unfold Ceblar.addFrame
  split
  next hset =>
    have hclear := clearBits_clear hf hset
    have hroom : p.total < 65536 := by
      have := clearBits_le (n := 65536) (b := update p.bitmap f false)
      omega
    refine ⟨⟨?_, hrefs, hlog⟩, hused⟩
    simp only [hclear, if_pos hroom]
    omega
  next => exact ⟨⟨hcount, hrefs, hlog⟩, hused⟩

theorem Found.addFrames (h : Found p) (first pages : Word) : Found (addFrames p first pages) := by
  unfold Ceblar.addFrames
  refine List.foldlRecOn (motive := Found) _ _ h fun q hq f hf => hq.addFrame ?_
  have := List.mem_range'_1.mp hf
  omega

theorem Found.mmapEntries {stop entrySize : Word} :
    ∀ {e : Word} {p p' : Pmm}, Found p → mmapEntries mem base stop entrySize fuel e p = some p' →
    Found p' := by
  induction fuel with
  | zero => intro e p p' _ h; cases h
  | succ fuel ih =>
    intro e p p' hp h
    rw [Ceblar.mmapEntries] at h
    split at h
    next =>
      refine ih ?_ h
      split
      · exact hp.addFrames _ _
      · exact hp
    next =>
      cases h
      exact hp

theorem Found.mbiTags {totalSize : Word} :
    ∀ {off : Word} {p p' : Pmm}, Found p → mbiTags mem base totalSize fuel off p = some p' →
    Found p' := by
  induction fuel with
  | zero => intro off p p' _ h; cases h
  | succ fuel ih =>
    intro off p p' hp h
    rw [Ceblar.mbiTags] at h
    split at h
    next =>
      dsimp only at h
      have hmap : ∀ q, (if load32 mem (base + off) = 6 then
          Ceblar.mmapEntries mem base (off + load32 mem (base + off + 4))
          (load32 mem (base + off + 8)) fuel (off + 16) p else some p) = some q → Found q := by
        intro q hq
        split at hq
        · exact hp.mmapEntries hq
        · cases hq
          exact hp
      split at h
      · exact hmap _ h
      · obtain ⟨q, hq, h⟩ := Option.bind_eq_some_iff.mp h
        exact ih (hmap q hq) h
    next =>
      cases h
      exact hp

theorem Found.orAll (h : Found p) : Found p.orAll := by
  unfold Pmm.orAll
  split
  next =>
    refine ⟨⟨?_, h.1.refs, h.1.handed⟩, h.2⟩
    have hall := clearBits_all (n := 65536) (b := fun f => if f < 65536 then false else p.bitmap f)
      fun f hf => by simp [hf]
    simp only [hall, h.2]
  next => exact h

theorem Started.reserveFrame (h : Started p) {f : Nat} (hf : f < 65536) : Started (reserveFrame p f) := by
  unfold Ceblar.reserveFrame
  split
  next => exact h
  next hclear =>
    have hset := clearBits_set hf (Bool.eq_false_iff.mpr hclear)
    have hcount := h.counted
    refine ⟨?_, h.refs, h.handed⟩
    change clearBits 65536 (update p.bitmap f true) + (p.used + 1) = p.total
    omega

theorem found_none (hbitmap : p.bitmap = fun _ => true) (hrefs : p.refs = fun _ => 0)
    (htotal : p.total = 0) (hused : p.used = 0) (hlog : p.handed = []) : Found p := by
  refine ⟨⟨?_, fun f => by rw [hrefs], hlog⟩, hused⟩
  rw [hbitmap, htotal, hused, clearBits_none]

theorem found_of_tags {totalSize off : Word} (h : mbiTags mem base totalSize fuel off
    { bitmap := fun _ => true, refs := fun _ => 0, total := 0, total_le := by decide, used := 0, handed := [] } =
      some p) : Found p :=
  Found.mbiTags (found_none rfl rfl rfl rfl rfl) h

theorem pmmInit_started {mbi kernelEnd : Word}
    (h : pmmInit mem mbi kernelEnd fuel = some p) : Started p := by
  obtain ⟨q, hq, rfl⟩ := Option.map_eq_some_iff.mp h
  unfold reserveRange
  refine List.foldlRecOn (motive := Started) _ _
    (found_of_tags hq).orAll.1 fun q hq f hf => hq.reserveFrame ?_
  have := List.mem_range'_1.mp hf
  omega

end

/-! ## The memory map -/

structure Region where
  addr : BitVec 64
  len : BitVec 64
deriving DecidableEq

def Region.first (r : Region) : Word := (r.addr / 4096).setWidth 32

def Region.pages (r : Region) : Word := (r.len / 4096).setWidth 32

def Region.stop (r : Region) : Nat := min (r.first + r.pages).toNat 65536

def Region.Holds (r : Region) (f : Nat) : Prop := r.first.toNat ≤ f ∧ f < r.stop

def Region.Contains (r : Region) (a : Nat) : Prop :=
  r.addr.toNat ≤ a ∧ a + 4096 ≤ r.addr.toNat + r.len.toNat

/-- The available entries of one map, in the order of the loop of `pmm_init`. -/
def mmapRegions (mem : Mem) (base stop entrySize : Word) : Nat → Word → Option (List Region)
  | 0, _ => none
  | fuel + 1, e =>
    if e < stop then
      let rest := mmapRegions mem base stop entrySize fuel (e + entrySize)
      if load32 mem (base + e + 16) = 1 then
        rest.map (⟨load64 mem (base + e), load64 mem (base + e + 8)⟩ :: ·)
      else rest
    else some []

def mbiRegions (mem : Mem) (base totalSize : Word) : Nat → Word → Option (List Region)
  | 0, _ => none
  | fuel + 1, off =>
    if off + 8 ≤ totalSize then
      let type := load32 mem (base + off)
      let size := load32 mem (base + off + 4)
      let entrySize := load32 mem (base + off + 8)
      let here := if type = 6 then mmapRegions mem base (off + size) entrySize fuel (off + 16)
        else some []
      if size < 8 then here
      else here.bind fun rs =>
        (mbiRegions mem base totalSize fuel ((off + size + 7) &&& ~~~7#32)).map (rs ++ ·)
    else some []

def addRegions (rs : List Region) (p : Pmm) : Pmm := rs.foldl (fun p r => addFrames p r.first r.pages) p

theorem mmapEntries_eq {base stop entrySize : Word} (fuel : Nat) (e : Word) (p : Pmm) :
    mmapEntries mem base stop entrySize fuel e p =
      (mmapRegions mem base stop entrySize fuel e).map (addRegions · p) := by
  induction fuel generalizing e p with
  | zero => rfl
  | succ fuel ih =>
    unfold mmapEntries mmapRegions
    split
    next =>
      dsimp only
      split
      next => rw [ih, Option.map_map]; rfl
      next => exact ih _ _
    next => rfl

theorem mbiTags_eq {base totalSize : Word} (fuel : Nat) (off : Word) (p : Pmm) :
    mbiTags mem base totalSize fuel off p =
      (mbiRegions mem base totalSize fuel off).map (addRegions · p) := by
  induction fuel generalizing off p with
  | zero => rfl
  | succ fuel ih =>
    unfold mbiTags mbiRegions
    split
    next =>
      dsimp only
      have hhere : ∀ (stop entrySize e : Word) (c : Prop) [Decidable c],
          (if c then mmapEntries mem base stop entrySize fuel e p else some p) =
            (if c then mmapRegions mem base stop entrySize fuel e else some []).map (addRegions · p) := by
        intro stop entrySize e c _
        split
        · exact mmapEntries_eq fuel e p
        · rfl
      rw [hhere]
      split
      next => rfl
      next =>
        cases (if load32 mem (base + off) = 6 then _ else _ : Option (List Region)) with
        | none => rfl
        | some rs =>
          simp only [Option.map_some, Option.bind_some, ih, Option.map_map]
          congr 1
          funext rest
          simp [addRegions, List.foldl_append]
    next => rfl

/-! ## The frames that are released -/

/-- The frames that the kernel takes at the start, as `reserve_range` rounds them. -/
def kernelPages (kernelEnd : Word) : Nat := ((kernelEnd + 4095) / 4096).toNat

def Released (rs : List Region) (f : Nat) : Prop :=
  f < 65536 ∧ ((∃ r ∈ rs, r.Holds f) ∨ ∀ r ∈ rs, r.stop ≤ r.first.toNat)

instance Region.decHolds (r : Region) (f : Nat) :
    Decidable (r.Holds f) := inferInstanceAs (Decidable (_ ∧ _))

instance (rs : List Region) (f : Nat) : Decidable (Released rs f) := inferInstanceAs (Decidable (_ ∧ _))

def frameCount (rs : List Region) : Nat := {f ∈ Finset.range 65536 | Released rs f}.card

section

variable {p : Pmm} {rs : List Region} {f : Nat}

theorem addFrame_list (l : List Nat) (p : Pmm) (f : Nat) :
    (l.foldl addFrame p).bitmap f = false ↔ p.bitmap f = false ∨ f ∈ l := by
  induction l generalizing p with
  | nil => simp
  | cons g l ih =>
    rw [List.foldl_cons, ih, List.mem_cons, ← or_assoc]
    apply or_congr_left
    unfold addFrame
    by_cases hfg : f = g
    · subst hfg
      split <;> simp_all
    · split <;> simp [hfg]

theorem addRegions_bitmap (rs : List Region) (p : Pmm) (f : Nat) :
    (addRegions rs p).bitmap f = false ↔ p.bitmap f = false ∨ ∃ r ∈ rs, r.Holds f := by
  induction rs generalizing p with
  | nil => simp [addRegions]
  | cons r rs ih =>
    have hr : f ∈ List.range' r.first.toNat (r.stop - r.first.toNat) ↔ r.Holds f := by
      rw [List.mem_range'_1, Region.Holds]
      omega
    have hcons : addRegions (r :: rs) p = addRegions rs (addFrames p r.first r.pages) := rfl
    rw [hcons, ih, addFrames, addFrame_list, List.exists_mem_cons_iff, ← or_assoc, ← hr]
    rfl

theorem reserveFrame_list (l : List Nat) (p : Pmm) (f : Nat) :
    ((l.foldl reserveFrame p).bitmap f = false ↔ p.bitmap f = false ∧ f ∉ l) ∧
      (l.foldl reserveFrame p).total = p.total := by
  induction l generalizing p with
  | nil => simp
  | cons g l ih =>
    have htotal : (reserveFrame p g).total = p.total := by
      unfold reserveFrame
      split <;> rfl
    refine ⟨?_, by rw [List.foldl_cons, (ih _).2, htotal]⟩
    rw [List.foldl_cons, (ih _).1, List.mem_cons, not_or, ← and_assoc]
    apply and_congr_left'
    unfold reserveFrame
    by_cases hfg : f = g
    · subst hfg
      split <;> simp_all
    · split <;> simp [hfg]

theorem exists_holds_iff {r : Region} : (∃ f, r.Holds f) ↔ r.first.toNat < r.stop :=
  ⟨fun ⟨_, h⟩ => Nat.lt_of_le_of_lt h.1 h.2, fun h => ⟨_, Nat.le_refl _, h⟩⟩

theorem Region.Holds.lt {r : Region} (h : r.Holds f) : f < 65536 :=
  Nat.lt_of_lt_of_le h.2 (Nat.min_le_right _ _)

theorem orAll_bitmap (hfound : Found p) (hbitmap : ∀ f, p.bitmap f = false ↔ ∃ r ∈ rs, r.Holds f)
    (f : Nat) :
    p.orAll.bitmap f = false ↔ Released rs f := by
  have hnone : p.total = 0 ↔ ∀ r ∈ rs, r.stop ≤ r.first.toNat := by
    have hcount := hfound.1.counted
    rw [hfound.2, Nat.add_zero] at hcount
    rw [← hcount, clearBits, Finset.card_eq_zero, Finset.filter_eq_empty_iff]
    constructor
    · intro hclear r hr
      by_contra hlt
      obtain ⟨g, hg⟩ := exists_holds_iff.mpr (Nat.lt_of_not_le hlt)
      exact hclear (Finset.mem_range.mpr hg.lt) ((hbitmap g).mpr ⟨r, hr, hg⟩)
    · intro hempty g _ hg
      obtain ⟨r, hr, hheld⟩ := (hbitmap g).mp hg
      have := exists_holds_iff.mp ⟨g, hheld⟩
      have := hempty r hr
      omega
  have hlt : p.bitmap f = false → f < 65536 := by
    rw [hbitmap]
    rintro ⟨r, -, hr⟩
    exact hr.lt
  unfold Pmm.orAll Released
  rw [← hnone, ← hbitmap]
  split
  next h0 =>
    dsimp only
    split
    next hf => simp [hf, h0]
    next hf => simp only [hf, false_and, iff_false]; exact fun h => hf (hlt h)
  next h0 => simp only [h0, or_false]; exact ⟨fun h => ⟨hlt h, h⟩, And.right⟩

theorem pmmInit_spec {mem : Mem} {mbi kernelEnd : Word} {fuel : Nat} {start : Pmm}
    (hrs : mbiRegions mem mbi (load32 mem mbi) fuel 8 = some rs)
    (hinit : pmmInit mem mbi kernelEnd fuel = some start) :
    start.total = frameCount rs ∧
      ∀ f, start.bitmap f = false ↔ Released rs f ∧ kernelPages kernelEnd ≤ f := by
  obtain ⟨q, hq, rfl⟩ := Option.map_eq_some_iff.mp hinit
  have hfound : Found q := found_of_tags hq
  rw [mbiTags_eq, hrs, Option.map_some, Option.some_inj] at hq
  have hbitmap : ∀ f, q.bitmap f = false ↔ ∃ r ∈ rs, r.Holds f := by
    intro f
    rw [← hq, addRegions_bitmap]
    simp
  have hreserve := reserveFrame_list
    (List.range' 0 (min (kernelPages kernelEnd) 65536 - 0)) q.orAll
  have heq : reserveRange q.orAll 0 kernelEnd =
      (List.range' 0 (min (kernelPages kernelEnd) 65536 - 0)).foldl reserveFrame q.orAll := rfl
  constructor
  · have hcount := hfound.orAll.1.counted
    rw [hfound.orAll.2, Nat.add_zero] at hcount
    rw [heq, (hreserve 0).2, ← hcount, clearBits, frameCount]
    exact congrArg Finset.card (Finset.filter_congr fun f _ => orAll_bitmap hfound hbitmap f)
  · intro f
    rw [heq, (hreserve f).1, List.mem_range'_1, orAll_bitmap hfound hbitmap]
    apply and_congr_right
    intro hf
    have := hf.1
    omega

end

/-- In a map in order, with a frame in it, the entries' frames are counted one after the other. -/
theorem frameCount_eq (hsome : ∃ r ∈ rs, r.first.toNat < r.stop)
    (horder : rs.Pairwise fun r r' => r.stop ≤ r'.first.toNat) :
    frameCount rs = (rs.map fun r => r.stop - r.first.toNat).sum := by
  have hheld : frameCount rs = {f ∈ Finset.range 65536 | ∃ r ∈ rs, r.Holds f}.card := by
    refine congrArg Finset.card (Finset.filter_congr fun f hf => ?_)
    have hnone : ¬∀ r ∈ rs, r.stop ≤ r.first.toNat := fun h => by
      obtain ⟨r, hr, hlt⟩ := hsome
      exact absurd (h r hr) (Nat.not_le_of_lt hlt)
    simp [Released, Finset.mem_range.mp hf, hnone]
  rw [hheld]
  clear hheld hsome
  induction rs with
  | nil => simp
  | cons r rs ih =>
    obtain ⟨hr, horder⟩ := List.pairwise_cons.mp horder
    have hsplit : {f ∈ Finset.range 65536 | ∃ r' ∈ r :: rs, r'.Holds f} =
        Finset.Ico r.first.toNat r.stop ∪ {f ∈ Finset.range 65536 | ∃ r ∈ rs, r.Holds f} := by
      ext f
      rw [Finset.mem_union, Finset.mem_Ico, Finset.mem_filter, Finset.mem_filter,
        List.exists_mem_cons_iff, and_or_left]
      refine or_congr_left ⟨And.right, fun h => ⟨Finset.mem_range.mpr ?_, h⟩⟩
      exact Region.Holds.lt h
    have hapart : Disjoint (Finset.Ico r.first.toNat r.stop)
        {f ∈ Finset.range 65536 | ∃ r ∈ rs, r.Holds f} := by
      rw [Finset.disjoint_left]
      rintro f hf hrest
      obtain ⟨-, r', hr', hlow, -⟩ := Finset.mem_filter.mp hrest
      have := hr r' hr'
      have := (Finset.mem_Ico.mp hf).2
      omega
    rw [hsplit, Finset.card_union_of_disjoint hapart, Nat.card_Ico, ih horder, List.map_cons,
      List.sum_cons]

theorem pmmInit_some {mbi : Word} {fuel : Nat}
    (hrs : mbiRegions mem mbi (load32 mem mbi) fuel 8 = some rs) (kernelEnd : Word) :
    ∃ start, pmmInit mem mbi kernelEnd fuel = some start := by
  unfold pmmInit
  rw [mbiTags_eq, hrs]
  exact ⟨_, rfl⟩

/-! ## A map as the firmware makes it -/

def infoBlock (mbi : Word) (rs : List Region) : Mem := fun a =>
  let size : Word := 16 + 24 * BitVec.ofNat 32 rs.length
  let entries := rs.flatMap fun r =>
    [r.addr.extractLsb' 0 32, r.addr.extractLsb' 32 32, r.len.extractLsb' 0 32,
      r.len.extractLsb' 32 32, 1, 0]
  let words : List Word := [size + 16, 0, 6, size, 24, 0] ++ entries ++ [0, 8]
  byteOf (words.getD ((a - mbi).toNat / 4) 0) ((a - mbi).toNat % 4)

/-- 128 MiB with the hole below 1 MiB. -/
def pcRegions : List Region := [⟨0, 0x9fc00⟩, ⟨0x100000, 0x7ee0000⟩]

def pcMap : Mem := infoBlock 0x10000 pcRegions

def pcStart : Pmm where
  bitmap := fun f => decide (f < 891 ∨ 32736 ≤ f)
  refs := fun _ => 0
  total := 32639
  total_le := by decide
  used := 794
  handed := []

theorem pcMap_regions :
    mbiRegions pcMap 0x10000 (load32 pcMap 0x10000) 20 8 = some pcRegions := by decide +kernel

theorem pcRegions_released (f : Nat) : Released pcRegions f ↔ f < 159 ∨ 256 ≤ f ∧ f < 32736 := by
  have h1 : Region.stop ⟨0, 0x9fc00⟩ = 159 := by decide
  have h2 : Region.stop ⟨0x100000, 0x7ee0000⟩ = 32736 := by decide
  have hfirst : Region.first ⟨0x100000, 0x7ee0000⟩ = 256 := by decide
  simp only [Released, pcRegions, Region.Holds, List.exists_mem_cons_iff, List.forall_mem_cons, h1,
    h2, hfirst]
  simp [Region.first]
  omega

theorem pmmInit_block {mbi kernelEnd : Word} {fuel : Nat} {p : Pmm} {a b : Nat}
    (hrs : mbiRegions mem mbi (load32 mem mbi) fuel 8 = some rs)
    (hsome : ∃ r ∈ rs, r.first.toNat < r.stop)
    (horder : rs.Pairwise fun r r' => r.stop ≤ r'.first.toNat)
    (htotal : p.total = (rs.map fun r => r.stop - r.first.toNat).sum)
    (hbits : p.bitmap = fun f => decide (f < a ∨ b ≤ f))
    (hblock : ∀ f, Released rs f ∧ kernelPages kernelEnd ≤ f ↔ a ≤ f ∧ f < b) (hb : b ≤ 65536)
    (hused : p.used + (b - a) = p.total) (hrefs : p.refs = fun _ => 0) (hlog : p.handed = []) :
    pmmInit mem mbi kernelEnd fuel = some p := by
  obtain ⟨start, hstart⟩ := pmmInit_some hrs kernelEnd
  obtain ⟨hall, hbitmap⟩ := pmmInit_spec hrs hstart
  obtain ⟨hcount, hnone, hempty⟩ := pmmInit_started hstart
  have hsame : start.bitmap = p.bitmap := by
    funext f
    rw [Bool.eq_iff_iff, ← not_iff_not, Bool.not_eq_true, hbitmap, hblock, hbits]
    simp
  have hfree : clearBits 65536 p.bitmap = b - a := by
    have hico : {f ∈ Finset.range 65536 | p.bitmap f = false} = Finset.Ico a b := by
      ext f
      simp [hbits]
      omega
    rw [clearBits, hico, Nat.card_Ico]
  rw [hsame, hfree] at hcount
  rw [hstart]
  obtain ⟨bitmap, refs, total, hle, used, handed⟩ := start
  obtain ⟨bitmap', refs', total', hle', used', handed'⟩ := p
  dsimp only at *
  obtain rfl : refs = fun _ => 0 := funext hnone
  obtain rfl : total = total' := (hall.trans (frameCount_eq hsome horder)).trans htotal.symm
  obtain rfl : used = used' := by omega
  rw [hsame, hempty, hrefs, hlog]

theorem pcMap_start : pmmInit pcMap 0x10000 0x37b000 20 = some pcStart := by
  refine pmmInit_block (a := 891) (b := 32736) pcMap_regions (by decide) (by decide) (by decide) rfl
    (fun f => ?_) (by decide) rfl rfl rfl
  rw [pcRegions_released, show kernelPages 0x37b000 = 891 by decide]
  omega

end Ceblar
