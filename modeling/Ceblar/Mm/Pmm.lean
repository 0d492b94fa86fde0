import Ceblar.Lib.Word
import Mathlib.Data.List.Range
import Mathlib.Logic.Function.Basic

/-! # The page frame allocator (`mm/pmm.c`)

A bitmap, a 16-bit reference count for each frame and a count of used frames. Every call runs to its
end, as the spinlock has it.
-/

namespace Ceblar

/-- The static data of `pmm.c`. A frame is known by its number, the address divided by 4096. -/
structure Pmm where
  /-- `page_bitmap`, one bit for each frame: `true` is in use. -/
  bitmap : Nat → Bool
  /-- `page_refs`. -/
  refs : Nat → BitVec 16
  /-- `total_pages_count`, at most `MAX_PHYS_PAGES`. -/
  total : Nat
  total_le : total ≤ 65536
  /-- `used_pages_count`. -/
  used : Nat
  /-- The frames handed out so far, newest first. A history variable: no function reads it. -/
  handed : List Nat

/-- The first free frame from 1 on, where `pmm_alloc_page` stops. -/
def Pmm.firstFree (p : Pmm) : Option Nat :=
  (List.range' 1 (p.total - 1)).find? fun f => !p.bitmap f

/-- `pmm_alloc_page`: the address of a frame, or `none` for the source's 0. -/
def pmmAllocPage (p : Pmm) : Option (Word × Pmm) :=
  p.firstFree.map fun f =>
    (BitVec.ofNat 32 (f * 4096),
      { p with
        bitmap := Function.update p.bitmap f true
        refs := Function.update p.refs f 1
        used := p.used + 1
        handed := f :: p.handed })

def Pmm.inUse (p : Pmm) (f : Nat) : Bool := 0 < f && f < p.total && p.bitmap f

def pmmRetainPage (p : Pmm) (a : Word) : Pmm :=
  let f := pageNumber a
  if p.inUse f && p.refs f != 0xffff then
    { p with refs := Function.update p.refs f (p.refs f + 1) }
  else p

def pmmFreePage (p : Pmm) (a : Word) : Pmm :=
  let f := pageNumber a
  if p.inUse f then
    if 1 < p.refs f then { p with refs := Function.update p.refs f (p.refs f - 1) }
    else
      { p with
        refs := Function.update p.refs f 0
        bitmap := Function.update p.bitmap f false
        used := p.used - 1 }
  else p

/-! ## First fit -/

theorem firstFree_eq_some (p : Pmm) (f : Nat) :
    p.firstFree = some f ↔
      0 < f ∧ f < p.total ∧ p.bitmap f = false ∧ ∀ g, 0 < g → g < f → p.bitmap g = true := by
  rw [Pmm.firstFree, List.find?_range'_eq_some]
  simp only [Bool.not_eq_eq_eq_not, Bool.not_true, List.mem_range'_1, Bool.not_not]
  constructor
  · rintro ⟨hf, ⟨h1, h2⟩, hlt⟩
    exact ⟨by omega, by omega, hf, fun g h0 hg => hlt g (by omega) hg⟩
  · rintro ⟨h0, ht, hf, hlt⟩
    exact ⟨hf, ⟨by omega, by omega⟩, fun g h1 hg => hlt g (by omega) hg⟩

theorem firstFree_eq_none (p : Pmm) :
    p.firstFree = none ↔ ∀ f, 0 < f → f < p.total → p.bitmap f = true := by
  rw [Pmm.firstFree, List.find?_eq_none]
  simp only [List.mem_range'_1, Bool.not_eq_eq_eq_not, Bool.not_true, Bool.not_eq_false]
  constructor
  · intro h f h0 ht
    exact h f ⟨by omega, by omega⟩
  · intro h f hf
    exact h f (by omega) (by omega)

theorem firstFree_congr {p p' : Pmm} (hbit : p'.bitmap = p.bitmap) (htotal : p'.total = p.total) :
    p'.firstFree = p.firstFree := by
  rw [Pmm.firstFree, Pmm.firstFree, hbit, htotal]

theorem pmmAllocPage_spec {p p' : Pmm} {a : Word} (h : pmmAllocPage p = some (a, p')) :
    ∃ f, p.firstFree = some f ∧ pageNumber a = f ∧ pageBase a = a ∧
      p' = { p with
        bitmap := Function.update p.bitmap f true
        refs := Function.update p.refs f 1
        used := p.used + 1
        handed := f :: p.handed } := by
  simp only [pmmAllocPage, Option.map_eq_some_iff, Prod.mk.injEq] at h
  obtain ⟨f, hf, rfl, rfl⟩ := h
  have hlt := ((firstFree_eq_some p f).mp hf).2.1
  have hn : pageNumber (BitVec.ofNat 32 (f * 4096)) = f :=
    pageNumber_ofNat f (by have := p.total_le; omega)
  refine ⟨f, hf, hn, ?_, rfl⟩
  apply BitVec.eq_of_toNat_eq
  rw [toNat_pageBase, hn, BitVec.toNat_ofNat]
  have := p.total_le
  omega

theorem pmmAllocPage_of_free {p : Pmm} (h : p.firstFree.isSome = true) :
    ∃ a p', pmmAllocPage p = some (a, p') := by
  obtain ⟨f, hf⟩ := Option.isSome_iff_exists.mp h
  exact ⟨_, _, by rw [pmmAllocPage, hf]; rfl⟩

theorem pmmAllocPage_other {p p' : Pmm} {a : Word} (h : pmmAllocPage p = some (a, p')) {g : Nat}
    (hg : p.bitmap g = true) :
    pageNumber a ≠ g ∧ p'.bitmap g = true ∧ p'.refs g = p.refs g := by
  obtain ⟨f, hf, rfl, -, rfl⟩ := pmmAllocPage_spec h
  have hfree := ((firstFree_eq_some p _).mp hf).2.2.1
  have hne : g ≠ pageNumber a := by
    rintro rfl
    simp [hfree] at hg
  exact ⟨hne.symm, by simp [hne, hg], by simp [hne]⟩

@[simp] theorem pmmRetainPage_bitmap (p : Pmm) (a : Word) : (pmmRetainPage p a).bitmap = p.bitmap := by
  simp only [pmmRetainPage]
  split <;> rfl

@[simp] theorem pmmFreePage_handed (p : Pmm) (a : Word) : (pmmFreePage p a).handed = p.handed := by
  simp only [pmmFreePage]
  split
  · split <;> rfl
  · rfl

theorem pmmFreePage_other (p : Pmm) {a : Word} {g : Nat} (hg : pageNumber a ≠ g) :
    (pmmFreePage p a).bitmap g = p.bitmap g ∧ (pmmFreePage p a).refs g = p.refs g := by
  simp only [pmmFreePage]
  split
  · split <;> simp [hg.symm]
  · exact ⟨rfl, rfl⟩

theorem pmmFreePage_alloc {p p' : Pmm} {a : Word} (h : pmmAllocPage p = some (a, p')) :
    (pmmFreePage p' a).bitmap = p.bitmap ∧
      (pmmFreePage p' a).refs = Function.update p.refs (pageNumber a) 0 ∧
      (pmmFreePage p' a).firstFree = some (pageNumber a) := by
  obtain ⟨f, hf, rfl, -, rfl⟩ := pmmAllocPage_spec h
  obtain ⟨h0, ht, hfree, -⟩ := (firstFree_eq_some p _).mp hf
  have hbit : Function.update p.bitmap (pageNumber a) false = p.bitmap := by
    rw [← hfree]
    exact Function.update_eq_self _ _
  refine ⟨by simp [pmmFreePage, Pmm.inUse, h0, ht, hbit], by simp [pmmFreePage, Pmm.inUse, h0, ht], ?_⟩
  rw [← hf]
  exact firstFree_congr (by simp [pmmFreePage, Pmm.inUse, h0, ht, hbit])
    (by simp [pmmFreePage, Pmm.inUse, h0, ht])

/-! ## Counts that match the owners -/

/-- The allocator agrees that frame `f` has `k` owners: an owned frame is in use and counts
its owners, and a frame that was handed out and has no owner left is free. -/
structure ExactAt (p : Pmm) (f k : Nat) : Prop where
  held : 0 < k → p.inUse f = true ∧ (p.refs f).toNat = k
  gone : f ∈ p.handed → k = 0 → p.refs f = 0 ∧ p.bitmap f = false

def Exact (p : Pmm) (n : Nat → Nat) : Prop := ∀ f, ExactAt p f (n f)

variable {p p' : Pmm} {n : Nat → Nat} {a : Word}

theorem inUse_iff (p : Pmm) (f : Nat) : p.inUse f = true ↔ 0 < f ∧ f < p.total ∧ p.bitmap f = true := by
  simp [Pmm.inUse, and_assoc]

theorem Exact.update (h : Exact p n) (f k : Nat) (ht : p'.total = p.total)
    (hsame : ∀ g, g ≠ f → p'.bitmap g = p.bitmap g ∧ p'.refs g = p.refs g ∧
      (g ∈ p'.handed → g ∈ p.handed))
    (hf : ExactAt p' f k) : Exact p' (Function.update n f k) := by
  intro g
  by_cases hg : g = f
  · subst hg
    rwa [Function.update_self]
  · obtain ⟨hbit, hrefs, hlog⟩ := hsame g hg
    rw [Function.update_of_ne hg]
    refine ⟨fun hpos => ?_, fun hm hz => ?_⟩
    · rw [inUse_iff, hbit, hrefs, ht, ← inUse_iff]
      exact (h g).held hpos
    · rw [hbit, hrefs]
      exact (h g).gone (hlog hm) hz

theorem Exact.alloc (h : Exact p n) (ha : pmmAllocPage p = some (a, p')) :
    n (pageNumber a) = 0 ∧ Exact p' (Function.update n (pageNumber a) 1) := by
  obtain ⟨f, hf, rfl, -, rfl⟩ := pmmAllocPage_spec ha
  obtain ⟨h0, ht, hbit, -⟩ := (firstFree_eq_some p _).mp hf
  have hn : n (pageNumber a) = 0 := by
    by_contra hne
    have := (inUse_iff _ _).mp ((h (pageNumber a)).held (by omega)).1
    simp [hbit] at this
  refine ⟨hn, h.update (pageNumber a) 1 rfl ?_ ⟨fun _ => ?_, fun _ hz => by omega⟩⟩
  · intro g hg
    simp [hg]
  · simp [inUse_iff, h0, ht]

theorem Exact.retain (h : Exact p n) (hpos : 0 < n (pageNumber a)) (hroom : n (pageNumber a) < 0xffff) :
    Exact (pmmRetainPage p a) (Function.update n (pageNumber a) (n (pageNumber a) + 1)) := by
  obtain ⟨huse, hrefs⟩ := (h _).held hpos
  have hne : ¬ p.refs (pageNumber a) = 0xffff#16 := by
    intro he
    rw [he, BitVec.toNat_ofNat] at hrefs
    omega
  have hadd : (p.refs (pageNumber a) + 1).toNat = n (pageNumber a) + 1 := by
    rw [BitVec.toNat_add, hrefs]
    exact Nat.mod_eq_of_lt (by simp; omega)
  rw [pmmRetainPage, if_pos (by simp [huse, hne])]
  refine h.update _ _ rfl (fun g hg => by simp [hg]) ⟨fun _ => ?_, fun _ hz => by omega⟩
  rw [inUse_iff] at huse ⊢
  exact ⟨huse, by simp only [Function.update_self, hadd]⟩

theorem Exact.free (h : Exact p n) (hpos : 0 < n (pageNumber a)) :
    Exact (pmmFreePage p a) (Function.update n (pageNumber a) (n (pageNumber a) - 1)) := by
  obtain ⟨huse, hrefs⟩ := (h _).held hpos
  rw [pmmFreePage, if_pos huse]
  rw [inUse_iff] at huse
  split <;> rename_i hmany
  · have hlt : 1 < n (pageNumber a) := by
      rw [← hrefs]
      exact hmany
    have hsub : (p.refs (pageNumber a) - 1).toNat = n (pageNumber a) - 1 := by
      rw [BitVec.toNat_sub_of_le (by rw [BitVec.le_def, hrefs]; exact hpos), hrefs]
      rfl
    refine h.update _ _ rfl (fun g hg => by simp [hg]) ⟨fun _ => ?_, fun _ hz => by omega⟩
    exact ⟨(inUse_iff _ _).mpr huse, by simp only [Function.update_self, hsub]⟩
  · have hone : n (pageNumber a) = 1 := by
      have : ¬ 1 < (p.refs (pageNumber a)).toNat := hmany
      omega
    refine h.update _ _ rfl (fun g hg => by simp [hg]) ⟨fun hk => by omega, fun _ _ => ?_⟩
    simp

theorem Exact.alloc_free (h : Exact p n) (ha : pmmAllocPage p = some (a, p')) :
    Exact (pmmFreePage p' a) n := by
  obtain ⟨hfresh, hexact⟩ := h.alloc ha
  have hfree := hexact.free (a := a) (by simp)
  rw [Function.update_self, Function.update_idem, Nat.sub_self] at hfree
  have hn : Function.update n (pageNumber a) 0 = n := by
    rw [← hfresh]
    exact Function.update_eq_self _ _
  rwa [hn] at hfree

end Ceblar
