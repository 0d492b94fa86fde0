import Ceblar.Mm.Tidy

/-! # Frames that are out

An allocator from which some frames were taken, and that is as before once they are all given back.
-/

namespace Ceblar

inductive PmmReached : Pmm → Prop
  | init {mem : Mem} {mbi kernelEnd : Word} {fuel : Nat} {p : Pmm}
    (h : pmmInit mem mbi kernelEnd fuel = some p) : PmmReached p
  | alloc {p p' : Pmm} {a : Word} (h : PmmReached p) (ha : pmmAllocPage p = some (a, p')) : PmmReached p'
  | retain {p : Pmm} (h : PmmReached p) (a : Word) : PmmReached (pmmRetainPage p a)
  | free {p : Pmm} (h : PmmReached p) (a : Word) : PmmReached (pmmFreePage p a)

theorem PmmReached.clean {p : Pmm} (h : PmmReached p) : p.Clean := by
  induction h with
  | init h => exact (pmmInit_started h).clean
  | alloc _ ha ih => exact ih.alloc ha
  | retain _ a ih => exact ih.retain a
  | free _ a ih => exact ih.free a

/-! ## Taken and given back -/

structure Lent (p₀ : Pmm) (l : List Nat) (p : Pmm) : Prop where
  total : p.total = p₀.total
  bitmap : ∀ f, p.bitmap f = (p₀.bitmap f || decide (f ∈ l))
  refs : ∀ f, p.refs f = if f ∈ l then 1 else p₀.refs f
  used : p.used = p₀.used + l.length
  nodup : l.Nodup
  free : ∀ f ∈ l, 0 < f ∧ f < p₀.total ∧ p₀.bitmap f = false

def SameFrames (p q : Pmm) : Prop := p.bitmap = q.bitmap ∧ p.refs = q.refs ∧ p.used = q.used

section

variable {p₀ p p' : Pmm} {l : List Nat} {a : Word}

theorem lent_nil (p : Pmm) : Lent p [] p := ⟨rfl, by simp, by simp, rfl, List.nodup_nil, nofun⟩

theorem Lent.alloc (h : Lent p₀ l p) (ha : pmmAllocPage p = some (a, p')) :
    Lent p₀ (pageNumber a :: l) p' := by
  obtain ⟨f, hf, rfl, -, rfl⟩ := pmmAllocPage_spec ha
  obtain ⟨h0, ht, hfree, -⟩ := (firstFree_eq_some p _).mp hf
  rw [h.bitmap, Bool.or_eq_false_iff, decide_eq_false_iff_not] at hfree
  refine ⟨h.total, fun g => ?_, fun g => ?_, ?_, List.nodup_cons.mpr ⟨hfree.2, h.nodup⟩, ?_⟩
  · by_cases hg : g = pageNumber a
    · simp [hg]
    · simp [hg, h.bitmap]
  · by_cases hg : g = pageNumber a
    · simp [hg]
    · simp [hg, h.refs]
  · simp only [h.used, List.length_cons]
    omega
  · rw [List.forall_mem_cons]
    exact ⟨⟨h0, h.total ▸ ht, hfree.1⟩, h.free⟩

theorem Lent.give (hclean : p₀.Clean) (h : Lent p₀ l p) (ha : pageNumber a ∈ l) :
    Lent p₀ (l.erase (pageNumber a)) (pmmFreePage p a) := by
  obtain ⟨h0, ht, hfree⟩ := h.free _ ha
  have huse : p.inUse (pageNumber a) = true := by simp [Pmm.inUse, h0, h.total, ht, h.bitmap, ha]
  have hone : ¬ 1 < p.refs (pageNumber a) := by
    rw [h.refs, if_pos ha]
    decide
  have hmem : ∀ g, g ∈ l.erase (pageNumber a) ↔ g ≠ pageNumber a ∧ g ∈ l := fun g => h.nodup.mem_erase_iff
  have heq : pmmFreePage p a = { p with
      refs := Function.update p.refs (pageNumber a) 0
      bitmap := Function.update p.bitmap (pageNumber a) false
      used := p.used - 1 } := by
    unfold pmmFreePage
    dsimp only
    rw [if_pos huse, if_neg hone]
  rw [heq]
  refine ⟨h.total, fun g => ?_, fun g => ?_, ?_, h.nodup.erase _, fun g hg => h.free g ((hmem g).mp hg).2⟩
  · by_cases hg : g = pageNumber a
    · simp [hg, hfree, hmem]
    · simp [hg, h.bitmap, hmem]
  · by_cases hg : g = pageNumber a
    · simp [hg, hmem, hclean _ hfree]
    · simp [hg, h.refs, hmem]
  · have hlen := List.length_erase_of_mem ha
    have hpos := List.length_pos_of_mem ha
    simp only [h.used]
    omega

theorem Lent.taken (h : Lent p₀ l p) {f : Nat} (hf : f ∈ l) :
    p₀.bitmap f = false ∧ p.bitmap f = true ∧ p.refs f = 1 := by
  refine ⟨(h.free f hf).2.2, ?_, ?_⟩
  · rw [h.bitmap, decide_eq_true hf, Bool.or_true]
  · rw [h.refs, if_pos hf]

theorem Lent.perm {l' : List Nat} (h : Lent p₀ l p) (hl : l.Perm l') : Lent p₀ l' p := by
  refine ⟨h.total, fun f => ?_, fun f => ?_, ?_, hl.nodup h.nodup,
    fun f hf => h.free f (hl.mem_iff.mpr hf)⟩
  · rw [h.bitmap, decide_eq_decide.mpr hl.mem_iff]
  · simp only [h.refs, hl.mem_iff]
  · rw [h.used, hl.length_eq]

theorem Lent.same_iff (h : Lent p₀ l p) : SameFrames p₀ p ↔ l = [] := by
  constructor
  · rintro ⟨hbitmap, -, -⟩
    apply List.eq_nil_iff_forall_not_mem.mpr
    intro f hf
    have hbit := h.bitmap f
    rw [← hbitmap, (h.free f hf).2.2] at hbit
    simp [hf] at hbit
  · rintro rfl
    refine ⟨funext fun f => ?_, funext fun f => ?_, ?_⟩
    · simp [h.bitmap]
    · simp [h.refs]
    · simp [h.used]

end

end Ceblar
