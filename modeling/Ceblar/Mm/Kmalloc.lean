import Ceblar.Lib.Run
import Ceblar.Mm.Blocks
import Ceblar.Mm.Entries
import Mathlib.Logic.Relation

/-! # One call of `kmalloc`

`kmalloc` adds pages until a block fits or there is no frame, and then cuts the block to the rounded
size.
-/

namespace Ceblar

def Heap.ready (area : Word) (h : Heap) : Heap := if h.head = 0 then heapInit area h else h

def Grown : Heap → Heap → Prop := Relation.ReflTransGen fun h h' => grow h = .ok (0, h')

def OnList (h : Heap) (b : Word) : Prop := ∃ bs, Seg (nextBlock h.mem) (ptr h.head) bs (some b)

section

variable {h h' : Heap} {n p : Word} {fuel : Nat}

theorem grow_used {rc : Int} (hg : grow h = .ok (rc, h')) :
    (h.vmm.pmm.firstFree = none ∧ rc ≠ 0 ∧ h' = h) ∨
      h.vmm.pmm.firstFree ≠ none ∧ rc = 0 ∧ h'.vmm.pmm.used = h.vmm.pmm.used + 1 := by
  unfold grow at hg
  split at hg
  · rename_i hnone
    cases hg
    exact .inl ⟨Option.map_eq_none_iff.mp hnone, by decide, rfl⟩
  · rename_i page pmm halloc
    obtain ⟨f, hf, -, -, rfl⟩ := pmmAllocPage_spec halloc
    refine .inr ⟨by rw [hf]; exact Option.some_ne_none f, ?_⟩
    dsimp only at hg
    split at hg
    · cases hg
    · split at hg
      · cases hg
        exact ⟨rfl, by rw [vmmMap_pmm]⟩
      · obtain ⟨t, -, hg⟩ := bind_eq_ok.mp hg
        cases hg
        exact ⟨rfl, by rw [vmmMap_pmm]⟩

theorem kmallocLoop_round (hk : kmallocLoop n (fuel + 1) h = .ok (p, h')) :
    (∃ b, findFit n (2 ^ 32) h.head h.mem = .ok (some b) ∧ p = b + headerSize ∧
      h' = { h with mem := setField (split h.mem b n) b .free 0 }) ∨
    findFit n (2 ^ 32) h.head h.mem = .ok none ∧
      ((h.vmm.pmm.firstFree = none ∧ p = 0 ∧ h' = h) ∨
        ∃ h1, grow h = .ok (0, h1) ∧ kmallocLoop n fuel h1 = .ok (p, h')) := by
  unfold kmallocLoop at hk
  obtain ⟨res, hfit, hk⟩ := bind_eq_ok.mp hk
  cases res with
  | some b =>
    cases hk
    exact .inl ⟨b, hfit, rfl, rfl⟩
  | none =>
    obtain ⟨⟨rc, h1⟩, hg, hrest⟩ := bind_eq_ok.mp hk
    dsimp only at hrest
    refine .inr ⟨hfit, ?_⟩
    rcases grow_used hg with ⟨hnone, hrc, hsame⟩ | ⟨-, rfl, -⟩
    · rw [if_pos hrc] at hrest
      cases hrest
      exact .inl ⟨hnone, rfl, hsame⟩
    · exact .inr ⟨h1, hg, hrest⟩

theorem kmallocLoop_grown (hk : kmallocLoop n fuel h = .ok (p, h')) :
    (∃ h1 b, Grown h h1 ∧ findFit n (2 ^ 32) h1.head h1.mem = .ok (some b) ∧ p = b + headerSize ∧
      h' = { h1 with mem := setField (split h1.mem b n) b .free 0 }) ∨ p = 0 ∧ Grown h h' := by
  induction fuel generalizing h with
  | zero => cases hk
  | succ fuel ih =>
    rcases kmallocLoop_round hk with ⟨b, hfit, hp, rfl⟩ | ⟨-, ⟨-, hp, rfl⟩ | ⟨h1, hg, hrest⟩⟩
    · exact .inl ⟨h, b, .refl, hfit, hp, rfl⟩
    · exact .inr ⟨hp, .refl⟩
    · rcases ih hrest with ⟨h2, b, hgrown, hend⟩ | ⟨hp, hgrown⟩
      · exact .inl ⟨h2, b, .head hg hgrown, hend⟩
      · exact .inr ⟨hp, .head hg hgrown⟩

theorem Grown.used (hg : Grown h h') : h.vmm.pmm.used ≤ h'.vmm.pmm.used := by
  induction hg with
  | refl => exact le_refl _
  | tail _ hlast ih =>
    rcases grow_used hlast with ⟨-, hrc, -⟩ | ⟨-, -, hused⟩
    · exact absurd rfl hrc
    · omega

theorem kmallocLoop_used (hk : kmallocLoop n fuel h = .ok (p, h')) :
    h.vmm.pmm.used ≤ h'.vmm.pmm.used := by
  rcases kmallocLoop_grown hk with ⟨h1, b, hgrown, -, -, rfl⟩ | ⟨-, hgrown⟩
  · exact hgrown.used
  · exact hgrown.used

theorem findFit_some {m : Mem} {a b : Word} (hfit : findFit n fuel a m = .ok (some b)) :
    (∃ bs, Seg (nextBlock m) (ptr a) bs (some b)) ∧ field m b .free ≠ 0 ∧ n ≤ field m b .size := by
  induction fuel generalizing a with
  | zero => cases hfit
  | succ fuel ih =>
    rw [findFit] at hfit
    split at hfit
    · cases hfit
    · rename_i ha
      have hptr : ptr a = some a := if_neg ha
      split at hfit
      · rename_i hroom
        cases hfit
        exact ⟨⟨[], hptr⟩, hroom⟩
      · obtain ⟨⟨bs, hbs⟩, hroom⟩ := ih hfit
        exact ⟨⟨a :: bs, hptr, hbs⟩, hroom⟩

theorem split_size (m : Mem) (b n : Word) :
    field (split m b n) b .size = if n + headerSize + 8 ≤ field m b .size then n
      else field m b .size := by
  unfold split
  split
  · simp only [field_setField_self]
  · rfl

theorem roundUp_eq (n : Word) : roundUp n = ((n + 7) >>> 3) <<< 3 := by
  unfold roundUp
  ext i hi
  simp only [BitVec.getElem_and, BitVec.getElem_not, BitVec.getElem_shiftLeft]
  interval_cases i <;> simp

theorem roundUp_wraps (hn : 0xfffffff8 < n.toNat) : roundUp n = 0 := by
  have hsum : (n + 7).toNat < 2 ^ 3 := by bv_omega
  rw [roundUp_eq]
  apply BitVec.eq_of_toNat_eq
  rw [BitVec.toNat_shiftLeft, toNat_shiftRight, Nat.div_eq_of_lt hsum]
  rfl

theorem le_roundUp (hn : n.toNat ≤ 0xfffffff8) : n.toNat ≤ (roundUp n).toNat := by
  have h7 : (n + 7).toNat = n.toNat + 7 := by bv_omega
  rw [roundUp_eq, BitVec.toNat_shiftLeft, toNat_shiftRight, Nat.shiftLeft_eq, h7]
  omega

end

end Ceblar
