import Mathlib.Data.Fintype.Card
import Mathlib.Data.Fintype.Prod

/-! # Counting references

Holders `ι` each refer to at most one resource of type `F`.
-/

namespace Ceblar

open Function

variable {ι F : Type*} [Fintype ι] [DecidableEq F]

def holders (r : ι → Option F) (f : F) : Finset ι := {i | r i = some f}

def count (r : ι → Option F) (f : F) : Nat := (holders r f).card

@[simp] theorem mem_holders (r : ι → Option F) (f : F) (i : ι) : i ∈ holders r f ↔ r i = some f := by
  simp [holders]

theorem count_pos (r : ι → Option F) (f : F) : 0 < count r f ↔ ∃ i, r i = some f := by
  rw [count, Finset.card_pos]
  exact ⟨fun ⟨i, hi⟩ => ⟨i, by simpa using hi⟩, fun ⟨i, hi⟩ => ⟨i, by simpa using hi⟩⟩

theorem count_eq_zero (r : ι → Option F) (f : F) : count r f = 0 ↔ ∀ i, r i ≠ some f := by
  have := count_pos r f
  constructor
  · intro h i hi
    have := this.mpr ⟨i, hi⟩
    omega
  · intro h
    by_contra hne
    obtain ⟨i, hi⟩ := this.mp (by omega)
    exact h i hi

theorem count_update_ne [DecidableEq ι] {r : ι → Option F} {i : ι} {x : Option F} {g : F}
    (h : r i ≠ some g) (hx : x ≠ some g) : count (update r i x) g = count r g := by
  refine congrArg Finset.card ?_
  ext j
  by_cases hj : j = i
  · subst hj; simp [h, hx]
  · simp [hj]

theorem count_take [DecidableEq ι] {r : ι → Option F} {i : ι} {f : F} (h : r i = none) :
    count (update r i (some f)) = update (count r) f (count r f + 1) := by
  funext g
  by_cases hg : g = f
  · subst hg
    rw [update_self]
    have : holders (update r i (some g)) g = insert i (holders r g) := by
      ext j
      by_cases hj : j = i
      · subst hj; simp
      · simp [hj]
    rw [count, this, Finset.card_insert_of_notMem (by simp [h])]
    rfl
  · rw [update_of_ne hg]
    exact count_update_ne (by simp [h]) (by simpa using Ne.symm hg)

theorem count_drop [DecidableEq ι] {r : ι → Option F} {i : ι} {f : F} (h : r i = some f) :
    count (update r i none) = update (count r) f (count r f - 1) := by
  funext g
  by_cases hg : g = f
  · subst hg
    rw [update_self]
    have : holders (update r i none) g = (holders r g).erase i := by
      ext j
      by_cases hj : j = i
      · subst hj; simp
      · simp [hj]
    rw [count, this, Finset.card_erase_of_mem (by simp [h])]
    rfl
  · rw [update_of_ne hg]
    exact count_update_ne (by simpa [h] using Ne.symm hg) nofun

/-- A holder of `f` exchanges it for a resource that nobody holds. -/
theorem count_move [DecidableEq ι] {r : ι → Option F} {i : ι} {f g : F} (h : r i = some f)
    (hfresh : count r g = 0) :
    count (update r i (some g)) =
      update (update (count r) g 1) f (count r f - 1) := by
  have hne : g ≠ f := by
    rintro rfl
    exact (count_eq_zero r g).mp hfresh i h
  have htake := count_take (update_self i none r) (f := g)
  rw [update_idem, count_drop h, update_of_ne hne, hfresh] at htake
  rw [htake, update_comm hne]

theorem count_le_card {α β : Type*} [Fintype α] [Fintype β] {r : α × β → Option F} {f : F}
    (h : ∀ x y, r x = some f → r y = some f → x.2 = y.2) : count r f ≤ Fintype.card α := by
  refine Finset.card_le_card_of_injOn Prod.fst (fun x _ => Finset.mem_univ _) ?_
  intro x hx y hy hxy
  simp only [Finset.mem_coe, mem_holders] at hx hy
  exact Prod.ext hxy (h x y hx hy)

end Ceblar
