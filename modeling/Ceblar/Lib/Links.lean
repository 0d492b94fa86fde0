import Mathlib.Data.List.Nodup

/-! # Linked lists

A list threaded through its own elements by a `next` function, as the segment that leads from one
pointer to another.
-/

namespace Ceblar

variable {α : Type*} {next next' : α → Option α}

def Seg (next : α → Option α) : Option α → List α → Option α → Prop
  | a, [], c => a = c
  | a, x :: xs, c => a = some x ∧ Seg next (next x) xs c

abbrev Linked (next : α → Option α) (a : Option α) (l : List α) : Prop := Seg next a l none

theorem seg_append {a c : Option α} {l r : List α} :
    Seg next a (l ++ r) c ↔ ∃ b, Seg next a l b ∧ Seg next b r c := by
  induction l generalizing a with
  | nil => simp [Seg]
  | cons x l ih => simp [Seg, ih, and_assoc]

theorem seg_congr {a c : Option α} {l : List α} (h : ∀ x ∈ l, next' x = next x) (hl : Seg next a l c) :
    Seg next' a l c := by
  induction l generalizing a with
  | nil => exact hl
  | cons x l ih =>
    obtain ⟨ha, hrest⟩ := hl
    refine ⟨ha, ?_⟩
    rw [h x (by simp)]
    exact ih (fun y hy => h y (by simp [hy])) hrest

theorem Linked.unique {a : Option α} {l r : List α} (hl : Linked next a l) (hr : Linked next a r) :
    l = r := by
  induction l generalizing a r with
  | nil =>
    cases r with
    | nil => rfl
    | cons y r => exact absurd (hl.symm.trans hr.1) (by simp)
  | cons x l ih =>
    cases r with
    | nil => exact absurd (hr.symm.trans hl.1) (by simp)
    | cons y r =>
      obtain rfl : x = y := Option.some.inj (hl.1.symm.trans hr.1)
      rw [ih hl.2 hr.2]

theorem Linked.nodup {a : Option α} {l : List α} (hl : Linked next a l) : l.Nodup := by
  induction l generalizing a with
  | nil => exact List.nodup_nil
  | cons x l ih =>
    refine List.nodup_cons.mpr ⟨fun hx => ?_, ih hl.2⟩
    obtain ⟨u, v, rfl⟩ := List.append_of_mem hx
    obtain ⟨b, -, hb, hv⟩ := seg_append.mp hl.2
    have heq := congrArg List.length (Linked.unique hl.2 hv)
    simp only [List.length_append, List.length_cons] at heq
    omega

theorem Linked.mem_of_seg {a : Option α} {l u : List α} {x : α} (hl : Linked next a l)
    (hu : Seg next a u (some x)) :
    x ∈ l := by
  induction u generalizing a l with
  | nil =>
    cases l with
    | nil => exact absurd (hl.symm.trans hu) (by simp)
    | cons y l =>
      obtain rfl : y = x := Option.some.inj (hl.1.symm.trans hu)
      simp
  | cons z u ih =>
    cases l with
    | nil => exact absurd (hl.symm.trans hu.1) (by simp)
    | cons y l =>
      obtain rfl : y = z := Option.some.inj (hl.1.symm.trans hu.1)
      exact List.mem_cons_of_mem y (ih hl.2 hu.2)

theorem seg_before {a : Option α} {l : List α} {x : α} (h : Seg next a l (some x)) :
    ∃ u, x ∉ u ∧ Seg next a u (some x) := by
  induction l generalizing a with
  | nil => exact ⟨[], by simp, h⟩
  | cons y l ih =>
    obtain ⟨ha, hrest⟩ := h
    obtain ⟨u, hu, hseg⟩ := ih hrest
    by_cases hxy : x = y
    · exact ⟨[], by simp, ha.trans (by rw [hxy])⟩
    · exact ⟨y :: u, by simp [hxy, hu], ha, hseg⟩

theorem seg_leave {x y : α} {l : List α} (hxy : y ≠ x) (h : Seg next (some x) l (some y)) :
    ∃ u, x ∉ u ∧ Seg next (next x) u (some y) := by
  induction hn : l.length using Nat.strongRecOn generalizing l with
  | ind n ih =>
    cases l with
    | nil => exact absurd (Option.some.inj h).symm hxy
    | cons z l =>
      obtain ⟨hz, hrest⟩ := h
      cases hz
      by_cases hx : x ∈ l
      · obtain ⟨u, v, rfl⟩ := List.append_of_mem hx
        obtain ⟨b, -, hb, hv⟩ := seg_append.mp hrest
        simp only [List.length_cons, List.length_append] at hn
        exact ih (v.length + 1) (by omega) (l := x :: v) ⟨rfl, hv⟩ rfl
      · exact ⟨l, hx, hrest⟩

theorem not_mem_of_seg {a : Option α} {x y : α} {l : List α} (hx : next x = none)
    (h : Seg next a l (some y)) :
    x ∉ l := by
  intro hmem
  obtain ⟨u, v, rfl⟩ := List.append_of_mem hmem
  obtain ⟨b, -, -, hv⟩ := seg_append.mp h
  rw [hx] at hv
  cases v with
  | nil => cases hv
  | cons z v => exact absurd hv.1 (by simp)

theorem seg_upto {a c : Option α} {x : α} {l : List α} (h : Seg next a l c) (hx : x ∈ l) :
    ∃ u, x ∉ u ∧ (∀ y ∈ u, y ∈ l) ∧ Seg next a u (some x) := by
  obtain ⟨u, v, rfl, hxu⟩ := List.eq_append_cons_of_mem hx
  obtain ⟨b, hu, rfl, -⟩ := seg_append.mp h
  exact ⟨u, hxu, fun y hy => List.mem_append_left _ hy, hu⟩

theorem seg_fork {a : Option α} {x y : α} {u v : List α} (hu : Seg next a u (some x))
    (hv : Seg next a v (some y)) :
    x ∈ v ∨ y ∈ u ∨ x = y := by
  induction u generalizing a v with
  | nil =>
    cases v with
    | nil => exact .inr (.inr (Option.some.inj (hu.symm.trans hv)))
    | cons z v =>
      cases hu.symm.trans hv.1
      exact .inl List.mem_cons_self
  | cons z u ih =>
    cases v with
    | nil =>
      cases hv.symm.trans hu.1
      exact .inr (.inl List.mem_cons_self)
    | cons w v =>
      cases hu.1.symm.trans hv.1
      rcases ih hu.2 hv.2 with h | h | h
      · exact .inl (List.mem_cons_of_mem z h)
      · exact .inr (.inl (List.mem_cons_of_mem z h))
      · exact .inr (.inr h)

end Ceblar
