import Mathlib.Data.List.Basic
import Mathlib.Logic.Function.Basic

/-! # Circular buffers

A queue in `cap` cells: `count` elements from `head` on, the last cell followed by the first.
-/

namespace Ceblar

open Function

section

variable {α : Type*} {cells : Nat → α} {cap head count : Nat}

def ringContents (cells : Nat → α) (cap head count : Nat) : List α :=
  (List.range count).map fun k => cells ((head + k) % cap)

@[simp] theorem ringContents_zero : ringContents cells cap head 0 = [] := rfl

@[simp] theorem ringContents_length : (ringContents cells cap head count).length = count := by
  simp [ringContents]

theorem ring_ne {k : Nat} (hk : k < count) (hcount : count < cap) :
    (head + k) % cap ≠ (head + count) % cap := by
  intro h
  have hmod : (count - k) % cap = 0 := by
    have := Nat.sub_mod_eq_zero_of_mod_eq h.symm
    rwa [Nat.add_sub_add_left] at this
  rw [Nat.mod_eq_of_lt (by omega)] at hmod
  omega

theorem ringContents_push (hcount : count < cap) (x : α) :
    ringContents (update cells ((head + count) % cap) x) cap head (count + 1) =
      ringContents cells cap head count ++ [x] := by
  unfold ringContents
  rw [List.range_succ, List.map_append, List.map_singleton, update_self]
  congr 1
  apply List.map_congr_left
  intro k hk
  rw [update_of_ne (ring_ne (List.mem_range.mp hk) hcount)]

theorem ringContents_pop (hhead : head < cap) :
    ringContents cells cap head (count + 1) = cells head :: ringContents cells cap
      ((head + 1) % cap) count := by
  unfold ringContents
  rw [List.range_succ_eq_map, List.map_cons, List.map_map, Nat.add_zero, Nat.mod_eq_of_lt hhead]
  congr 1
  apply List.map_congr_left
  intro k _
  rw [comp_apply, Nat.mod_add_mod]
  congr 2
  omega

end

end Ceblar
