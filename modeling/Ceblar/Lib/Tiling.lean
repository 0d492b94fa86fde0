import Mathlib.Algebra.GroupWithZero.Nat
import Mathlib.Data.List.Basic
import Mathlib.Data.List.Chain
import Mathlib.Data.List.Pairwise

/-! # Blocks that tile a range

A list of blocks tiles a range if each one starts where the one before it stops.
-/

namespace Ceblar

structure Extent where
  start : Nat
  len : Nat
  free : Bool

variable (k : Nat)

def Extent.stop (e : Extent) : Nat := e.start + k + e.len

/-- The blocks cover `[lo, hi)` without a gap. -/
def Tiles : Nat → Nat → List Extent → Prop
  | lo, hi, [] => lo = hi
  | lo, hi, e :: es => e.start = lo ∧ Tiles (e.stop k) hi es

def Spaced (es : List Extent) : Prop := es.Pairwise fun a b => a.stop k ≤ b.start

def Extent.divide (spare n : Nat) (e : Extent) : List Extent :=
  if n + k + spare ≤ e.len then
    [{ e with len := n }, { start := e.start + k + n, len := e.len - n - k, free := true }]
  else [e]

def coalesce : List Extent → List Extent
  | [] => []
  | e :: es =>
    match coalesce es with
    | [] => [e]
    | f :: fs => if e.free && f.free then { e with len := e.len + (k + f.len) } :: fs else e :: f :: fs

section

variable {k} {lo hi : Nat} {es l r : List Extent} {e : Extent}

/-! ## Tilings -/

theorem tiles_append : Tiles k lo hi (l ++ r) ↔ ∃ mid, Tiles k lo mid l ∧ Tiles k mid hi r := by
  induction l generalizing lo with
  | nil => simp [Tiles]
  | cons e l ih => simp [Tiles, ih, and_assoc]

theorem Tiles.le (h : Tiles k lo hi es) : lo + k * es.length ≤ hi := by
  induction es generalizing lo with
  | nil => simp [show lo = hi from h]
  | cons e es ih =>
    have hrest := ih h.2
    have hstart := h.1
    simp only [Extent.stop, List.length_cons, Nat.mul_add, Nat.mul_one] at hrest ⊢
    omega

theorem Tiles.bounds (h : Tiles k lo hi es) (he : e ∈ es) : lo ≤ e.start ∧ e.stop k ≤ hi := by
  obtain ⟨l, r, rfl⟩ := List.append_of_mem he
  obtain ⟨mid, hl, hstart, hr⟩ := tiles_append.mp h
  have hlo := hl.le
  have hhi := hr.le
  omega

theorem Tiles.replace (h : Tiles k lo hi (l ++ e :: r)) {es : List Extent}
    (hes : Tiles k e.start (e.stop k) es) : Tiles k lo hi (l ++ (es ++ r)) := by
  obtain ⟨mid, hl, rfl, hr⟩ := tiles_append.mp h
  exact tiles_append.mpr ⟨_, hl, tiles_append.mpr ⟨_, hes, hr⟩⟩

theorem tiles_divide (spare : Nat) {n : Nat} (e : Extent) :
    Tiles k e.start (e.stop k) (e.divide k spare n) := by
  unfold Extent.divide
  split
  · refine ⟨rfl, rfl, ?_⟩
    simp only [Tiles, Extent.stop]
    omega
  · exact ⟨rfl, rfl⟩

theorem divide_eq (k spare n : Nat) (e : Extent) :
    ∃ len rest, (∀ v, Extent.divide k spare n { e with free := v } = { e with len, free := v } :: rest) ∧
      (n ≤ e.len → n ≤ len) ∧ len ≤ e.len ∧ ∀ d ∈ rest, d.free = true := by
  unfold Extent.divide
  by_cases hroom : n + k + spare ≤ e.len
  · refine ⟨n, [{ start := e.start + k + n, len := e.len - n - k, free := true }], fun v => ?_,
      fun _ => Nat.le_refl n, by omega, by simp⟩
    rw [if_pos hroom]
  · refine ⟨e.len, [], fun v => ?_, id, Nat.le_refl _, by simp⟩
    rw [if_neg hroom]

theorem Tiles.sum (h : Tiles k lo hi es) : lo + (es.map fun e => e.len + k).sum = hi := by
  induction es generalizing lo with
  | nil => exact h
  | cons e es ih =>
    have hrest := ih h.2
    have hstart := h.1
    simp only [Extent.stop, List.map_cons, List.sum_cons] at hrest ⊢
    omega

theorem Tiles.isChain (h : Tiles k lo hi es) : es.IsChain fun a b => a.stop k = b.start := by
  induction es generalizing lo with
  | nil => exact List.IsChain.nil
  | cons e es ih =>
    cases es with
    | nil => exact List.IsChain.singleton e
    | cons f es => exact List.isChain_cons_cons.mpr ⟨h.2.1.symm, ih h.2⟩

theorem Spaced.start_ne (hk : 0 < k) (h : Spaced k (l ++ e :: r)) {d : Extent} (hd : d ∈ l ∨ d ∈ r) :
    d.start ≠ e.start := by
  obtain ⟨-, hr, hl⟩ := List.pairwise_append.mp h
  have he := (List.pairwise_cons.mp hr).1
  unfold Extent.stop at he hl
  rcases hd with hd | hd
  · have := hl d hd e (by simp)
    omega
  · have := he d hd
    omega

/-! ## Coalescing -/

theorem coalesce_cons {f : Extent} {fs : List Extent} (h : coalesce k es = f :: fs) :
    coalesce k (e :: es) =
      if e.free && f.free then { e with len := e.len + (k + f.len) } :: fs else e :: f :: fs := by
  rw [coalesce, h]

theorem coalesce_start (e : Extent) (es : List Extent) :
    ∃ f fs, coalesce k (e :: es) = f :: fs ∧ f.start = e.start ∧ f.free = e.free := by
  unfold coalesce
  split
  · exact ⟨e, [], rfl, rfl, rfl⟩
  · split
    · exact ⟨_, _, rfl, rfl, rfl⟩
    · exact ⟨_, _, rfl, rfl, rfl⟩

theorem coalesce_cons_cons (e f : Extent) (es : List Extent) :
    coalesce k (e :: f :: es) =
      if e.free && f.free then coalesce k ({ e with len := e.len + (k + f.len) } :: es)
      else e :: coalesce k (f :: es) := by
  obtain ⟨g, gs, hg, -, hfree⟩ := coalesce_start (k := k) f es
  rw [coalesce_cons hg, hfree, hg]
  split
  · rename_i hboth
    have hf : f.free = true := (Bool.and_eq_true _ _ ▸ hboth).2
    rw [coalesce] at hg ⊢
    cases hes : coalesce k es with
    | nil =>
      rw [hes] at hg
      cases hg
      rfl
    | cons d ds =>
      rw [hes] at hg
      simp only [hf, Bool.true_and] at hg ⊢
      have he : e.free = true := (Bool.and_eq_true _ _ ▸ hboth).1
      simp only [he, Bool.true_and]
      split at hg
      · cases hg
        rename_i hd
        rw [if_pos hd]
        simp only [Nat.add_assoc]
      · cases hg
        rename_i hd
        rw [if_neg hd]
  · rfl

theorem tiles_coalesce (h : Tiles k lo hi es) : Tiles k lo hi (coalesce k es) := by
  induction es generalizing lo with
  | nil => exact h
  | cons e es ih =>
    have hrest := ih h.2
    rw [coalesce]
    cases hc : coalesce k es with
    | nil =>
      rw [hc] at hrest
      exact ⟨h.1, hrest⟩
    | cons f fs =>
      rw [hc] at hrest
      simp only
      split
      · refine ⟨h.1, ?_⟩
        have hstart := hrest.1
        have hstop : f.stop k = Extent.stop k { e with len := e.len + (k + f.len) } := by
          simp only [Extent.stop] at hstart ⊢
          omega
        exact hstop ▸ hrest.2
      · exact ⟨h.1, hrest⟩

theorem exists_of_mem_coalesce (h : e ∈ coalesce k es) : ∃ f ∈ es, f.start = e.start := by
  induction es with
  | nil => cases h
  | cons f es ih =>
    rw [coalesce] at h
    cases hc : coalesce k es with
    | nil =>
      rw [hc] at h
      rcases List.mem_singleton.mp h with rfl
      exact ⟨e, by simp, rfl⟩
    | cons g gs =>
      rw [hc] at h ih
      simp only at h
      split at h
      · rcases List.mem_cons.mp h with rfl | h
        · exact ⟨f, by simp, rfl⟩
        · obtain ⟨d, hd, hstart⟩ := ih (by simp [h])
          exact ⟨d, by simp [hd], hstart⟩
      · rcases List.mem_cons.mp h with rfl | h
        · exact ⟨e, by simp, rfl⟩
        · obtain ⟨d, hd, hstart⟩ := ih h
          exact ⟨d, by simp [hd], hstart⟩

theorem coalesce_forall {P : Extent → Prop}
    (hjoin : ∀ e f, P e → P f → P { e with len := e.len + (k + f.len) }) (h : ∀ e ∈ es, P e) :
    ∀ e ∈ coalesce k es, P e := by
  induction es with
  | nil => exact h
  | cons f es ih =>
    have hf := h f (by simp)
    have hrest := ih fun e he => h e (by simp [he])
    rw [coalesce]
    cases hc : coalesce k es with
    | nil => simpa using hf
    | cons g gs =>
      rw [hc] at hrest
      have hg := hrest g (by simp)
      simp only
      split
      · intro e he
        rcases List.mem_cons.mp he with rfl | he
        · exact hjoin f g hf hg
        · exact hrest e (by simp [he])
      · intro e he
        rcases List.mem_cons.mp he with rfl | he
        · exact hf
        · exact hrest e he

theorem coalesce_isChain (es : List Extent) :
    (coalesce k es).IsChain fun a b => ¬ (a.free = true ∧ b.free = true) := by
  induction es with
  | nil => exact List.IsChain.nil
  | cons e es ih =>
    rw [coalesce]
    cases hc : coalesce k es with
    | nil => exact List.IsChain.singleton e
    | cons f fs =>
      rw [hc] at ih
      simp only
      split
      · rename_i hboth
        obtain ⟨-, hf⟩ := Bool.and_eq_true _ _ ▸ hboth
        -- the joined block is as free as the one behind it was
        cases fs with
        | nil => exact List.IsChain.singleton _
        | cons g gs =>
          obtain ⟨hfg, hrest⟩ := List.isChain_cons_cons.mp ih
          exact List.isChain_cons_cons.mpr ⟨fun hfree => hfg ⟨hf, hfree.2⟩, hrest⟩
      · rename_i hboth
        refine List.isChain_cons_cons.mpr ⟨fun hfree => hboth ?_, ih⟩
        rw [hfree.1, hfree.2]
        rfl

theorem stop_le_of_mem_coalesce (hs : Spaced k es) (h : e ∈ coalesce k es) :
    ∃ f ∈ es, e.stop k ≤ f.stop k := by
  induction es generalizing e with
  | nil => cases h
  | cons f es ih =>
    obtain ⟨hf, hrest⟩ := List.pairwise_cons.mp hs
    rw [coalesce] at h
    cases hc : coalesce k es with
    | nil =>
      rw [hc] at h
      rcases List.mem_singleton.mp h with rfl
      exact ⟨e, by simp, Nat.le_refl _⟩
    | cons g gs =>
      have hbehind : ∀ d ∈ g :: gs, ∃ c ∈ f :: es, d.stop k ≤ c.stop k := by
        intro d hd
        obtain ⟨c, hc', hle⟩ := ih hrest (hc ▸ hd)
        exact ⟨c, by simp [hc'], hle⟩
      rw [hc] at h
      simp only at h
      split at h
      · rcases List.mem_cons.mp h with rfl | h
        · obtain ⟨c, hmem, hle⟩ := hbehind g (by simp)
          obtain ⟨d, hd, hstart⟩ := exists_of_mem_coalesce (e := g) (hc ▸ List.mem_cons_self)
          have hfd := hf d hd
          refine ⟨c, hmem, Nat.le_trans ?_ hle⟩
          simp only [Extent.stop] at hfd ⊢
          omega
        · exact hbehind e (by simp [h])
      · rcases List.mem_cons.mp h with rfl | h
        · exact ⟨e, by simp, Nat.le_refl _⟩
        · exact hbehind e h

theorem mem_coalesce (he : e.free = false) : e ∈ coalesce k es ↔ e ∈ es := by
  induction es with
  | nil => rfl
  | cons f es ih =>
    rw [coalesce, List.mem_cons, ← ih]
    cases coalesce k es with
    | nil => simp
    | cons g gs =>
      simp only
      split
      · rename_i hboth
        obtain ⟨hf, hg⟩ := Bool.and_eq_true _ _ ▸ hboth
        have hne : ∀ d : Extent, d.free = true → e ≠ d := by
          rintro d hd rfl
          exact absurd (he.symm.trans hd) (by decide)
        simp [hne f hf, hne g hg, hne { f with len := f.len + (k + g.len) } hf]
      · simp

theorem coalesce_append (h : ∀ a ∈ l.getLast?, ∀ b ∈ r.head?, ¬ (a.free = true ∧ b.free = true)) :
    coalesce k (l ++ r) = coalesce k l ++ coalesce k r := by
  induction l with
  | nil => rfl
  | cons e l ih =>
    cases l with
    | nil =>
      cases r with
      | nil => rfl
      | cons b r =>
        rw [List.singleton_append, coalesce_cons_cons, if_neg]
        · rfl
        · rw [Bool.and_eq_true]
          exact h e (by simp) b (by simp)
    | cons f l =>
      have hrest := ih (fun a ha => h a (by simpa using ha))
      obtain ⟨g, gs, hg, -⟩ := coalesce_start (k := k) f l
      rw [hg] at hrest
      rw [List.cons_append, coalesce_cons hrest, coalesce_cons hg]
      split
      · rfl
      · rfl

end

end Ceblar
