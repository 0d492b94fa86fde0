import Mathlib.Data.List.Basic

/-! # Loops and runs

A counted loop with its invariant rule, and runs of a partial step function with the
two rules that every safety proof goes through.
-/

namespace Ceblar

/-! ## Counted loops -/

def forRange {σ : Type*} : Nat → (Nat → σ → σ) → σ → σ
  | 0, _, s => s
  | n + 1, body, s => body n (forRange n body s)

theorem forRange_inv {σ : Type*} {body : Nat → σ → σ} {s : σ} (P : Nat → σ → Prop) (n : Nat)
    (h0 : P 0 s) (hstep : ∀ i < n, ∀ s, P i s → P (i + 1) (body i s)) :
    P n (forRange n body s) := by
  induction n with
  | zero => exact h0
  | succ n ih => exact hstep n (by omega) _ (ih fun i hi => hstep i (by omega))

def forRangeE {ε σ : Type*} : Nat → (Nat → σ → Except ε σ) → σ → Except ε σ
  | 0, _, s => .ok s
  | n + 1, body, s => forRangeE n body s >>= body n

theorem forRangeE_inv {ε σ : Type*} {body : Nat → σ → Except ε σ} {s : σ} (P : Nat → σ → Prop)
    (n : Nat) (h0 : P 0 s) (hstep : ∀ i < n, ∀ s, P i s → ∃ s', body i s = .ok s' ∧ P (i + 1) s') :
    ∃ s', forRangeE n body s = .ok s' ∧ P n s' := by
  induction n with
  | zero => exact ⟨s, rfl, h0⟩
  | succ n ih =>
    obtain ⟨s1, h1, hP⟩ := ih fun i hi => hstep i (by omega)
    obtain ⟨s2, h2, hP'⟩ := hstep n (by omega) s1 hP
    exact ⟨s2, by rw [forRangeE, h1]; exact h2, hP'⟩

theorem bind_eq_ok {ε : Type*} {σ τ : Type} {x : Except ε σ} {f : σ → Except ε τ} {b : τ} :
    x >>= f = .ok b ↔ ∃ a, x = .ok a ∧ f a = .ok b := by
  cases x with
  | error e =>
    constructor
    · intro h
      cases h
    · rintro ⟨a, h, -⟩
      cases h
  | ok a =>
    constructor
    · intro h
      exact ⟨a, rfl, h⟩
    · rintro ⟨b, h, hf⟩
      cases h
      exact hf

theorem toOption_eq_some {ε σ : Type*} {x : Except ε σ} {a : σ} (h : x.toOption = some a) :
    x = .ok a := by
  cases x with
  | error e => cases h
  | ok b =>
    cases h
    rfl

theorem forRangeE_ok {ε : Type*} {σ : Type} {body : Nat → σ → Except ε σ} {s s' : σ} (P : Nat → σ → Prop)
    {n : Nat} (h0 : P 0 s) (hstep : ∀ i < n, ∀ s s', P i s → body i s = .ok s' → P (i + 1) s')
    (h : forRangeE n body s = .ok s') : P n s' := by
  induction n generalizing s' with
  | zero =>
    cases h
    exact h0
  | succ n ih =>
    obtain ⟨s1, h1, h2⟩ := bind_eq_ok.mp h
    exact hstep n (by omega) s1 s' (ih (fun i hi => hstep i (by omega)) h1) h2

theorem forRangeE_reaches {ε : Type*} {σ : Type} {body : Nat → σ → Except ε σ} {s s' : σ} (P Q : σ → Prop)
    {n i : Nat} (hi : i < n) (hbefore : ∀ j < n, j ≠ i → ∀ s s', P s → body j s = .ok s' → P s')
    (hat : ∀ s s', P s → body i s = .ok s' → Q s')
    (hafter : ∀ j < n, j ≠ i → ∀ s s', Q s → body j s = .ok s' → Q s')
    (h0 : P s) (h : forRangeE n body s = .ok s') : Q s' := by
  have hend := forRangeE_ok (fun j s => (j ≤ i → P s) ∧ (i < j → Q s)) (n := n) ⟨fun _ => h0, nofun⟩ ?_ h
  · exact hend.2 hi
  intro j hj s s' hs hbody
  rcases Nat.lt_trichotomy j i with hlt | rfl | hgt
  · exact ⟨fun _ => hbefore j hj (by omega) s s' (hs.1 (by omega)) hbody, fun h => absurd h (by omega)⟩
  · exact ⟨fun h => absurd h (by omega), fun _ => hat s s' (hs.1 (Nat.le_refl j)) hbody⟩
  · exact ⟨fun h => absurd h (by omega), fun _ => hafter j hj (by omega) s s' (hs.2 hgt) hbody⟩

theorem forRangeE_eq_foldlM {ε : Type*} {σ : Type} (body : Nat → σ → Except ε σ) (n : Nat) (s : σ) :
    forRangeE n body s = (List.range n).foldlM (fun s i => body i s) s := by
  induction n with
  | zero => rfl
  | succ n ih =>
    rw [forRangeE, ih, List.range_succ, List.foldlM_append]
    simp

structure Exits {ε σ : Type*} (E : ε → Prop) (P : σ → Prop) (r : Except ε σ) : Prop where
  error : ∀ e, r = .error e → E e
  ok : ∀ s, r = .ok s → P s

theorem exits_ok {ε σ : Type*} {E : ε → Prop} {P : σ → Prop} {s : σ} (h : P s) :
    Exits E P (.ok s : Except ε σ) :=
  ⟨nofun, fun _ hs => by cases hs; exact h⟩

theorem exits_error {ε σ : Type*} {E : ε → Prop} {P : σ → Prop} {e : ε} (h : E e) :
    Exits E P (.error e : Except ε σ) :=
  ⟨fun _ he => by cases he; exact h, nofun⟩

theorem forRangeE_exits_at {ε σ : Type*} {body : Nat → σ → Except ε σ} {s : σ} (E : ε → Prop)
    (P : Nat → σ → Prop) {n : Nat} (hbody : ∀ i < n, ∀ s, P i s → Exits E (P (i + 1)) (body i s))
    (h0 : P 0 s) :
    Exits E (P n) (forRangeE n body s) := by
  induction n with
  | zero => exact exits_ok h0
  | succ n ih =>
    have hprev := ih fun i hi => hbody i (by omega)
    rw [forRangeE]
    cases hr : forRangeE n body s with
    | error e => exact exits_error (hprev.error e hr)
    | ok s1 => exact hbody n (by omega) s1 (hprev.ok s1 hr)

theorem forRangeE_exits {ε σ : Type*} {body : Nat → σ → Except ε σ} {s : σ} (E : ε → Prop)
    (P : σ → Prop) {n : Nat} (hbody : ∀ i < n, ∀ s, P s → Exits E P (body i s)) (h0 : P s) :
    Exits E P (forRangeE n body s) :=
  forRangeE_exits_at E (fun _ => P) hbody h0

inductive Simulates {ε ε' σ τ : Type*} (E : ε → ε' → Prop) (R : σ → τ → Prop) :
    Except ε σ → Except ε' τ → Prop where
  | ok {s : σ} {t : τ} (h : R s t) : Simulates E R (.ok s) (.ok t)
  | error {e : ε} {e' : ε'} (h : E e e') : Simulates E R (.error e) (.error e')

theorem Simulates.mono {ε ε' σ τ : Type*} {E : ε → ε' → Prop} {R R' : σ → τ → Prop} {x : Except ε σ}
    {y : Except ε' τ} (h : Simulates E R x y) (hR : ∀ s t, R s t → R' s t) :
    Simulates E R' x y := by
  cases h with
  | ok h => exact .ok (hR _ _ h)
  | error h => exact .error h

theorem simulates_ok {ε ε' σ τ : Type*} {E : ε → ε' → Prop} {R : σ → τ → Prop} {x : Except ε σ} {t : τ}
    (h : Simulates E R x (.ok t)) : ∃ s, x = .ok s ∧ R s t := by
  cases h with
  | ok h => exact ⟨_, rfl, h⟩

theorem simulates_error {ε ε' σ τ : Type*} {E : ε → ε' → Prop} {R : σ → τ → Prop} {x : Except ε σ}
    {e' : ε'} (h : Simulates E R x (.error e')) : ∃ e, x = .error e ∧ E e e' := by
  cases h with
  | error h => exact ⟨_, rfl, h⟩

theorem Simulates.bind {ε ε' : Type*} {σ σ' τ τ' : Type} {E : ε → ε' → Prop} {R : σ → τ → Prop}
    {R' : σ' → τ' → Prop} {x : Except ε σ} {y : Except ε' τ} {f : σ → Except ε σ'}
    {g : τ → Except ε' τ'} (h : Simulates E R x y)
    (hrest : ∀ s t, R s t → Simulates E R' (f s) (g t)) : Simulates E R' (x >>= f) (y >>= g) := by
  cases h with
  | ok h => exact hrest _ _ h
  | error h => exact .error h

theorem forRangeE_simulates {ε ε' : Type*} {σ τ : Type} {E : ε → ε' → Prop} (R : Nat → σ → τ → Prop)
    {f : Nat → σ → Except ε σ} {g : Nat → τ → Except ε' τ} {n : Nat} {s : σ} {t : τ} (h0 : R 0 s t)
    (hstep : ∀ i < n, ∀ s t, R i s t → Simulates E (R (i + 1)) (f i s) (g i t)) :
    Simulates E (R n) (forRangeE n f s) (forRangeE n g t) := by
  induction n with
  | zero => exact .ok h0
  | succ n ih => exact (ih fun i hi => hstep i (by omega)).bind (hstep n (by omega))

/-! ## Runs -/

section Runs

variable {σ α : Type*} {step : σ → α → Option σ}

def runs (step : σ → α → Option σ) (s : σ) (as : List α) : Option σ := as.foldlM step s

@[simp] theorem runs_nil (s : σ) : runs step s [] = some s := rfl

theorem runs_cons (s : σ) (a : α) (as : List α) :
    runs step s (a :: as) = (step s a).bind fun s' => runs step s' as := rfl

theorem runs_append (s : σ) (as bs : List α) :
    runs step s (as ++ bs) = (runs step s as).bind fun s' => runs step s' bs := by
  simp only [runs, List.foldlM_append]
  rfl

theorem runs_track {τ : Type*} {track : τ → α → τ} (R : τ → σ → Prop)
    (hstep : ∀ q s a s', R q s → step s a = some s' → R (track q a) s') {q : τ} {s s' : σ}
    {as : List α} (h0 : R q s) (hrun : runs step s as = some s') : R (as.foldl track q) s' := by
  induction as generalizing q s with
  | nil => cases hrun; exact h0
  | cons a as ih =>
    rw [runs_cons, Option.bind_eq_some_iff] at hrun
    obtain ⟨s1, h1, hrest⟩ := hrun
    exact ih (hstep q s a s1 h0 h1) hrest

def Along (C : σ → α → Prop) (step : σ → α → Option σ) : σ → List α → Prop
  | _, [] => True
  | s, a :: as => C s a ∧ ∀ s', step s a = some s' → Along C step s' as

theorem along_of_forall {C : σ → α → Prop} {as : List α} (h : ∀ a ∈ as, ∀ s, C s a) (s : σ) :
    Along C step s as := by
  induction as generalizing s with
  | nil => trivial
  | cons a as ih =>
    exact ⟨h a (by simp) s, fun s' _ => ih (fun b hb => h b (by simp [hb])) s'⟩

def alongCheck (c : σ → α → Bool) (step : σ → α → Option σ) : σ → List α → Bool
  | _, [] => true
  | s, a :: as => c s a && ((step s a).map fun s' => alongCheck c step s' as).getD true

theorem along_of_check_inv {C : σ → α → Prop} {c : σ → α → Bool} (P : σ → Prop)
    (hstep : ∀ s a s', P s → step s a = some s' → P s') (hc : ∀ s a, P s → c s a = true → C s a)
    {s : σ} {as : List α} (h0 : P s) (h : alongCheck c step s as = true) : Along C step s as := by
  induction as generalizing s with
  | nil => trivial
  | cons a as ih =>
    rw [alongCheck, Bool.and_eq_true] at h
    refine ⟨hc s a h0 h.1, fun s' hs' => ih (hstep s a s' h0 hs') ?_⟩
    have hrest := h.2
    rw [hs'] at hrest
    exact hrest

theorem along_of_check {C : σ → α → Prop} {c : σ → α → Bool} (hc : ∀ s a, c s a = true → C s a)
    {s : σ} {as : List α} (h : alongCheck c step s as = true) : Along C step s as :=
  along_of_check_inv (fun _ => True) (fun _ _ _ _ _ => trivial) (fun s a _ => hc s a) trivial h

theorem runs_inv_along {C : σ → α → Prop} (P : σ → Prop)
    (hstep : ∀ s a s', P s → C s a → step s a = some s' → P s') {s s' : σ} {as : List α} (h0 : P s)
    (hC : Along C step s as) (hrun : runs step s as = some s') : P s' := by
  induction as generalizing s with
  | nil => cases hrun; exact h0
  | cons a as ih =>
    rw [runs_cons, Option.bind_eq_some_iff] at hrun
    obtain ⟨s1, h1, hrest⟩ := hrun
    exact ih (hstep s a s1 h0 hC.1 h1) (hC.2 s1 h1) hrest

theorem runs_inv (P : σ → Prop) (hstep : ∀ s a s', P s → step s a = some s' → P s') {s s' : σ}
    {as : List α} (h0 : P s) (hrun : runs step s as = some s') : P s' :=
  runs_inv_along P (fun s a s' h _ => hstep s a s' h) h0 (along_of_forall (fun _ _ _ => trivial) s) hrun

theorem along_congr {C D : σ → α → Prop} (P : σ → Prop) (hiff : ∀ s a, P s → (C s a ↔ D s a))
    (hstep : ∀ s a s', P s → C s a → step s a = some s' → P s') {s : σ} (h0 : P s) (as : List α) :
    Along C step s as ↔ Along D step s as := by
  induction as generalizing s with
  | nil => exact Iff.rfl
  | cons a as ih =>
    unfold Along
    rw [← hiff s a h0]
    refine and_congr_right fun hC => forall_congr' fun s' => forall_congr' fun hs' => ?_
    exact ih (hstep s a s' h0 hC hs')

end Runs

end Ceblar
