import Ceblar.Lib.Run
import Ceblar.Lib.Word

/-! # Spinlocks (`kernel/spinlock.c`)

Each access to the shared data is a step of its own, as is every `xchg` of the loop. Stores become
visible in the order they are made.
-/

namespace Ceblar

open Function

section

variable {ι σ Op Res : Type}

/-- What a function under a lock has still to do, one constructor for each access to the shared
data: a load goes on by what it reads, a store changes the data. -/
inductive Code (σ Res : Type) where
  | done (r : Res)
  | load (next : σ → Code σ Res)
  | store (write : σ → σ) (next : Code σ Res)

def Code.read {α : Type} (var : σ → α) (next : α → Code σ Res) : Code σ Res := .load fun s => next (var s)

def Code.next : Code σ Res → σ → Option (Code σ Res × σ)
  | .done _, _ => none
  | .load next, s => some (next s, s)
  | .store write next, s => some (next, write s)

/-- The accesses one after the other, with no other processor between them. -/
def Code.run : Code σ Res → σ → Res × σ
  | .done r, s => (r, s)
  | .load next, s => (next s).run s
  | .store write next, s => next.run (write s)

theorem Code.run_read {α : Type} (var : σ → α) (next : α → Code σ Res) (s : σ) :
    (Code.read var next).run s = (next (var s)).run s :=
  rfl

theorem Code.run_next {c c' : Code σ Res} {s s' : σ} (h : c.next s = some (c', s')) :
    c'.run s' = c.run s := by
  cases c with
  | done r => cases h
  | load next => cases h; rfl
  | store write next => cases h; rfl

inductive LockPhase (σ Op Res : Type) where
  | outside
  | spinning (op : Op) (flags : Word)
  | inside (op : Op) (flags : Word) (code : Code σ Res)
  | leaving (op : Op) (flags : Word) (res : Res)

structure LockState (ι σ Op Res : Type) where
  value : Word
  shared : σ
  eflags : ι → Word
  phase : ι → LockPhase σ Op Res
  /-- What was called and returned, newest first, noted when the lock is given back. A history
  variable. -/
  calls : List (ι × Op × Res)

inductive LockAct (ι Op : Type) where
  | lock (i : ι) (op : Op)
  | xchg (i : ι)
  | access (i : ι)
  | unlock (i : ι)
  | restore (i : ι)
  /-- Outside of the lock the flags are the processor's own. -/
  | flags (i : ι) (w : Word)

def interruptFlag : Word := 0x200

variable [DecidableEq ι]

def LockState.go (w : LockState ι σ Op Res) (i : ι) (p : LockPhase σ Op Res) : LockState ι σ Op Res :=
  { w with phase := update w.phase i p }

def LockState.setFlags (w : LockState ι σ Op Res) (i : ι) (f : Word) : LockState ι σ Op Res :=
  { w with eflags := update w.eflags i f }

def lockStep (B : Op → Code σ Res) (w : LockState ι σ Op Res) :
    LockAct ι Op → Option (LockState ι σ Op Res)
  | .lock i op =>
    match w.phase i with
    | .outside => some ((w.go i (.spinning op (w.eflags i))).setFlags i (w.eflags i &&& ~~~interruptFlag))
    | _ => none
  | .xchg i =>
    match w.phase i with
    | .spinning op flags =>
      if w.value = 0 then some ({ w with value := 1 }.go i (.inside op flags (B op)))
      else some { w with value := 1 }
    | _ => none
  | .access i =>
    match w.phase i with
    | .inside op flags c =>
      (c.next w.shared).map fun r => { w with shared := r.2 }.go i (.inside op flags r.1)
    | _ => none
  | .unlock i =>
    match w.phase i with
    | .inside op flags (.done r) =>
      some ({ w with value := 0, calls := (i, op, r) :: w.calls }.go i (.leaving op flags r))
    | _ => none
  | .restore i =>
    match w.phase i with
    | .leaving _ flags _ => some ((w.go i .outside).setFlags i flags)
    | _ => none
  | .flags i f =>
    match w.phase i with
    | .outside => some (w.setFlags i f)
    | _ => none

def LockState.initial (s : σ) (eflags : ι → Word) : LockState ι σ Op Res :=
  ⟨0, s, eflags, fun _ => .outside, []⟩

/-! ## What the lock guarantees -/

def Serial (f : Op → σ → Res × σ) (s₀ : σ) : List (ι × Op × Res) → σ → Prop
  | [], s => s = s₀
  | (_, op, r) :: l, s => ∃ s1, Serial f s₀ l s1 ∧ f op s1 = (r, s)

def LockPhase.section : LockPhase σ Op Res → Option (Op × Code σ Res)
  | .inside op _ c => some (op, c)
  | _ => none

structure Serialized (f : Op → σ → Res × σ) (s₀ : σ) (w : LockState ι σ Op Res) : Prop where
  exclusive : ∀ i j, (w.phase i).section.isSome → (w.phase j).section.isSome → i = j
  /-- No interrupt comes between a processor's `cli` and its `irq_restore`. -/
  quiet : ∀ i, w.phase i = .outside ∨ w.eflags i &&& interruptFlag = 0
  /-- The shared data is what the calls leave that have given the lock back, as if no other had run. -/
  free : w.value = 0 → (∀ i, (w.phase i).section = none) ∧ Serial f s₀ w.calls w.shared
  /-- A call that is inside goes on from what they left, and comes to its end. -/
  held : w.value ≠ 0 → ∃ i op c s, (w.phase i).section = some (op, c) ∧ Serial f s₀ w.calls s ∧
    c.run w.shared = f op s
  returned : ∀ i op flags r, w.phase i = .leaving op flags r →
    w.calls.find? (fun c => c.1 = i) = some (i, op, r)

variable {B : Op → Code σ Res} {f : Op → σ → Res × σ} {s₀ : σ} {w w' : LockState ι σ Op Res} {i : ι}

theorem and_not_interruptFlag (e : Word) : e &&& ~~~interruptFlag &&& interruptFlag = 0 := by
  rw [BitVec.and_assoc, BitVec.and_comm (~~~interruptFlag), BitVec.and_not_self]
  exact BitVec.and_zero

theorem Serialized.initial (s₀ : σ) (eflags : ι → Word) : Serialized f s₀ (.initial s₀ eflags) where
  exclusive := nofun
  quiet _ := .inl rfl
  free _ := ⟨fun _ => rfl, rfl⟩
  held h := absurd rfl h
  returned := nofun

theorem section_update (phase : ι → LockPhase σ Op Res) (i j : ι) (p : LockPhase σ Op Res) :
    (update phase i p j).section = if j = i then p.section else (phase j).section := by
  rw [update_apply]
  split <;> rfl

theorem Serialized.aside (h : Serialized f s₀ w) {p : LockPhase σ Op Res} {e : Word}
    (hi : (w.phase i).section = none) (hp : p.section = none)
    (hq : p = .outside ∨ e &&& interruptFlag = 0) (hr : ∀ op flags r, p ≠ .leaving op flags r) :
    Serialized f s₀ ((w.go i p).setFlags i e) := by
  have hsame : ∀ j, (((w.go i p).setFlags i e).phase j).section = (w.phase j).section := by
    intro j
    refine (section_update ..).trans ?_
    split
    · rename_i hj
      rw [hj, hp, hi]
    · rfl
  refine ⟨?_, ?_, ?_, ?_, ?_⟩
  · simp only [hsame]
    exact h.exclusive
  · intro j
    by_cases hj : j = i
    · simpa [LockState.go, LockState.setFlags, hj] using hq
    · simpa [LockState.go, LockState.setFlags, hj] using h.quiet j
  · simp only [hsame]
    exact h.free
  · simp only [hsame]
    exact h.held
  · intro j op flags r hj
    by_cases hji : j = i
    · exact absurd (by simpa [LockState.go, LockState.setFlags, hji] using hj) (hr op flags r)
    · exact h.returned j op flags r (by simpa [LockState.go, LockState.setFlags, hji] using hj)

theorem Serialized.own (h : Serialized f s₀ w) {p : LockPhase σ Op Res}
    (hphase : w'.phase = update w.phase i p)
    (hflags : w'.eflags = w.eflags) (hi : w.phase i ≠ .outside) (hothers : ∀ j, j ≠ i →
      (w.phase j).section = none)
    (hcalls : ∀ j, j ≠ i → w'.calls.find? (fun c => c.1 = j) = w.calls.find? (fun c => c.1 = j))
    (hret : ∀ op flags r, p = .leaving op flags r → w'.calls.find? (fun c => c.1 = i) = some (i, op, r))
    (hfree : w'.value = 0 → p.section = none ∧ Serial f s₀ w'.calls w'.shared)
    (hheld : w'.value ≠ 0 → ∃ op c s, p.section = some (op, c) ∧ Serial f s₀ w'.calls s ∧
      c.run w'.shared = f op s) :
    Serialized f s₀ w' := by
  have hsection : ∀ j, (w'.phase j).section = if j = i then p.section else none := by
    intro j
    rw [hphase, section_update]
    split
    · rfl
    · exact hothers j ‹_›
  have honly : ∀ j, (w'.phase j).section.isSome → j = i := by
    intro j hj
    by_contra hne
    rw [hsection, if_neg hne] at hj
    cases hj
  refine ⟨fun j k hj hk => (honly j hj).trans (honly k hk).symm, ?_, ?_, ?_, ?_⟩
  · intro j
    rw [hphase, hflags]
    by_cases hj : j = i
    · exact .inr (hj ▸ (h.quiet i).resolve_left hi)
    · simpa [hj] using h.quiet j
  · intro hv
    refine ⟨fun j => ?_, (hfree hv).2⟩
    rw [hsection, (hfree hv).1, ite_self]
  · intro hv
    obtain ⟨op, c, s, hp, hserial, hends⟩ := hheld hv
    exact ⟨i, op, c, s, by rw [hsection, if_pos rfl, hp], hserial, hends⟩
  · intro j op flags r hj
    rw [hphase] at hj
    by_cases hji : j = i
    · subst hji
      exact hret op flags r (by simpa using hj)
    · exact (hcalls j hji).trans (h.returned j op flags r (by simpa [hji] using hj))

theorem Serialized.alone (h : Serialized f s₀ w) {op : Op} {flags : Word} {c : Code σ Res}
    (hi : w.phase i = .inside op flags c) :
    w.value ≠ 0 ∧ (∀ j, j ≠ i → (w.phase j).section = none) ∧
      ∃ s, Serial f s₀ w.calls s ∧ c.run w.shared = f op s := by
  have hsome : (w.phase i).section = some (op, c) := by rw [hi]; rfl
  have hv : w.value ≠ 0 := by
    intro hv
    rw [(h.free hv).1 i] at hsome
    cases hsome
  obtain ⟨k, op', c', s, hk, hserial, hends⟩ := h.held hv
  obtain rfl := h.exclusive i k (by rw [hsome]; rfl) (by rw [hk]; rfl)
  cases hsome.symm.trans hk
  refine ⟨hv, fun j hj => ?_, s, hserial, hends⟩
  rw [← Option.not_isSome_iff_eq_none]
  exact fun hsome' => hj (h.exclusive j i hsome' (by rw [hsome]; rfl))

theorem Serialized.step (hf : ∀ op s, (B op).run s = f op s) (h : Serialized f s₀ w) {a : LockAct ι Op}
    (hstep : lockStep B w a = some w') : Serialized f s₀ w' := by
  cases a with
  | lock i op =>
    simp only [lockStep] at hstep
    split at hstep <;> cases hstep
    rename_i hi
    exact h.aside (by rw [hi]; rfl) rfl (.inr (and_not_interruptFlag _)) nofun
  | xchg i =>
    simp only [lockStep] at hstep
    split at hstep
    case h_2 => cases hstep
    rename_i op flags hi
    split at hstep <;> cases hstep
    · rename_i hv
      -- the lock was free, so no one is inside and the data is what the calls before left
      obtain ⟨hnone, hserial⟩ := h.free hv
      exact h.own rfl rfl (by rw [hi]; nofun) (fun j _ => hnone j)
        (fun _ _ => rfl) nofun (fun h1 => absurd h1 (by decide : (1 : Word) ≠ 0))
        fun _ => ⟨op, B op, w.shared, rfl, hserial, hf op w.shared⟩
    · rename_i hv
      exact ⟨h.exclusive, h.quiet, fun h1 => absurd h1 (by decide : (1 : Word) ≠ 0),
        fun _ => h.held hv, h.returned⟩
  | access i =>
    simp only [lockStep] at hstep
    split at hstep
    case h_2 => cases hstep
    rename_i op flags c hi
    obtain ⟨r, hr, rfl⟩ := Option.map_eq_some_iff.mp hstep
    obtain ⟨hv, hothers, s, hserial, hends⟩ := h.alone hi
    exact h.own rfl rfl (by rw [hi]; nofun) hothers (fun _ _ => rfl) nofun (fun h0 => absurd h0 hv)
      fun _ => ⟨op, r.1, s, rfl, hserial, (Code.run_next hr).trans hends⟩
  | unlock i =>
    simp only [lockStep] at hstep
    split at hstep
    case h_2 => cases hstep
    rename_i op flags r hi
    cases hstep
    obtain ⟨-, hothers, s, hserial, hends⟩ := h.alone hi
    refine h.own rfl rfl (by rw [hi]; nofun) hothers ?_ ?_ (fun _ => ⟨rfl, s, hserial, hends.symm⟩)
      (fun h0 => absurd rfl h0)
    · intro j hj
      exact List.find?_cons_of_neg (by simpa using hj.symm)
    · intro op' flags' r' hp
      cases hp
      exact List.find?_cons_of_pos (by simp)
  | restore i =>
    simp only [lockStep] at hstep
    split at hstep <;> cases hstep
    rename_i hi
    exact h.aside (by rw [hi]; rfl) rfl (.inl rfl) nofun
  | flags i e =>
    simp only [lockStep] at hstep
    split at hstep <;> cases hstep
    rename_i hi
    have hgo : w.go i .outside = w := by
      unfold LockState.go
      rw [← hi, update_eq_self]
    have := h.aside (e := e) (by rw [hi]; rfl)
        (rfl : (LockPhase.outside : LockPhase σ Op Res).section = none) (.inl rfl) nofun
    rwa [hgo] at this

theorem serialized_run (hf : ∀ op s, (B op).run s = f op s) {eflags : ι → Word} {as : List (LockAct ι Op)}
    (hrun : runs (lockStep B) (.initial s₀ eflags) as = some w) : Serialized f s₀ w :=
  runs_inv (Serialized f s₀) (fun _ _ _ h hs => h.step hf hs) (Serialized.initial s₀ eflags) hrun

end

end Ceblar
