import Ceblar.Lib.Links
import Ceblar.Scheduler.RoundRobin
import Mathlib.Data.Finset.Card

/-! # The ready list as a queue

What the scheduler sees of the process table, and what `enqueue` and `next_ready` do to a list
that is in order.
-/

namespace Ceblar

structure Slot where
  allocated : Bool
  state : ProcState
  next : Option Nat
  /-- `cpu_state.esp` is not 0. -/
  hasStack : Bool

def Pcb.slot (p : Pcb) : Slot where
  allocated := p.allocated
  state := p.state
  next := p.next
  hasStack := p.cpuState.esp != 0

structure Sched where
  slots : Nat → Slot
  current : PcbRef
  readyHead : Option Nat

def Kernel.sched (k : Kernel) : Sched where
  slots := fun i => (k.processes i).slot
  current := k.current
  readyHead := k.readyHead

def Sched.set (s : Sched) (i : Nat) (p : Slot) : Sched := { s with slots := Function.update s.slots i p }

def Sched.setNext (s : Sched) (i : Nat) (n : Option Nat) : Sched := s.set i { s.slots i with next := n }

def Sched.setState (s : Sched) (i : Nat) (st : ProcState) : Sched :=
  s.set i { s.slots i with state := st }

/-! ## Changes of the table -/

section

variable {k : Kernel} {i j : Nat}

@[simp] theorem modify_self (k : Kernel) (i : Nat) (f : Pcb → Pcb) :
    (k.modify i f).processes i = f (k.processes i) := by simp [Kernel.modify]

theorem modify_ne (k : Kernel) (f : Pcb → Pcb) (h : j ≠ i) :
    (k.modify i f).processes j = k.processes j := by
  simp [Kernel.modify, h]

theorem modify_modify (k : Kernel) (i : Nat) (f g : Pcb → Pcb) :
    (k.modify i f).modify i g = k.modify i fun p => g (f p) := by simp [Kernel.modify]

@[simp] theorem modifyRef_count (k : Kernel) (f : Pcb → Pcb) (ref : PcbRef) :
    (k.modifyRef f ref).processCount = k.processCount := by
  cases ref with
  | idle => rfl
  | slot i => rfl

theorem modifyRef_processes (k : Kernel) (f : Pcb → Pcb) (ref : PcbRef) (j : Nat) :
    (k.modifyRef f ref).processes j = k.processes j ∨
    (k.modifyRef f ref).processes j = f (k.processes j) := by
  cases ref with
  | idle => exact .inl rfl
  | slot i =>
    by_cases hj : j = i
    · subst hj
      exact .inr (modify_self k j f)
    · exact .inl (modify_ne k f hj)

theorem modifyRef_idle (k : Kernel) (f : Pcb → Pcb) (ref : PcbRef) :
    (k.modifyRef f ref).idle = k.idle ∨ (k.modifyRef f ref).idle = f k.idle := by
  cases ref with
  | idle => exact .inr rfl
  | slot i => exact .inl rfl

theorem modifyRef_ne (k : Kernel) (f : Pcb → Pcb) (h : j ≠ i) :
    (k.modifyRef f (.slot i)).processes j = k.processes j := modify_ne k f h

theorem activate_ne (k : Kernel) (h : j ≠ i) : (activate i k).processes j = k.processes j := by
  dsimp only [activate]
  rw [modify_ne k _ h]

theorem activate_self (i : Nat) (k : Kernel) :
    (activate i k).processes i = { k.processes i with state := .running } := by
  dsimp only [activate]
  rw [modify_self]

theorem sched_modify (k : Kernel) (i : Nat) (f : Pcb → Pcb) :
    (k.modify i f).sched = k.sched.set i (f (k.processes i)).slot := by
  simp only [Kernel.sched, Sched.set, Kernel.modify, Sched.mk.injEq, and_true]
  funext j
  by_cases hj : j = i
  · subst hj
    simp
  · simp [hj]

@[simp] theorem set_slots_self (s : Sched) (i : Nat) : s.set i (s.slots i) = s := by
  simp [Sched.set]

theorem sched_modify_same (k : Kernel) (i : Nat) {f : Pcb → Pcb} (h : ∀ p, (f p).slot = p.slot) :
    (k.modify i f).sched = k.sched := by
  rw [sched_modify, h]
  exact set_slots_self k.sched i

theorem sched_setNext (k : Kernel) (i : Nat) (n : Option Nat) :
    (k.setNext i n).sched = k.sched.setNext i n :=
  sched_modify k i _

end

/-! ## Links and nothing else -/

def Kernel.relink (k : Kernel) (next : Nat → Option Nat) (head : Option Nat) : Kernel :=
  { k with
    processes := fun i => { k.processes i with next := next i }
    readyHead := head }

def Relinks (k k' : Kernel) : Prop := ∃ next head, k' = k.relink next head

theorem Relinks.refl (k : Kernel) : Relinks k k := ⟨fun i => (k.processes i).next, k.readyHead, rfl⟩

theorem Relinks.trans {k k1 k2 : Kernel} (h1 : Relinks k k1) (h2 : Relinks k1 k2) : Relinks k k2 := by
  obtain ⟨n1, h1, rfl⟩ := h1
  obtain ⟨n2, h2, rfl⟩ := h2
  exact ⟨n2, h2, rfl⟩

theorem relinks_head (k : Kernel) (head : Option Nat) : Relinks k { k with readyHead := head } :=
  ⟨fun i => (k.processes i).next, head, rfl⟩

theorem relinks_setNext (k : Kernel) (i : Nat) (n : Option Nat) : Relinks k (k.setNext i n) := by
  refine ⟨fun j => if j = i then n else (k.processes j).next, k.readyHead, ?_⟩
  simp only [Kernel.setNext, Kernel.modify, Kernel.relink]
  congr 1
  funext j
  by_cases hj : j = i
  · subst hj
    simp
  · simp [hj]

theorem enqueue_relinks {i : Nat} {k k' : Kernel} (h : enqueue i k = .ok k') : Relinks k k' := by
  dsimp only [enqueue] at h
  split at h
  · cases h
    exact Relinks.refl k
  · split at h
    · cases h
      exact (relinks_setNext k i none).trans (relinks_head _ _)
    · obtain ⟨q, -, hk⟩ := bind_eq_ok.mp h
      cases hk
      exact (relinks_setNext k i none).trans (relinks_setNext _ q _)

theorem schedulerAdd_relinks {i : Nat} {k k' : Kernel} {rc : Int} (h : schedulerAdd i k = .ok (rc, k')) :
    Relinks k k' := by
  unfold schedulerAdd at h
  split at h
  · cases h
    exact Relinks.refl k
  · obtain ⟨k1, hq, hk⟩ := bind_eq_ok.mp h
    cases hk
    exact enqueue_relinks hq

theorem nextReadyLoop_relinks {fuel : Nat} {k k' : Kernel} {n : PcbRef}
    (h : nextReadyLoop fuel k = .ok (n, k')) : Relinks k k' := by
  induction fuel generalizing k with
  | zero => simp [nextReadyLoop] at h
  | succ fuel ih =>
    unfold nextReadyLoop at h
    split at h
    · cases h
      exact Relinks.refl k'
    · rename_i i _
      have hpop := (relinks_head k (k.processes i).next).trans (relinks_setNext _ i none)
      dsimp only at h
      split at h
      · cases h
        exact hpop
      · exact hpop.trans (ih h)

/-! ## A list in order -/

def Sched.next (s : Sched) (i : Nat) : Option Nat := (s.slots i).next

structure Queue (s : Sched) (l : List Nat) : Prop where
  linked : Linked s.next s.readyHead l
  bound : ∀ i ∈ l, i < 32

section

variable {s s' : Sched} {l : List Nat} {i : Nat}

theorem Queue.length_le (h : Queue s l) : l.length ≤ 32 := by
  have hsub : l.toFinset ⊆ Finset.range 32 := fun i hi => by simpa using h.bound i (by simpa using hi)
  have hcard := Finset.card_le_card hsub
  rwa [List.toFinset_card_of_nodup h.linked.nodup, Finset.card_range] at hcard

theorem Queue.congr (h : Queue s l) (hhead : s'.readyHead = s.readyHead)
    (hnext : ∀ i ∈ l, s'.next i = s.next i) :
    Queue s' l :=
  ⟨hhead ▸ seg_congr hnext h.linked, h.bound⟩

theorem Queue.set_state (h : Queue s l) (i : Nat) (st : ProcState) : Queue (s.setState i st) l := by
  refine h.congr rfl fun j _ => ?_
  unfold Sched.next Sched.setState Sched.set
  by_cases hj : j = i
  · subst hj
    simp
  · simp [hj]

theorem next_setNext_self (s : Sched) (i : Nat) (n : Option Nat) : (s.setNext i n).next i = n := by
  simp [Sched.next, Sched.setNext, Sched.set]

theorem next_setNext_ne (s : Sched) {i j : Nat} (n : Option Nat) (h : j ≠ i) :
    (s.setNext i n).next j = s.next j := by
  simp [Sched.next, Sched.setNext, Sched.set, h]

end

section

variable {k k' : Kernel} {l m : List Nat} {i z : Nat}

theorem lastReady_eq {fuel : Nat} {a : Option Nat} {q : Nat} (ha : a = some q)
    (h : Linked k.sched.next a (m ++ [z])) (hf : m.length < fuel) : lastReady k fuel q = .ok z := by
  induction m generalizing a q fuel with
  | nil =>
    obtain ⟨rfl, hend⟩ := h
    cases ha
    obtain ⟨f, rfl⟩ : ∃ f, fuel = f + 1 := ⟨fuel - 1, by simp at hf; omega⟩
    have hnext : (k.processes z).next = none := hend
    simp [lastReady, hnext]
  | cons x m ih =>
    obtain ⟨rfl, hrest⟩ := h
    cases ha
    obtain ⟨f, rfl⟩ : ∃ f, fuel = f + 1 := ⟨fuel - 1, by simp at hf; omega⟩
    rw [lastReady]
    cases hn : (k.processes x).next with
    | none =>
      -- the list goes on after `x`
      have hnil : Linked k.sched.next none (m ++ [z]) := hn ▸ hrest
      cases m with
      | nil => exact absurd hnil.1 (by simp)
      | cons y m => exact absurd hnil.1 (by simp)
    | some n => exact ih hn hrest (by simp at hf; omega)

theorem enqueue_eq (ha : (k.processes i).allocated = true) (hz : (k.processes i).state ≠ .zombie)
    (he : (k.processes i).cpuState.esp ≠ 0) :
    enqueue i k = match (k.setNext i none).readyHead with
      | none => .ok { k.setNext i none with readyHead := some i }
      | some h => do
        let q ← lastReady (k.setNext i none) (maxProcesses + 1) h
        return (k.setNext i none).setNext q (some i) := by
  dsimp only [enqueue]
  exact if_neg (by simpa [ha, hz] using he)

theorem enqueue_spec (h : Queue k.sched l) (hl : i ∉ l) (hi : i < 32)
    (ha : (k.processes i).allocated = true) (hz : (k.processes i).state ≠ .zombie)
    (he : (k.processes i).cpuState.esp ≠ 0) :
    ∃ k', enqueue i k = .ok k' ∧ Queue k'.sched (l ++ [i]) := by
  have hq : Queue (k.setNext i none).sched l := by
    rw [sched_setNext]
    refine h.congr rfl fun j hj => next_setNext_ne _ _ ?_
    rintro rfl
    exact hl hj
  have hnone : (k.setNext i none).sched.next i = none := by
    rw [sched_setNext, next_setNext_self]
  have hbound : ∀ j ∈ l ++ [i], j < 32 := by
    intro j hj
    rcases List.mem_append.mp hj with hj | hj
    · exact h.bound j hj
    · rw [List.mem_singleton.mp hj]
      exact hi
  rw [enqueue_eq ha hz he]
  generalize k.setNext i none = k1 at hq hnone ⊢
  rcases List.eq_nil_or_concat' l with rfl | ⟨m, z, rfl⟩
  · have hhead : k1.readyHead = none := hq.linked
    rw [hhead]
    exact ⟨_, rfl, ⟨rfl, hnone⟩, hbound⟩
  · obtain ⟨b, hm, hz, hend⟩ := seg_append.mp hq.linked
    have hzi : z ≠ i := by
      rintro rfl
      simp at hl
    have hzm : z ∉ m := by
      have hnd := hq.linked.nodup
      rw [List.nodup_append] at hnd
      exact fun hmem => hnd.2.2 z hmem z (by simp) rfl
    obtain ⟨a, ha⟩ : ∃ a, k1.readyHead = some a := by
      cases m with
      | nil => exact ⟨z, hq.linked.1⟩
      | cons x m => exact ⟨x, hq.linked.1⟩
    have hlen := hq.length_le
    simp only [List.length_append, List.length_singleton] at hlen
    have hlast : lastReady k1 (maxProcesses + 1) a = .ok z :=
      lastReady_eq ha hq.linked (by simp only [maxProcesses]; omega)
    rw [ha]
    refine ⟨k1.setNext z (some i), by simp only [hlast]; rfl, ?_, hbound⟩
    rw [sched_setNext]
    refine seg_append.mpr ⟨some i, seg_append.mpr ⟨b, ?_, hz, next_setNext_self _ _ _⟩, rfl, ?_⟩
    · refine seg_congr (fun x hx => next_setNext_ne _ _ ?_) hm
      rintro rfl
      exact hzm hx
    · rw [next_setNext_ne _ _ (Ne.symm hzi)]
      exact hnone

/-! ## At its head -/

def Slot.Runnable (p : Slot) : Prop := p.allocated = true ∧ p.state = .ready

instance (p : Slot) : Decidable p.Runnable := inferInstanceAs (Decidable (_ ∧ _))

/-- What `next_ready` finds on the list `l`, and the list it leaves. -/
inductive Picks (s : Sched) : List Nat → PcbRef → List Nat → Prop
  | none {l : List Nat} (h : ∀ i ∈ l, ¬(s.slots i).Runnable) : Picks s l .idle []
  | found {pre rest : List Nat} {i : Nat} (hpre : ∀ j ∈ pre, ¬(s.slots j).Runnable)
      (hi : (s.slots i).Runnable) : Picks s (pre ++ i :: rest) (.slot i) rest

theorem Picks.skip {s : Sched} {l rest : List Nat} {n : PcbRef} {i : Nat} (h : Picks s l n rest)
    (hi : ¬(s.slots i).Runnable) : Picks s (i :: l) n rest := by
  cases h with
  | none h => exact .none fun j hj => (List.mem_cons.mp hj).elim (fun he => he ▸ hi) (h j)
  | @found pre rest n hpre hn =>
    exact .found (fun j hj => (List.mem_cons.mp hj).elim (fun he => he ▸ hi) (hpre j)) hn

theorem relink_runnable {k k' : Kernel} (h : Relinks k k') (i : Nat) :
    (k'.sched.slots i).Runnable ↔ (k.sched.slots i).Runnable := by
  obtain ⟨n, h, rfl⟩ := h
  rfl

theorem picks_relink {k k' : Kernel} (h : Relinks k k') {l rest : List Nat} {n : PcbRef}
    (hp : Picks k'.sched l n rest) : Picks k.sched l n rest := by
  cases hp with
  | none hl => exact .none fun i hi => mt (relink_runnable h i).mpr (hl i hi)
  | found hpre hi =>
    exact .found (fun j hj => mt (relink_runnable h j).mpr (hpre j hj)) ((relink_runnable h _).mp hi)

theorem queue_pop {x : Nat} (h : Queue k.sched (x :: l)) :
    Queue (({ k with readyHead := (k.processes x).next } : Kernel).setNext x none).sched l := by
  rw [sched_setNext]
  have hx : x ∉ l := (List.nodup_cons.mp h.linked.nodup).1
  refine ⟨seg_congr (fun j hj => next_setNext_ne _ _ ?_) h.linked.2, fun j hj => h.bound j (by simp [hj])⟩
  rintro rfl
  exact hx hj

theorem nextReadyLoop_spec {fuel : Nat} (h : Queue k.sched l) (hf : l.length < fuel) :
    ∃ n k' rest, nextReadyLoop fuel k = .ok (n, k') ∧ Queue k'.sched rest ∧ Picks k.sched l n rest := by
  induction l generalizing k fuel with
  | nil =>
    obtain ⟨f, rfl⟩ : ∃ f, fuel = f + 1 := ⟨fuel - 1, by simp at hf; omega⟩
    have hhead : k.readyHead = none := h.linked
    refine ⟨.idle, k, [], ?_, h, .none (by simp)⟩
    rw [nextReadyLoop, hhead]
  | cons x l ih =>
    obtain ⟨f, rfl⟩ : ∃ f, fuel = f + 1 := ⟨fuel - 1, by simp at hf; omega⟩
    have hhead : k.readyHead = some x := h.linked.1
    have hpop := (relinks_head k (k.processes x).next).trans (relinks_setNext _ x none)
    have hq := queue_pop h
    rw [nextReadyLoop, hhead]
    dsimp only
    generalize ({ k with readyHead := (k.processes x).next } : Kernel).setNext x none = k1 at hpop hq ⊢
    have hrun : (k1.processes x).allocated = true ∧ (k1.processes x).state = .ready ↔
        (k.sched.slots x).Runnable :=
      relink_runnable hpop x
    by_cases hx : (k.sched.slots x).Runnable
    · rw [if_pos (hrun.mpr hx)]
      exact ⟨_, k1, l, rfl, hq, @Picks.found _ [] l x (by simp) hx⟩
    · rw [if_neg (mt hrun.mp hx)]
      obtain ⟨n, k', rest, hloop, hrest, hp⟩ := ih hq (by simp at hf; omega)
      exact ⟨n, k', rest, hloop, hrest, (picks_relink hpop hp).skip hx⟩

theorem nextReady_spec (h : Queue k.sched l) :
    ∃ n k' rest, nextReady k = .ok (n, k') ∧ Queue k'.sched rest ∧ Picks k.sched l n rest :=
  nextReadyLoop_spec h (by have := h.length_le; simp only [maxProcesses]; omega)

end

end Ceblar
