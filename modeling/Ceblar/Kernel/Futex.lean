import Ceblar.Scheduler.NoneLost

/-! # Futex wakeups

`process_futex_wake` takes the first processes of the table that are blocked on a key, whatever
space they live in.
-/

namespace Ceblar

/-! ## The first hits of a scan -/

def hits (p : Nat → Bool) (n : Nat) : List Nat := (List.range n).filter p

def firstHits (p : Nat → Bool) (budget : Option Nat) (n : Nat) : List Nat :=
  match budget with
  | none => hits p n
  | some b => (hits p n).take b

section

variable {p : Nat → Bool} {budget : Option Nat} {n i : Nat}

theorem hits_succ (p : Nat → Bool) (n : Nat) :
    hits p (n + 1) = hits p n ++ if p n = true then [n] else [] := by
  unfold hits
  rw [List.range_succ, List.filter_append, List.filter_singleton]
  cases p n <;> rfl

theorem mem_hits : i ∈ hits p n ↔ i < n ∧ p i = true := by
  unfold hits
  rw [List.mem_filter, List.mem_range]

theorem hits_nodup : (hits p n).Nodup := List.Nodup.filter _ List.nodup_range

theorem hits_eq {m : Nat} (hnm : n ≤ m) (h : ∀ i, p i = true → i < n) : hits p m = hits p n := by
  induction m, hnm using Nat.le_induction with
  | base => rfl
  | succ m hnm ih =>
    have hm : ¬p m = true := fun hp => absurd (h m hp) (by omega)
    rw [hits_succ, if_neg hm, List.append_nil, ih]

theorem length_firstHits (p : Nat → Bool) (budget : Option Nat) (n : Nat) :
    (firstHits p budget n).length =
      (budget.map fun b => min b (hits p n).length).getD (hits p n).length := by
  cases budget with
  | none => rfl
  | some b => exact List.length_take

theorem room_iff :
    (∀ b ∈ budget, (firstHits p budget n).length < b) ↔ ∀ b ∈ budget, (hits p n).length < b := by
  cases budget with
  | none => simp
  | some b => simp [firstHits, List.length_take]

theorem firstHits_succ (p : Nat → Bool) (budget : Option Nat) (n : Nat) :
    firstHits p budget (n + 1) = firstHits p budget n ++
      if p n = true ∧ ∀ b ∈ budget, (firstHits p budget n).length < b then [n] else [] := by
  simp only [room_iff]
  cases budget with
  | none =>
    have := hits_succ p n
    simpa [firstHits] using this
  | some b =>
    simp only [firstHits, hits_succ, List.take_append, Option.mem_def, Option.some.injEq, forall_eq']
    congr 1
    by_cases hp : p n = true
    · by_cases hb : (hits p n).length < b
      · rw [if_pos hp, if_pos ⟨hp, hb⟩, List.take_of_length_le (by simp; omega)]
      · rw [if_pos hp, if_neg fun h => hb h.2, show b - (hits p n).length = 0 by omega, List.take_zero]
    · rw [if_neg hp, if_neg fun h => hp h.1, List.take_nil]

theorem mem_firstHits :
    i ∈ firstHits p budget n ↔ i < n ∧ p i = true ∧ ∀ b ∈ budget, (hits p i).length < b := by
  induction n with
  | zero => cases budget <;> simp [firstHits, hits]
  | succ n ih =>
    rw [firstHits_succ, List.mem_append, ih]
    simp only [room_iff]
    constructor
    · rintro (⟨hlt, h⟩ | h)
      · exact ⟨by omega, h⟩
      · split at h
        · rename_i hn
          obtain rfl := List.mem_singleton.mp h
          exact ⟨by omega, hn⟩
        · simp at h
    · rintro ⟨hlt, h⟩
      rcases Nat.lt_succ_iff_lt_or_eq.mp hlt with hlt | rfl
      · exact .inl ⟨hlt, h⟩
      · rw [if_pos h]
        exact .inr (by simp)

theorem firstHits_nodup : (firstHits p budget n).Nodup := by
  cases budget with
  | none => exact hits_nodup
  | some b => exact hits_nodup.sublist (List.take_sublist _ _)

end

def Kernel.blockedOn (k : Kernel) (key : Word) (i : Nat) : Bool :=
  (k.processes i).state == .blocked && (k.processes i).futexKey == key

def Kernel.waitsHere (k : Kernel) (key : Word) (i : Nat) : Bool :=
  k.blockedOn key i && (k.processes i).addressSpace.isSome &&
    (k.processes i).addressSpace == (k.pcb k.current).addressSpace

def wakeBudget (count : Word) : Option Nat := if count = 0 then none else some count.toNat

/-- A wakeup reaches the right processes: as many as it should of those that wait in the caller's
space. They go to the end of the ready list, and nothing else changes but the links of that list. -/
structure WokeRight (k : Kernel) (key count : Word) (rc : Int) (k' : Kernel) (l woken : List Nat) :
    Prop where
  right : ∀ i ∈ woken, k.waitsHere key i = true
  number : woken.length =
    if count = 0 then (hits (k.waitsHere key) maxProcesses).length
    else min count.toNat (hits (k.waitsHere key) maxProcesses).length
  returned : rc = woken.length
  ready : ∀ i ∈ woken, (k'.processes i).state = .ready
  before : Linked k.sched.next k.readyHead l
  after : Linked k'.sched.next k'.readyHead (l ++ woken)
  others : ∀ i ∉ woken, k'.processes i = { k.processes i with next := (k'.processes i).next }

def WakesRight (k : Kernel) (key count : Word) : Prop :=
  ∃ rc k' l woken, processFutexWake key count k = .ok (rc, k') ∧ WokeRight k key count rc k' l woken

/-- Every process on which the scan spends its budget lives in the caller's space. -/
def SpentHere (k : Kernel) (key count : Word) : Prop :=
  ∀ i, k.blockedOn key i = true → (∀ b ∈ wakeBudget count, (hits (k.blockedOn key) i).length < b) →
    k.waitsHere key i = true

structure Scanned (k : Kernel) (key count : Word) (added : Nat → Bool) (l : List Nat) (n : Nat)
    (st : Nat × Kernel) : Prop where
  woken : st.1 = (firstHits (k.blockedOn key) (wakeBudget count) n).length
  inv : ReadyInv st.2.sched added (l ++ firstHits (k.blockedOn key) (wakeBudget count) n)
  ready : ∀ i ∈ firstHits (k.blockedOn key) (wakeBudget count) n, (st.2.processes i).state = .ready
  others : ∀ i ∉ firstHits (k.blockedOn key) (wakeBudget count) n,
    st.2.processes i = { k.processes i with next := (st.2.processes i).next }

section

variable {k k1 k' : Kernel} {key count : Word} {added : Nat → Bool} {l : List Nat} {i w : Nat}

theorem wakeFutex_total (h : ReadyInv k.sched added l) : ∃ st, wakeFutex key count i (w, k) = .ok st := by
  unfold wakeFutex
  dsimp only
  split
  · rename_i hcond
    have hw : Woken i k
        ((k.modify i fun p => { p with futexKey := 0, futexDeadline := 0, state := .ready }).setEax
        ((k.modify i fun p =>
          { p with futexKey := 0, futexDeadline := 0, state := .ready }).processes i).interruptFrame
        0) := by
      refine (woken_modify hcond.2.1 ?_ ?_).setEax _ _
      · exact fun p => rfl
      · exact fun p => ⟨rfl, rfl, rfl, rfl, rfl, rfl, rfl, rfl, rfl⟩
    obtain ⟨k', hadd, -⟩ := h.wake_add hw
    exact ⟨_, by rw [hadd]; rfl⟩
  · exact ⟨_, rfl⟩

theorem WokenAndAdded.others (h : WokenAndAdded i k k1 k') {j : Nat} (hj : j ≠ i) :
    k'.processes j = { k.processes j with next := (k'.processes j).next } := by
  obtain ⟨hw, rc, hadd⟩ := h
  obtain ⟨next, head, rfl⟩ := schedulerAdd_relinks hadd
  rw [← hw.others j hj]
  rfl

theorem WokenAndAdded.ready (h : WokenAndAdded i k k1 k') : (k'.processes i).state = .ready := by
  obtain ⟨hw, rc, hadd⟩ := h
  obtain ⟨next, head, rfl⟩ := schedulerAdd_relinks hadd
  exact hw.ready

theorem budget_iff {n : Nat} : (∀ b ∈ wakeBudget count, n < b) ↔ count = 0 ∨ n < count.toNat := by
  unfold wakeBudget
  split
  · rename_i h0
    simp [h0]
  · rename_i h0
    simp only [Option.mem_def, Option.some.injEq, forall_eq', h0, false_or]

theorem scanned_step {st : Nat × Kernel} (h : Scanned k key count added l i st) :
    ∃ st', wakeFutex key count i st = .ok st' ∧ Scanned k key count added l (i + 1) st' := by
  obtain ⟨w, k1⟩ := st
  obtain ⟨⟨w', k2⟩, hstep⟩ : ∃ st', wakeFutex key count i (w, k1) = .ok st' := wakeFutex_total h.inv
  refine ⟨(w', k2), hstep, ?_⟩
  have hfresh : i ∉ firstHits (k.blockedOn key) (wakeBudget count) i :=
    fun hi => absurd (mem_firstHits.mp hi).1 (by omega)
  have hsame := h.others i hfresh
  have hhit : (k1.processes i).state = .blocked ∧
      (k1.processes i).futexKey = key ↔ k.blockedOn key i = true := by
    dsimp only at hsame
    rw [hsame]
    simp [Kernel.blockedOn]
  have hw : w = _ := h.woken
  have hcond : (count = 0 ∨ w < count.toNat) ∧ (k1.processes i).state = .blocked ∧
      (k1.processes i).futexKey = key ↔ k.blockedOn key i = true ∧ ∀ b ∈ wakeBudget count,
        (firstHits (k.blockedOn key) (wakeBudget count) i).length < b := by
    rw [hhit, ← hw, budget_iff]
    exact And.comm
  have hsucc := firstHits_succ (k.blockedOn key) (wakeBudget count) i
  rcases wakeFutex_inv hstep with ⟨hn, rfl, rfl⟩ | ⟨hc, rfl, k3, hwoken, -⟩
  · rw [if_neg (mt hcond.mpr hn), List.append_nil] at hsucc
    constructor
    all_goals rw [hsucc]
    · exact h.woken
    · exact h.inv
    · exact h.ready
    · exact h.others
  · rw [if_pos (hcond.mp hc)] at hsucc
    constructor
    all_goals rw [hsucc]
    · simp [← hw]
    · rw [← List.append_assoc]
      exact h.inv.wake hwoken
    · intro j hj
      by_cases hji : j = i
      · subst hji
        exact hwoken.ready
      · have hj' : j ∈ firstHits (k.blockedOn key) (wakeBudget count) i := by simpa [hji] using hj
        rw [hwoken.others hji]
        exact h.ready j hj'
    · intro j hj
      simp only [List.mem_append, List.mem_singleton, not_or] at hj
      have h1 := h.others j hj.1
      have h2 := hwoken.others hj.2
      dsimp only at h1 h2 ⊢
      rw [h1] at h2
      exact h2

theorem futexWake_spec (h : ReadyInv k.sched added l) (hkey : key ≠ 0) : ∃ st : Nat × Kernel,
    processFutexWake key count k = .ok (st.1, st.2) ∧ Scanned k key count added l k.processCount st := by
  have hstart : Scanned k key count added l 0 (0, k) := by
    have hnone : firstHits (k.blockedOn key) (wakeBudget count) 0 = [] := by
      cases wakeBudget count <;> simp [firstHits, hits]
    constructor
    all_goals rw [hnone]
    · rfl
    · rwa [List.append_nil]
    · simp
    · exact fun i _ => rfl
  obtain ⟨st, hloop, hend⟩ :=
    forRangeE_inv (fun n st => Scanned k key count added l n st) k.processCount hstart
    fun i _ st hst => scanned_step hst
  refine ⟨st, ?_, hend⟩
  unfold processFutexWake
  rw [if_neg hkey, hloop]
  rfl

theorem blockedOn_lt {s : System} (h : InOrder s) (hi : s.kernel.blockedOn key i = true) :
    i < s.kernel.processCount := by
  obtain ⟨ht, l, h⟩ := h
  simp only [Kernel.blockedOn, Bool.and_eq_true, beq_iff_eq] at hi
  exact ht.bound i (h.live i (h.begun i (.inl hi.1))).1

theorem number_of_right {p q : Nat → Bool} {n : Nat} (hqp : ∀ i, q i = true → p i = true)
    (hq : ∀ i ∈ firstHits p (wakeBudget count) n, q i = true) :
    (firstHits p (wakeBudget count) n).length =
      if count = 0 then (hits q n).length else min count.toNat (hits q n).length := by
  have hsub : (hits q n).length ≤ (hits p n).length :=
    hits_nodup.subperm
      (fun i hi => mem_hits.mpr ⟨(mem_hits.mp hi).1, hqp i (mem_hits.mp hi).2⟩) |>.length_le
  have hle : (firstHits p (wakeBudget count) n).length ≤ (hits q n).length :=
    firstHits_nodup.subperm (fun i hi => mem_hits.mpr ⟨(mem_firstHits.mp hi).1, hq i hi⟩) |>.length_le
  have hlen := length_firstHits p (wakeBudget count) n
  unfold wakeBudget at hlen hle ⊢
  split
  · rename_i h0
    simp only [h0, if_true, Option.map_none, Option.getD_none] at hlen hle ⊢
    omega
  · rename_i h0
    simp only [h0, if_false, Option.map_some, Option.getD_some] at hlen hle ⊢
    omega

end

/-- In a run whose steps are all orderly, a wakeup reaches the right processes exactly if the scan
spends its budget in the caller's space only. -/
theorem wakes_right_iff (k : Kernel) (h0 : k.Booted) (ops : List KernelOp)
    (hok : Along Orderly kernelStep (System.boot k) ops) (s : System)
    (hrun : runs kernelStep (System.boot k) ops = some s) (key count : Word) (hkey : key ≠ 0) :
    WakesRight s.kernel key count ↔ SpentHere s.kernel key count := by
  obtain ⟨ht, l, h⟩ := inOrder_run h0 hok hrun
  obtain ⟨⟨n, k'⟩, hwake, hscan⟩ : ∃ st : Nat × Kernel,
    processFutexWake key count s.kernel = .ok (st.1, st.2) ∧ _ :=
    futexWake_spec h hkey
  have hbound : ∀ i, s.kernel.blockedOn key i = true → i < s.kernel.processCount :=
    fun i => blockedOn_lt ⟨ht, l, h⟩
  have hhere : ∀ i, s.kernel.waitsHere key i = true → s.kernel.blockedOn key i = true := by
    intro i hi
    simp only [Kernel.waitsHere, Bool.and_eq_true] at hi
    exact hi.1.1
  constructor
  · rintro ⟨rc, k2, l2, woken, hwake2, hright⟩ i hi hb
    rw [hwake] at hwake2
    cases hwake2
    -- the list before and after determines who was woken
    obtain rfl := hright.before.unique h.queue.linked
    have heq := List.append_cancel_left (hright.after.unique hscan.inv.queue.linked)
    refine hright.right i ?_
    rw [heq]
    exact mem_firstHits.mpr ⟨hbound i hi, hi, hb⟩
  · intro hspent
    have hall : ∀ i ∈ firstHits (s.kernel.blockedOn key) (wakeBudget count) s.kernel.processCount,
        s.kernel.waitsHere key i = true := by
      intro i hi
      obtain ⟨-, hi, hb⟩ := mem_firstHits.mp hi
      exact hspent i hi hb
    refine ⟨n, k', l, _, hwake, hall, ?_, ?_, hscan.ready, h.queue.linked, hscan.inv.queue.linked,
      hscan.others⟩
    · have hmax : s.kernel.processCount ≤ maxProcesses := ht.count
      rw [hits_eq hmax fun i hi => hbound i (hhere i hi)]
      exact number_of_right hhere hall
    · rw [show n = _ from hscan.woken]

/-- A thread waits at an address that it has mapped, and another one of the space goes on. -/
def oneWaiter : List KernelOp :=
  [.createEntry 0x100000, .add 0, .timerTick 0x9000 zeroRegisters, .memory (.mmap 0x400000 4096 2),
    .createThread 0x100000, .add 1, .futexWait 0x400000 0 0, .blockCurrent 0x9000 zeroRegisters]

theorem wakes_right_oneWaiter : ∃ s, runs kernelStep (System.boot coldKernel) oneWaiter = some s ∧
    s.kernel.current = .slot 1 ∧ s.kernel.blockedOn 0x400000 0 = true ∧
    WakesRight s.kernel 0x400000 1 := by
  have hend : ((runs kernelStep (System.boot coldKernel) oneWaiter).map fun s =>
      (s.kernel.current, s.kernel.blockedOn 0x400000 0, s.kernel.waitsHere 0x400000 0,
        s.kernel.blockedOn 0x400000 1, s.kernel.processCount)) =
          some (.slot 1, true, true, false, 2) := by
    decide +kernel
  obtain ⟨s, hrun, hs⟩ := Option.map_eq_some_iff.mp hend
  simp only [Prod.mk.injEq] at hs
  obtain ⟨hc, hblocked, hhere, hother, hcount⟩ := hs
  have hok : Along Orderly kernelStep (System.boot coldKernel) oneWaiter :=
    along_of_check orderly_of_test (by decide +kernel)
  refine ⟨s, hrun, hc, hblocked,
    (wakes_right_iff coldKernel coldKernel_booted oneWaiter hok s hrun _ _ (by decide)).mpr ?_⟩
  intro i hi _
  have hlt := blockedOn_lt (inOrder_run coldKernel_booted hok hrun) hi
  obtain rfl | rfl : i = 0 ∨ i = 1 := by omega
  · exact hhere
  · cases hother.symm.trans hi

def strangers : List KernelOp :=
  [.createUser 0x400000, .add 0, .createUser 0x400000, .add 1, .timerTick 0x9000 zeroRegisters,
    .futexWait 0xbfe000 0 0, .blockCurrent 0x9000 zeroRegisters]

/-- The other one has nobody to wake at that address, but wakes the first. -/
theorem strangers_woken : ∃ s, runs kernelStep (System.boot coldKernel) strangers = some s ∧
    ¬WakesRight s.kernel 0xbfe000 1 := by
  have hend : ((runs kernelStep (System.boot coldKernel) strangers).map fun s =>
      (hits (s.kernel.waitsHere 0xbfe000) maxProcesses,
        (processFutexWake 0xbfe000 1 s.kernel).toOption.map fun r => r.1)) = some ([], some 1) := by
    decide +kernel
  obtain ⟨s, hrun, hs⟩ := Option.map_eq_some_iff.mp hend
  obtain ⟨hnobody, hone⟩ := Prod.mk.inj hs
  refine ⟨s, hrun, ?_⟩
  rintro ⟨rc, k', l, woken, hwake, hright⟩
  rw [hwake] at hone
  have hrc : rc = 1 := by simpa [Except.toOption] using hone
  have hnumber := hright.number
  rw [hnobody, if_neg (by decide)] at hnumber
  have hreturned := hright.returned
  simp only [List.length_nil, Nat.min_zero] at hnumber
  omega

end Ceblar
