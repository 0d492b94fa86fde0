import Ceblar.Scheduler.NoneLost
import Mathlib.Data.List.Rotate

/-! # Round robin

A process that runs and others that are ready take turns in the order of the list: every tick puts
the one that ran at the end and takes the next from the head.
-/

namespace Ceblar

def NoTimeouts (k : Kernel) : Prop :=
  ∀ i < k.processCount, (k.processes i).state ≠ .blocked ∨ (k.processes i).futexKey = 0 ∨
    (k.processes i).futexDeadline = 0

structure Turn (k : Kernel) (c : Nat) (l : List Nat) : Prop where
  current : k.current = .slot c
  running : (k.processes c).state = .running
  queue : Queue k.sched l
  ready : ∀ i ∈ l, (k.processes i).state = .ready
  bound : c < 32
  other : c ∉ l
  allocated : ∀ i ∈ c :: l, (k.processes i).allocated = true
  stack : ∀ i ∈ c :: l, (k.processes i).cpuState.esp ≠ 0
  /-- The next tick uses the quantum up: it does not overflow the count. -/
  ticks : ∀ i ∈ c :: l, (k.processes i).ticks + 1 ≠ 0
  timeouts : NoTimeouts k

def turns : List FramePtr → Kernel → Except Halt (List PcbRef)
  | [], k => .ok [k.current]
  | r :: rs, k => do
    let (_, k') ← schedulerTimerTick r k
    let rest ← turns rs k'
    return k.current :: rest

section

variable {k k1 k2 k3 : Kernel} {c x : Nat} {l : List Nat} {r : FramePtr}

theorem NoTimeouts.due (h : NoTimeouts k) {i : Nat} (hi : i < k.processCount) (now : Word) :
    (k.processes i).due now = false := by
  unfold Pcb.due
  rcases h i hi with h | h | h <;> simp [h]

theorem NoTimeouts.poll (h : NoTimeouts k) : processPollTimeouts k = .ok k := by
  obtain ⟨k', hpoll, rfl⟩ :=
    @forRangeE_inv _ _ (pollSlot (timerUptimeMs k)) k (fun _ s => s = k) k.processCount rfl
    fun i hi s hs => ⟨k, by rw [hs, pollSlot, if_neg (by simp [h.due hi])], rfl⟩
  exact hpoll

theorem tick_switches (hpoll : processPollTimeouts k = .ok k)
    (hticks : (k.pcb k.current).ticks + 1 ≠ 0) (hreq : requeue k.current (stamp r k) = .ok k2)
    (hnext : nextReady k2 = .ok (.slot x, k3)) (hx : .slot x ≠ k.current) :
    schedulerTimerTick r k = .ok (resumeFrame x (activate x k3), activate x k3) := by
  have hq : ¬(k.pcb k.current).ticks + 1 < quantumTicks := by
    intro hlt
    rw [quantumTicks, BitVec.lt_def] at hlt
    exact hticks (BitVec.eq_of_toNat_eq (Nat.lt_one_iff.mp hlt))
  unfold stamp at hreq
  simp only [schedulerTimerTick, hpoll, bind, Except.bind, modifyRef_current, modifyRef_pcb,
    modifyRef_modifyRef, if_neg hq, hreq, hnext, if_neg hx]
  rfl

theorem picks_head {s : Sched} {n : PcbRef} {rest : List Nat} (h : Picks s (x :: l) n rest)
    (hx : (s.slots x).Runnable) :
    n = .slot x ∧ rest = l := by
  generalize hm : x :: l = m at h
  cases h with
  | none hl => exact absurd hx (hl x (by simp [← hm]))
  | @found pre rest i hpre hi =>
    cases pre with
    | nil =>
      cases hm
      exact ⟨rfl, rfl⟩
    | cons y pre =>
      cases hm
      exact absurd hx (hpre x (by simp))

def preempted (r : FramePtr) (c : Nat) (k : Kernel) : Kernel :=
  k.modify c fun p => { p with interruptFrame := some r, ticks := 0, state := .ready }

theorem requeue_turn (h : Turn k c l) :
    ∃ k', requeue k.current (stamp r k) = .ok k' ∧ Queue k'.sched (l ++ [c]) ∧
    Relinks (preempted r c k) k' := by
  have hstate : ((stamp r k).processes c).state = .running := by
    unfold stamp
    rw [h.current]
    simp [Kernel.modifyRef, h.running]
  have hready : (stamp r k).modify c (fun p => { p with state := .ready }) = preempted r c k := by
    unfold stamp preempted
    rw [h.current, Kernel.modifyRef, modify_modify]
  have hqueue : Queue (preempted r c k).sched l := by
    unfold preempted
    rw [sched_modify]
    exact h.queue.set_state c .ready
  have hself : (preempted r c k).processes c =
      { k.processes c with interruptFrame := some r, ticks := 0, state := .ready } :=
    modify_self _ _ _
  obtain ⟨k', henq, hq⟩ :=
    enqueue_spec hqueue h.other h.bound (by rw [hself]; exact h.allocated c (by simp))
    (by simp [hself]) (by rw [hself]; exact h.stack c (by simp))
  refine ⟨k', ?_, hq, enqueue_relinks henq⟩
  rw [h.current, requeue, if_pos hstate, hready]
  exact henq

theorem Turn.tick (h : Turn k c (x :: l)) (r : FramePtr) :
    ∃ f k', schedulerTimerTick r k = .ok (f, k') ∧ Turn k' x (l ++ [c]) := by
  have hxc : x ≠ c := fun he => h.other (by simp [he])
  have hxl : x ∉ l := (List.nodup_cons.mp h.queue.linked.nodup).1
  obtain ⟨k2, hreq, hq2, hrel2⟩ := requeue_turn (r := r) h
  obtain ⟨n, k3, rest, hnext, hq3, hpicks⟩ := nextReady_spec hq2
  have hfields : ∀ i, (preempted r c k).processes i = if i = c then
      { k.processes c with interruptFrame := some r, ticks := 0, state := .ready }
        else k.processes i := by
    intro i
    split
    · rename_i hi
      rw [hi]
      exact modify_self _ _ _
    · rename_i hi
      exact modify_ne _ _ hi
  have hrun : (k2.sched.slots x).Runnable := by
    rw [relink_runnable hrel2]
    change ((preempted r c k).processes x).slot.Runnable
    rw [hfields, if_neg hxc]
    exact ⟨h.allocated x (by simp), h.ready x (by simp)⟩
  obtain ⟨rfl, rfl⟩ := picks_head hpicks hrun
  obtain ⟨next, head, rfl⟩ := hrel2.trans (nextReady_relinks hnext)
  have htick := tick_switches h.timeouts.poll (r := r)
      (by rw [h.current]; exact h.ticks c (by simp)) hreq hnext (by
    rw [h.current]
    exact fun he => hxc (PcbRef.slot.inj he))
  refine ⟨_, _, htick, ?_⟩
  -- what the tick leaves of each process
  have hend : ∀ i, (activate x ((preempted r c k).relink next head)).processes i =
      if i = x then { k.processes x with state := .running, next := next x }
      else if i = c then
        { k.processes c with interruptFrame := some r, ticks := 0, state := .ready, next := next c }
      else { k.processes i with next := next i } := by
    intro i
    split
    · rename_i hi
      rw [hi, activate_self]
      simp only [Kernel.relink, hfields, if_neg hxc]
    · rename_i hi
      rw [activate_ne _ hi]
      simp only [Kernel.relink, hfields]
      split
      · rename_i hc
        rw [hc]
      · rfl
  have hmem : ∀ i ∈ x :: (l ++ [c]), i ∈ c :: x :: l := by
    intro i hi
    simp only [List.mem_cons, List.mem_append, List.not_mem_nil, or_false] at hi ⊢
    tauto
  constructor
  · rfl
  · rw [hend, if_pos rfl]
  · rw [sched_activate]
    exact (hq3.set_state x .running).congr rfl fun _ _ => rfl
  · intro i hi
    rw [hend]
    rcases List.mem_append.mp hi with hi | hi
    · have hix : i ≠ x := fun he => hxl (he ▸ hi)
      have hic : i ≠ c := fun he => h.other (List.mem_cons_of_mem _ (he ▸ hi))
      rw [if_neg hix, if_neg hic]
      exact h.ready i (by simp [hi])
    · rw [List.mem_singleton.mp hi, if_neg (Ne.symm hxc), if_pos rfl]
  · exact h.queue.bound x (by simp)
  · simp [hxl, hxc]
  · intro i hi
    have := h.allocated i (hmem i hi)
    rw [hend]
    split
    · rename_i he
      rwa [he] at this
    · split
      · rename_i he
        rwa [he] at this
      · exact this
  · intro i hi
    have := h.stack i (hmem i hi)
    rw [hend]
    split
    · rename_i he
      rwa [he] at this
    · split
      · rename_i he
        rwa [he] at this
      · exact this
  · intro i hi
    have := h.ticks i (hmem i hi)
    rw [hend]
    split
    · rename_i he
      rwa [he] at this
    · split
      · exact (by decide : (0 : Word) + 1 ≠ 0)
      · exact this
  · intro i hi
    have := h.timeouts i hi
    rw [hend]
    split
    · exact .inl (by simp)
    · split
      · exact .inl (by simp)
      · exact this

theorem rotate_cons_one (c : Nat) (l : List Nat) : (c :: l).rotate 1 = l ++ [c] := by simp

theorem headD_rotate (c : Nat) (l : List Nat) (j : Nat) :
    ((c :: l).rotate j).headD c = (c :: l).get ⟨j % (l.length + 1), Nat.mod_lt _ (Nat.succ_pos _)⟩ := by
  rw [List.headD_eq_head?_getD, List.head?_eq_getElem?, List.getElem?_rotate (by simp), Nat.zero_add,
    List.getElem?_eq_getElem (Nat.mod_lt _ (by simp))]
  rfl

theorem turns_eq (rs : List FramePtr) (hl : l ≠ []) (h : Turn k c l) :
    turns rs k = .ok ((List.range (rs.length + 1)).map fun j => .slot (((c :: l).rotate j).headD c)) := by
  induction rs generalizing k c l with
  | nil => simp [turns, h.current]
  | cons r rs ih =>
    obtain ⟨x, l, rfl⟩ := List.exists_cons_of_ne_nil hl
    obtain ⟨f, k', htick, hturn⟩ := h.tick r
    rw [turns, htick]
    have hrest := ih (by simp) hturn
    have hnext : ∀ j, ((x :: (l ++ [c])).rotate j).headD x = ((c :: x :: l).rotate (j + 1)).headD c := by
      intro j
      have hrot : (c :: x :: l).rotate (j + 1) = (x :: (l ++ [c])).rotate j := by
        rw [Nat.add_comm, ← List.rotate_rotate, rotate_cons_one]
        rfl
      rw [hrot]
      cases hr : (x :: (l ++ [c])).rotate j with
      | nil => simpa using congrArg List.length hr
      | cons y m => rfl
    simp only [hnext] at hrest
    simp only [bind, Except.bind, hrest]
    rw [List.length_cons, List.range_succ_eq_map (n := rs.length + 1), List.map_cons, List.map_map,
      h.current]
    rfl

end

/-- Every tick gives the next process of the order its turn, and each round of the order is one turn
of everybody. -/
theorem round_robin {k : Kernel} {c : Nat} {l : List Nat} (h : Turn k c l) (hl : l ≠ [])
    (rs : List FramePtr) :
    ∃ ts, turns rs k = .ok ts ∧
      ts = (List.range (rs.length + 1)).map (fun j => .slot (((c :: l).rotate j).headD c)) ∧
      ∀ m, m + (l.length + 1) ≤ ts.length →
      ((ts.drop m).take (l.length + 1)).Perm ((c :: l).map .slot) := by
  refine ⟨_, turns_eq rs hl h, rfl, fun m hm => ?_⟩
  have hround :
      (((List.range (rs.length + 1)).map fun j => PcbRef.slot (((c :: l).rotate j).headD c)).drop m).take
      (l.length + 1) = ((c :: l).rotate m).map .slot := by
    simp only [List.length_map, List.length_range] at hm
    apply List.ext_getElem
    · simp
      omega
    · intro i h1 h2
      simp only [List.length_map, List.length_rotate, List.length_cons] at h2
      simp only [List.getElem_take, List.getElem_drop, List.getElem_map, List.getElem_range,
        List.getElem_rotate, List.length_cons, headD_rotate, List.get_eq_getElem, Nat.add_comm m i]
  rw [hround]
  exact (List.rotate_perm _ m).map _

def twoTakeTurns : Option System :=
  runs kernelStep (System.boot coldKernel)
    [.createUser 0x400000, .add 0, .createUser 0x400000, .add 1, .timerTick 0x9000 zeroRegisters]

theorem round_robin_two : ∃ s, twoTakeTurns = some s ∧
    turns [.stack 0x9000, .stack 0x9000] s.kernel = .ok [.slot 0, .slot 1, .slot 0] := by
  have hlist : (twoTakeTurns.map fun s => (s.kernel.current, s.kernel.readyHead, s.kernel.processCount)) =
      some (.slot 0, some 1, 2) := by
    decide +kernel
  have hpcbs : (twoTakeTurns.map fun s => (List.range 2).map fun i => ((s.kernel.processes i).state,
      (s.kernel.processes i).next, (s.kernel.processes i).allocated, (s.kernel.processes i).cpuState.esp,
      (s.kernel.processes i).ticks)) =
      some [(.running, none, true, userStackTop, 0), (.ready, none, true, userStackTop, 0)] := by
    decide +kernel
  obtain ⟨s, hs, hlist⟩ := Option.map_eq_some_iff.mp hlist
  rw [hs, Option.map_some, Option.some.injEq] at hpcbs
  simp only [List.range_succ, List.range_zero, List.nil_append, List.cons_append, List.map_cons,
    List.map_nil, Prod.mk.injEq, List.cons.injEq, and_true] at hlist hpcbs
  obtain ⟨hc, hhead, hcount⟩ := hlist
  obtain ⟨⟨hs0, -, ha0, he0, ht0⟩, hs1, hn1, ha1, he1, ht1⟩ := hpcbs
  have hturn : Turn s.kernel 0 [1] := by
    refine ⟨hc, hs0, ⟨⟨hhead, hn1⟩, by simp⟩, by simpa using hs1, by decide, by decide, ?_, ?_, ?_, ?_⟩
    · simp [ha0, ha1]
    · simp [he0, he1, userStackTop]
    · simp [ht0, ht1]
    · intro i hi
      obtain rfl | rfl : i = 0 ∨ i = 1 := by omega
      · simp [hs0]
      · simp [hs1]
  obtain ⟨ts, hts, rfl, -⟩ := round_robin hturn (by decide) [.stack 0x9000, .stack 0x9000]
  exact ⟨s, hs, hts⟩

end Ceblar
