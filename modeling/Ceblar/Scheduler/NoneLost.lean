import Ceblar.Scheduler.Switch

/-! # No ready process is lost

The steps that can take a ready process off the list for good, and the runs without them.
-/

namespace Ceblar

/-- Following the links from `ready_head` comes to `i`. -/
def Kernel.OnList (k : Kernel) (i : Nat) : Prop := ∃ l, Seg k.sched.next k.readyHead l (some i)

/-- The list ends, repeats nothing, and holds every ready process that was added, except the current
one. -/
def NoneLost (s : System) : Prop :=
  ∃ l, Linked s.kernel.sched.next s.kernel.readyHead l ∧ l.Nodup ∧
    ∀ i, (s.kernel.processes i).allocated = true →
    (s.kernel.processes i).state = .ready → s.added i = true →
      s.kernel.current ≠ .slot i → i ∈ l

/-- The current process is ready and not on the list: `next_ready` picked it again. -/
def Kernel.CurrentOff (k : Kernel) : Prop :=
  ∃ c, k.current = .slot c ∧ (k.processes c).state = .ready ∧ ¬k.OnList c

def Kernel.NobodyElse (k : Kernel) : Prop := ∀ i, k.OnList i → ¬(k.sched.slots i).Runnable

def Kernel.CurrentListed (k : Kernel) : Prop := ∃ c, k.current = .slot c ∧ k.OnList c

/-- A switch leaves no ready process that is off the list, a zombie is off the list when it is
waited for, and so is the caller when it blocks. -/
def Orderly (s : System) : KernelOp → Prop
  | .timerTick _ _ => s.kernel.CurrentOff → s.kernel.NobodyElse ∧
      ∀ i < s.kernel.processCount, (s.kernel.processes i).due (timerUptimeMs s.kernel) = false
  | .blockCurrent _ _ => s.kernel.CurrentOff → s.kernel.NobodyElse
  | .wait child _ =>
    ∀ i, findPid s.kernel child (fun p => p.parentPid == (s.kernel.pcb s.kernel.current).pid) = some i →
      if (s.kernel.processes i).state = .zombie then ¬s.kernel.OnList i else ¬s.kernel.CurrentListed
  | .futexWait _ _ _ => ¬s.kernel.CurrentListed
  | _ => True

section

variable {s s' : System} {k k' : Kernel} {added : Nat → Bool} {l : List Nat} {i j : Nat}

theorem Queue.onList (h : Queue k.sched l) (hi : i ∈ l) : k.OnList i := by
  obtain ⟨u, v, rfl⟩ := List.append_of_mem hi
  obtain ⟨b, hu, hb, -⟩ := seg_append.mp h.linked
  exact ⟨u, hb ▸ hu⟩

theorem Queue.mem_of_onList (h : Queue k.sched l) (hi : k.OnList i) : i ∈ l := by
  obtain ⟨u, hu⟩ := hi
  exact h.linked.mem_of_seg hu

theorem currentOff_of (hq : Queue k.sched l) (hf : ¬Full k.sched l) : k.CurrentOff := by
  unfold Full at hf
  push Not at hf
  obtain ⟨c, hc, hs, hl⟩ := hf
  exact ⟨c, hc, hs, fun hon => hl (hq.mem_of_onList hon)⟩

theorem Kernel.NobodyElse.alone (h : k.NobodyElse) (hq : Queue k.sched l) : Alone k.sched l :=
  fun i hi => h i (hq.onList hi)

theorem ReadyInv.claimed (h : ReadyInv k.sched added l) (hc : Claimed k j k') :
    ReadyInv k'.sched added l := by
  have hfresh : added j = false := by
    by_contra hne
    have ha : (k.processes j).allocated = true := (h.live j (by simpa using hne)).1
    rw [hc.free] at ha
    cases ha
  have hsched : k'.sched = k.sched.set j (k'.processes j).slot := by
    simp only [Kernel.sched, Sched.set, hc.current, hc.readyHead, Sched.mk.injEq, and_true]
    funext i
    by_cases hij : i = j
    · subst hij
      simp
    · simp [hij, hc.others i hij]
  rw [hsched]
  exact h.set hfresh hc.state

theorem Creation.ready {res : Option Nat × Kernel} (hc : Creation k res) (h : ReadyInv k.sched added l) :
    ReadyInv res.2.sched added l := by
  cases hc with
  | refused vmm => exact h
  | failed hj => exact h.claimed hj
  | made hj ha => exact h.claimed hj

theorem ReadyInv.after {ends : Word → Prop} (h : ReadyInv k.sched added l) (hs : Steps ends k k') :
    (fun i => added i && (k'.processes i).allocated) = added := by
  funext i
  rw [(hs.pcb i).allocated]
  cases ha : added i with
  | false => rfl
  | true => exact (h.live i ha).1

theorem ReadyInv.reap {g : Pcb → Pcb} (h : ReadyInv k.sched added l) (vmm : Vmm) (hl : ¬k.OnList i)
    (hc : k.current ≠ .slot i)
    (hg : (g (k.processes i)).allocated = false ∧ (g (k.processes i)).state = .ready) :
    ReadyInv (({ k with vmm } : Kernel).modify i g).sched
      (fun j => added j && ((({ k with vmm } : Kernel).modify i g).processes j).allocated) l := by
  have hadded : (fun j => added j && ((({ k with vmm } : Kernel).modify i g).processes j).allocated) =
      Function.update added i false := by
    funext j
    by_cases hji : j = i
    · subst hji
      simp [hg.1]
    · rw [modify_ne _ _ hji, Function.update_of_ne hji]
      cases hj : added j with
      | false => rfl
      | true => exact (h.live j hj).1
  rw [hadded, sched_modify]
  exact h.drop (fun hm => hl (h.queue.onList hm)) hc hg.2

theorem ReadyInv.stop {g : Pcb → Pcb} (h : ReadyInv k.sched added l) (vmm : Vmm) (hl : ¬k.CurrentListed)
    (hg : ∀ p, (g p).slot = { p.slot with state := .blocked }) :
    ReadyInv (({ k with vmm } : Kernel).modifyRef g k.current).sched
      (fun j => added j &&
        ((({ k with vmm } : Kernel).modifyRef g k.current).processes j).allocated) l := by
  have hadded :
      (fun j => added j && ((({ k with vmm } : Kernel).modifyRef g k.current).processes j).allocated) =
      added := by
    funext j
    have hsame : ((({ k with vmm } : Kernel).modifyRef g k.current).processes j).allocated =
        (k.processes j).allocated := by
      rcases modifyRef_processes ({ k with vmm } : Kernel) g k.current j with he | he
      · rw [he]
      · rw [he]
        exact congrArg Slot.allocated (hg (k.processes j))
    rw [hsame]
    cases hj : added j with
    | false => rfl
    | true => exact (h.live j hj).1
  rw [hadded]
  exact stop_ready (k := { k with vmm }) h (fun c hc hm => hl ⟨c, hc, h.queue.onList hm⟩) hg

theorem wait_ready {child status rc : Word} (ht : TableInv s.kernel)
    (h : ReadyInv s.kernel.sched s.added l) (hok : Orderly s (.wait child status))
    (hw : processWait child status s.kernel = .ok (rc, k')) :
    ReadyInv k'.sched (fun i => s.added i && (k'.processes i).allocated) l := by
  rcases wait_inv hw with ⟨-, -, rfl⟩ | ⟨i, hfind, ⟨hz, -, vmm, -, rfl⟩ | ⟨hz, -, rfl⟩⟩
  · have hrefl : Quiet s.kernel s.kernel := Steps.refl _
    rwa [h.after hrefl]
  · have hi := hok i hfind
    rw [if_pos hz] at hi
    obtain ⟨ha, -, hp⟩ := findPid_some hfind
    have hcur : s.kernel.current ≠ .slot i := by
      intro hc
      rw [hc] at hp
      exact ht.parent i ha (eq_of_beq hp)
    exact h.reap _ hi hcur ⟨rfl, rfl⟩
  · have hc := hok i hfind
    rw [if_neg hz] at hc
    exact h.stop s.kernel.vmm hc fun p => rfl

theorem futexWait_ready {key expected timeout : Word} {rc : Int} (h : ReadyInv s.kernel.sched s.added l)
    (hok : ¬s.kernel.CurrentListed) (hw : processFutexWait key expected timeout s.kernel = .ok (rc, k')) :
    ReadyInv k'.sched (fun i => s.added i && (k'.processes i).allocated) l := by
  rcases futexWait_inv hw with ⟨-, vmm, rfl⟩ | ⟨-, vmm, deadline, rfl⟩
  · have hquiet : Quiet s.kernel { s.kernel with vmm } := steps_vmm s.kernel vmm
    rwa [h.after hquiet]
  · exact h.stop vmm hok fun p => rfl

theorem ready_step {op : KernelOp} (ht : TableInv s.kernel) (h : ReadyInv s.kernel.sched s.added l)
    (hok : Orderly s op) (hs : kernelStep s op = some s') :
    ∃ l', ReadyInv s'.kernel.sched s'.added l' := by
  cases op with
  | createEntry | createThread | createUser | createFromPath | fork =>
    obtain ⟨res, hf, rfl⟩ := kernelStep_creates rfl hs
    cases hf with
    | creation hc => exact ⟨l, hc.ready h⟩
    | ended hj ha hexit => exact exit_ready (h.claimed hj) hexit
  | add i =>
    obtain ⟨hfresh, rc, hadd, hadded⟩ := add_inv hs
    rw [hadded]
    exact h.enlist hfresh (fun ha => lt_of_lt_of_le (ht.bound i ha) ht.count) hadd
  | timerTick r registers =>
    obtain ⟨⟨f, htick⟩, hadded⟩ := after_map_inv hs
    have hframe : Quiet s.kernel (s.kernel.setFrame (.stack r) registers) := steps_of_eq rfl rfl rfl rfl
    have ht' := ht.steps hframe
    rw [hadded, h.after (hframe.trans (tick_quiet ht'.ticks ht'.idleTicks htick))]
    refine tick_ready ht' h (fun hf => ?_) htick
    obtain ⟨hnobody, hdue⟩ := hok (currentOff_of h.queue hf)
    exact ⟨Kernel.NobodyElse.alone hnobody h.queue, hdue⟩
  | blockCurrent r registers =>
    obtain ⟨⟨f, hblock⟩, hadded⟩ := after_map_inv hs
    have hframe : Quiet s.kernel (s.kernel.setFrame (.stack r) registers) := steps_of_eq rfl rfl rfl rfl
    rw [hadded, h.after (hframe.trans (block_quiet hblock))]
    refine block_ready (k := s.kernel.setFrame (.stack r) registers) h (fun hf => ?_) hblock
    exact Kernel.NobodyElse.alone (hok (currentOff_of h.queue hf)) h.queue
  | exitWithStatus pid status =>
    obtain ⟨⟨rc, hexit⟩, hadded⟩ := after_map_inv hs
    rw [hadded, h.after (exit_steps hexit)]
    exact exit_ready h hexit
  | wait child status =>
    obtain ⟨⟨rc, hw⟩, hadded⟩ := after_map_inv hs
    rw [hadded]
    exact ⟨l, wait_ready ht h hok hw⟩
  | sendSignal pid signal =>
    obtain ⟨⟨rc, hsignal⟩, hadded⟩ := after_map_inv hs
    rw [hadded, h.after (signal_steps hsignal)]
    exact signal_ready h hsignal
  | futexWait key expected timeout =>
    obtain ⟨⟨rc, hw⟩, hadded⟩ := after_map_inv hs
    rw [hadded]
    exact ⟨l, futexWait_ready h hok hw⟩
  | futexWake key count =>
    obtain ⟨⟨rc, hw⟩, hadded⟩ := after_map_inv hs
    rw [hadded, h.after (futexWake_quiet hw)]
    exact futexWake_ready h hw
  | pollTimeouts =>
    obtain ⟨hpoll, hadded⟩ := after_inv hs
    rw [hadded, h.after (poll_quiet hpoll)]
    obtain ⟨l', h', -⟩ := poll_ready h hpoll
    exact ⟨l', h'⟩
  | timerIrq =>
    obtain ⟨he, hadded⟩ : (.ok (timerIrq s.kernel) : Except Halt Kernel) = .ok s'.kernel ∧ _ :=
      after_inv hs
    have hirq : Quiet s.kernel (timerIrq s.kernel) := steps_of_eq rfl rfl rfl rfl
    rw [hadded, ← Except.ok.inj he, h.after hirq]
    exact ⟨l, h⟩
  | memory call =>
    obtain ⟨vmm, -, rfl⟩ := memory_inv hs
    exact ⟨l, h⟩

/-! ## Runs -/

def InOrder (s : System) : Prop := TableInv s.kernel ∧ ∃ l, ReadyInv s.kernel.sched s.added l

theorem inOrder_boot (h : k.Booted) : InOrder (System.boot k) := by
  refine ⟨TableInv.of_booted h, [], ⟨h.readyHead, by simp⟩, by simp, ?_, ?_, ?_, ?_⟩
  · exact fun i ha => nomatch ha
  · exact fun i ha => nomatch ha
  · exact fun i hc => nomatch h.current.symm.trans hc
  · rintro i (hs | hs) <;> exact nomatch (h.state i).symm.trans hs

theorem inOrder_step {op : KernelOp} (h : InOrder s) (hok : Orderly s op)
    (hs : kernelStep s op = some s') :
    InOrder s' := by
  obtain ⟨ht, l, hl⟩ := h
  exact ⟨ht.step (kernelStep_table ht hs), ready_step ht hl hok hs⟩

theorem inOrder_run {ops : List KernelOp} (h0 : k.Booted)
    (hok : Along Orderly kernelStep (System.boot k) ops)
    (hrun : runs kernelStep (System.boot k) ops = some s) : InOrder s :=
  runs_inv_along InOrder (fun _ _ _ h hok hs => inOrder_step h hok hs) (inOrder_boot h0) hok hrun

end

theorem ready_never_lost (k : Kernel) (h0 : k.Booted) (ops : List KernelOp)
    (hok : Along Orderly kernelStep (System.boot k) ops) (s : System)
    (hrun : runs kernelStep (System.boot k) ops = some s) : NoneLost s := by
  obtain ⟨-, l, h⟩ := inOrder_run h0 hok hrun
  exact ⟨l, h.queue.linked, h.queue.linked.nodup, fun i _ hs ha hc => h.ready i ha hs hc⟩

def orderlyTest (s : System) : KernelOp → Bool
  | .timerTick _ _ | .blockCurrent _ _ => decide ((s.kernel.pcb s.kernel.current).state ≠ .ready)
  | .wait _ _ => s.kernel.readyHead.isNone
  | .futexWait _ _ _ => s.kernel.readyHead.all fun h =>
    decide (s.kernel.current ≠ .slot h) && (s.kernel.processes h).next.isNone
  | _ => true

theorem not_onList {k : Kernel} (h : k.readyHead.isNone = true) (i : Nat) : ¬k.OnList i := by
  rintro ⟨l, hl⟩
  rw [Option.isNone_iff_eq_none.mp h] at hl
  cases l with
  | nil => cases hl
  | cons x l => cases hl.1

theorem orderly_of_test (s : System) (op : KernelOp) (h : orderlyTest s op = true) : Orderly s op := by
  have hrunning : (s.kernel.pcb s.kernel.current).state ≠ .ready → ¬s.kernel.CurrentOff := by
    rintro hne ⟨c, hc, hs, -⟩
    rw [hc] at hne
    exact hne hs
  have hunlisted : s.kernel.readyHead.isNone = true → ¬s.kernel.CurrentListed :=
    fun hn ⟨c, _, hon⟩ => not_onList hn c hon
  cases op with
  | timerTick r registers => exact fun hoff => absurd hoff (hrunning (of_decide_eq_true h))
  | blockCurrent r registers => exact fun hoff => absurd hoff (hrunning (of_decide_eq_true h))
  | wait child status =>
    intro i _
    split
    · exact not_onList h i
    · exact hunlisted h
  | futexWait key expected timeout =>
    -- at most one process is on the list, and not the current one
    rintro ⟨c, hc, l, hl⟩
    simp only [orderlyTest] at h
    cases hhead : s.kernel.readyHead with
    | none => exact not_onList (by simp [hhead]) c ⟨l, hl⟩
    | some x =>
      simp only [hhead, Option.all_some, Bool.and_eq_true, decide_eq_true_eq,
        Option.isNone_iff_eq_none] at h
      rw [hhead] at hl
      cases l with
      | nil =>
        cases hl
        exact h.1 hc
      | cons y l =>
        obtain ⟨hy, hl⟩ := hl
        cases hy
        rw [show s.kernel.sched.next x = none from h.2] at hl
        cases l with
        | nil => cases hl
        | cons z l => cases hl.1
  | _ => trivial

def familyRun : List KernelOp :=
  [.createEntry 0x100000, .add 0, .timerTick 0x9000 zeroRegisters, .fork, .add 1,
    .timerTick 0x9000 zeroRegisters, .timerTick 0x9000 zeroRegisters]

theorem ready_never_lost_familyRun : ∃ s, runs kernelStep (System.boot coldKernel) familyRun = some s ∧
    s.kernel.current = .slot 0 ∧ (s.kernel.processes 1).state = .ready ∧ NoneLost s := by
  have hend : ((runs kernelStep (System.boot coldKernel) familyRun).map fun s =>
      (s.kernel.current, (s.kernel.processes 1).state)) = some (.slot 0, .ready) := by
    decide +kernel
  obtain ⟨s, hrun, hs⟩ := Option.map_eq_some_iff.mp hend
  obtain ⟨hcurrent, hstate⟩ := Prod.mk.inj hs
  have hok : Along Orderly kernelStep (System.boot coldKernel) familyRun :=
    along_of_check orderly_of_test (by decide +kernel)
  exact ⟨s, hrun, hcurrent, hstate, ready_never_lost coldKernel coldKernel_booted familyRun hok s hrun⟩

def lonelyRun : List KernelOp :=
  [.createEntry 0x100000, .add 0, .timerTick 0x9000 zeroRegisters, .timerTick 0x9000 zeroRegisters,
    .createEntry 0x100000, .add 1, .timerTick 0x9000 zeroRegisters]

theorem lonely_thread_lost :
    ∃ s, runs kernelStep (System.boot coldKernel) lonelyRun = some s ∧ ¬NoneLost s := by
  have hend : ((runs kernelStep (System.boot coldKernel) lonelyRun).map fun s =>
      ((s.kernel.processes 0).allocated, (s.kernel.processes 0).state, s.added 0, s.kernel.current,
        s.kernel.readyHead)) = some (true, .ready, true, .slot 1, none) := by
    decide +kernel
  obtain ⟨s, hrun, hs⟩ := Option.map_eq_some_iff.mp hend
  simp only [Prod.mk.injEq] at hs
  obtain ⟨halloc, hstate, hadded, hcurrent, hhead⟩ := hs
  refine ⟨s, hrun, ?_⟩
  rintro ⟨l, hl, -, hmem⟩
  rw [hhead] at hl
  have h0 := hmem 0 halloc hstate hadded (by simp [hcurrent])
  cases l with
  | nil => simp at h0
  | cons x l => cases hl.1

end Ceblar
