import Ceblar.Kernel.ExitStatus
import Ceblar.Scheduler.NoneLost

/-! # Waiting for a child that ends

`process_exit_with_status` wakes a process whose own parent is the one that ends, so the parent that
waits is not found.
-/

namespace Ceblar

structure Awaits (i j : Nat) (k : Kernel) : Prop where
  child : (k.processes i).allocated = true
  parent : (k.processes j).allocated = true
  family : (k.processes i).parentPid = (k.processes j).pid
  asked : (k.processes j).waitForPid = (k.processes i).pid

structure Left (i j : Nat) (k : Kernel) : Prop extends Awaits i j k where
  ended : (k.processes i).state = .zombie
  blocked : (k.processes j).state = .blocked

def OsOp.blocks (o : Os) : OsOp → Bool
  | .kernel (.wait child status) _ =>
    match processWait child status o.kernel with
    | .ok (rc, _) => rc == 0
    | .error _ => false
  | _ => false

def OsOp.ends : OsOp → Option (Word × Word)
  | .kernel (.exitWithStatus pid status) _ => some (pid, status)
  | .kernel (.sendSignal pid signal) _ => if signal = 9 then some (pid, 128 + 9) else none
  | _ => none

/-- The system, and the processes whose last call is a `process_wait` that has blocked them. -/
structure WaitState where
  os : Os
  waiting : Nat → Bool

def waitStep (s : WaitState) (op : OsOp) : Option WaitState :=
  (osStep s.os op).map fun o => ⟨o, fun j =>
    (o.kernel.processes j).allocated && (o.kernel.processes j).state == .blocked &&
      if op.byKernel = false ∧ s.os.kernel.current = .slot j then op.blocks s.os else s.waiting j⟩

/-- The parent in slot `j` is ready again, with the PID in `eax` and the status; on the ready list,
if that was in order and the parent is not the one that runs. -/
structure Notified (j : Nat) (pid code : Word) (k k' : Kernel) : Prop where
  ready : (k'.processes j).state = .ready
  status : (k'.processes j).waitStatus = code
  eax : ∀ p, (k.processes j).interruptFrame = some p → (k'.frames p).eax = pid
  queued : ∀ added l, ReadyInv k.sched added l → k.current ≠ .slot j → k'.OnList j

/-- Nobody is left blocked for a child that has ended: a wait for such a child returns with its
status and takes it out of the table, and the end of a child notifies the parent that waits for it.
-/
structure WaitKept (s : WaitState) (op : OsOp) (s' : WaitState) : Prop where
  notLeft : ∀ i j, s'.waiting j = true → ¬ Left i j s'.os.kernel
  returned : ∀ i pid code status h, op = .kernel (.wait pid status) h → Ended i pid code s.os.kernel →
    (s.os.kernel.processes i).parentPid = (s.os.kernel.pcb s.os.kernel.current).pid →
    Reaped i pid code s.os op s'.os
  notified : ∀ pid code, op.ends = some (pid, code) → ∀ i j, s.waiting j = true → Awaits i j s.os.kernel →
    (s.os.kernel.processes i).pid = pid → Notified j pid code s.os.kernel s'.os.kernel

/-- The parents that wait for the process that the step ends pass the test of
`process_exit_with_status`. -/
def WakesParent (s : WaitState) (op : OsOp) : Prop :=
  ∀ pid code, op.ends = some (pid, code) → ∀ i j, s.waiting j = true → Awaits i j s.os.kernel →
    (s.os.kernel.processes i).pid = pid → (s.os.kernel.processes j).waitsFor pid = true

/-! ## Steps that end nobody -/

section

variable {k k1 k' : Kernel} {i j x : Nat} {pid code : Word}

theorem Awaits.ne (ht : TableInv k) (h : Awaits i j k) : i ≠ j := by
  rintro rfl
  exact ht.parent i h.child h.family

theorem Left.congr (h : Left i j k') (hi : k'.processes i = k.processes i)
    (hj : k'.processes j = k.processes j) :
    Left i j k := by
  obtain ⟨⟨h1, h2, h3, h4⟩, h5, h6⟩ := h
  rw [hi] at h1 h3 h4 h5
  rw [hj] at h2 h3 h4 h6
  exact ⟨⟨h1, h2, h3, h4⟩, h5, h6⟩

theorem Left.of_steps {ends : Word → Prop} (h : Left i j k') (ht : TableInv k) (hs : Steps ends k k')
    (hb : (k.processes j).state = .blocked) : Left i j k ∨ Awaits i j k ∧ ends (k.processes i).pid := by
  have hi := hs.pcb i
  have hj := hs.pcb j
  have hchild := hi.allocated ▸ h.child
  have hparent := hj.allocated ▸ h.parent
  have hawaits : Awaits i j k := by
    refine ⟨hchild, hparent, ?_, ?_⟩
    · have hfamily := h.family
      rw [hj.pid] at hfamily
      rcases hi.parent with he | ⟨-, h0⟩
      · rwa [he] at hfamily
      · exact absurd (hfamily.symm.trans h0) (ht.pid_ne_zero hparent)
    · have hasked := h.asked
      rw [hi.pid] at hasked
      rcases hj.waits with he | ⟨-, h0⟩
      · rwa [he] at hasked
      · exact absurd (hasked.symm.trans h0) (ht.pid_ne_zero hchild)
  rcases hi.dies h.ended with hz | hend
  · exact .inl ⟨hawaits, hz, hb⟩
  · exact .inr ⟨hawaits, hend⟩

theorem Left.of_quiet (h : Left i j k') (hs : Quiet k k') (hb : (k.processes j).state = .blocked) :
    Left i j k := by
  have hi := hs.pcb i
  have hj := hs.pcb j
  refine ⟨⟨hi.allocated ▸ h.child, hj.allocated ▸ h.parent, ?_, ?_⟩,
    (hi.dies h.ended).resolve_right id, hb⟩
  · rw [← hi.parent.resolve_right And.left, ← hj.pid]
    exact h.family
  · rw [← hj.waits.resolve_right And.left, ← hi.pid]
    exact h.asked

theorem Left.of_relinks (h : Left i j k') (hr : Relinks k k') : Left i j k := by
  obtain ⟨n, head, rfl⟩ := hr
  exact ⟨⟨h.child, h.parent, h.family, h.asked⟩, h.ended, h.blocked⟩

theorem Left.of_claimed (h : Left i j k') (hc : Claimed k x k') : Left i j k := by
  refine h.congr (hc.others i ?_) (hc.others j ?_)
  · rintro rfl
    exact absurd (h.ended.symm.trans hc.state) (by decide)
  · rintro rfl
    exact absurd (h.blocked.symm.trans hc.state) (by decide)

theorem Left.of_creation {res : Option Nat × Kernel} (h : Left i j res.2) (hc : Creation k res) :
    Left i j k := by
  cases hc with
  | refused vmm => exact h.congr rfl rfl
  | failed hx => exact h.of_claimed hx
  | made hx ha => exact h.of_claimed hx

theorem Left.of_modifyRef {f : Pcb → Pcb} {ref : PcbRef} (vmm : Vmm)
    (h : Left i j (({ k with vmm } : Kernel).modifyRef f ref)) (hne : ref ≠ .slot j)
    (hf : ∀ p, (f p).pid = p.pid ∧ (f p).allocated = p.allocated ∧ (f p).parentPid = p.parentPid ∧
      ((f p).state = .zombie → p.state = .zombie)) : Left i j k := by
  cases ref with
  | idle => exact h.congr rfl rfl
  | slot c =>
    have hj : (({ k with vmm } : Kernel).modifyRef f (.slot c)).processes j = k.processes j :=
      modify_ne _ _ fun he => hne (congrArg PcbRef.slot he.symm)
    by_cases hic : i = c
    · subst hic
      obtain ⟨hpid, ha, hparent, hz⟩ := hf (k.processes i)
      have hi : (({ k with vmm } : Kernel).modifyRef f (.slot i)).processes i = f (k.processes i) :=
        modify_self _ _ _
      obtain ⟨⟨h1, h2, h3, h4⟩, h5, h6⟩ := h
      rw [hi] at h1 h3 h4 h5
      rw [hj] at h2 h3 h4 h6
      exact ⟨⟨ha ▸ h1, h2, hparent ▸ h3, hpid ▸ h4⟩, hz h5, h6⟩
    · exact h.congr (modify_ne _ _ hic) hj

theorem Left.of_modify {x : Nat} {f : Pcb → Pcb} (h : Left i j (k'.modify x f))
    (hk : k'.processes = k.processes) (hf : ∀ p, (f p).state ≠ .zombie ∧ (f p).state ≠ .blocked) :
    Left i j k := by
  have hi : i ≠ x := by
    rintro rfl
    exact (hf _).1 (modify_self k' i f ▸ h.ended)
  have hj : j ≠ x := by
    rintro rfl
    exact (hf _).2 (modify_self k' j f ▸ h.blocked)
  exact h.congr ((modify_ne _ _ hi).trans (congrFun hk i)) ((modify_ne _ _ hj).trans (congrFun hk j))

theorem Left.of_enterUser {ref : PcbRef} (h : Left i j (processEnterUserRef ref k))
    (hne : ref ≠ .slot j) :
    Left i j k := by
  rcases enterUserRef_cases k ref with ⟨-, he⟩ | ⟨vmm, he⟩
  · rwa [he] at h
  · rw [he] at h
    have hbefore := Left.of_modifyRef (k := { k with current := ref }) vmm h hne fun p =>
        ⟨rfl, rfl, rfl, fun hz => by cases hz⟩
    exact hbefore.congr rfl rfl

end

/-! ## The end of an awaited child -/

section

variable {k k' : Kernel} {i j x : Nat} {pid status : Word} {rc : Int}

theorem wakeWaiter_other (h : wakeWaiter i pid x k = .ok k') (hx : x ≠ j) :
    ∃ n, k'.processes j = { k.processes j with next := n } := by
  rcases wakeWaiter_inv h with ⟨-, rfl⟩ | ⟨-, k1, ⟨hwoken, rc, hadd⟩, -⟩
  · exact ⟨_, rfl⟩
  · obtain ⟨n, head, rfl⟩ := schedulerAdd_relinks hadd
    rw [← hwoken.others j (Ne.symm hx)]
    exact ⟨_, rfl⟩

theorem wakeWaiter_code (h : wakeWaiter i pid x k = .ok k') :
    (k'.processes i).exitCode = (k.processes i).exitCode := by
  rcases wakeWaiter_inv h with ⟨-, rfl⟩ | ⟨-, k1, ⟨hwoken, rc, hadd⟩, -⟩
  · rfl
  · obtain ⟨n, head, rfl⟩ := schedulerAdd_relinks hadd
    by_cases hx : i = x
    · subst hx
      exact hwoken.code
    · rw [← hwoken.others i hx]
      rfl

theorem setEax_eax {p : FramePtr} (hp : (k.frames p).eax = pid) (q : Option FramePtr) :
    ((k.setEax q pid).frames p).eax = pid := by
  unfold Kernel.setEax
  split
  next => exact hp
  next q =>
    unfold Kernel.setFrame
    by_cases hq : p = q
    · simp [hq]
    · simp [hq, hp]

theorem wakeWaiter_eax (h : wakeWaiter i pid x k = .ok k') {p : FramePtr} (hp : (k.frames p).eax = pid) :
    (k'.frames p).eax = pid := by
  rcases wakeWaiter_inv h with ⟨-, rfl⟩ | ⟨-, k1, ⟨-, rc, hadd⟩, -, -, hframes⟩
  · exact hp
  · obtain ⟨n, head, rfl⟩ := schedulerAdd_relinks hadd
    change (k1.frames p).eax = pid
    rw [hframes]
    exact setEax_eax hp _

theorem orphan_other (hj : (k.processes j).state ≠ .zombie) :
    (orphanZombies pid k).processes j = k.processes j := by
  refine forRange_inv (fun _ (s : Kernel) => s.processes j = k.processes j) _ rfl fun x _ s hs => ?_
  dsimp only
  split
  next hx =>
    rw [modify_ne]
    · exact hs
    · rintro rfl
      rw [hs] at hx
      simp [hj] at hx
  next => exact hs

theorem orphan_code (pid : Word) (k : Kernel) (i : Nat) :
    ((orphanZombies pid k).processes i).exitCode = (k.processes i).exitCode := by
  refine forRange_inv (fun _ (s : Kernel) => (s.processes i).exitCode = (k.processes i).exitCode) _
    rfl fun x _ s hs => ?_
  dsimp only
  split
  next =>
    by_cases hx : i = x
    · subst hx
      rw [modify_self]
      exact hs
    · rw [modify_ne _ _ hx]
      exact hs
  next => exact hs

theorem exit_loop (hi : findPid k pid (fun _ => true) = some i)
    (h : processExitWithStatus pid status k = .ok (rc, k')) : ∃ k1, (k1.processes i).exitCode = status ∧
      (∀ j, j ≠ i → (k.processes j).state ≠ .zombie → k1.processes j = k.processes j) ∧
      k1.processCount = k.processCount ∧ forRangeE k.processCount (wakeWaiter i pid) k1 = .ok k' := by
  unfold processExitWithStatus at h
  rw [hi] at h
  obtain ⟨k2, hloop, hk⟩ := bind_eq_ok.mp h
  cases hk
  have hcount :=
    (orphan_steps pid (k.modify i fun p => { p with state := .zombie, exitCode := status })).count
  refine ⟨_, ?_, fun j hj hz => ?_, hcount, ?_⟩
  · rw [orphan_code, modify_self]
  · have hsame : (k.modify i fun p => { p with state := .zombie, exitCode := status }).processes j =
        k.processes j :=
      modify_ne _ _ hj
    rw [orphan_other (by rwa [hsame]), hsame]
  · rw [hcount] at hloop
    exact hloop

theorem exit_notifies (ht : TableInv k) (hi : findPid k pid (fun _ => true) = some i) (hij : j ≠ i)
    (hw : (k.processes j).waitsFor pid = true) (h : processExitWithStatus pid status k = .ok (rc, k')) :
    Notified j pid status k k' := by
  obtain ⟨k1, hcode, hsame, -, hloop⟩ := exit_loop hi h
  obtain ⟨ha, hb⟩ : (k.processes j).allocated = true ∧ (k.processes j).state = .blocked := by
    unfold Pcb.waitsFor at hw
    simp only [Bool.and_eq_true, beq_iff_eq] at hw
    exact ⟨hw.1.1.1, hw.1.2⟩
  have hj := hsame j hij (by simp [hb])
  have hend := forRangeE_reaches
    (fun s => (s.processes j).waitsFor pid = true ∧
      (s.processes j).interruptFrame = (k.processes j).interruptFrame ∧ (s.processes i).exitCode = status)
    (fun s => (s.processes j).state = .ready ∧ (s.processes j).waitStatus = status ∧
      ∀ p, (k.processes j).interruptFrame = some p → (s.frames p).eax = pid)
    (ht.bound j ha) (fun x _ hx s s' hs hstep => ?_) (fun s s' hs hstep => ?_)
      (fun x _ hx s s' hs hstep => ?_)
    ⟨by rwa [hj], by rw [hj], hcode⟩ hloop
  · obtain ⟨hready, hstatus, heax⟩ := hend
    refine ⟨hready, hstatus, heax, fun added l hl hc => ?_⟩
    obtain ⟨l', hl'⟩ := exit_ready hl h
    have hcurrent : k'.sched.current ≠ .slot j := by
      have hsame := (exit_marks h).current
      exact fun he => hc (hsame.symm.trans he)
    exact hl'.queue.onList (hl'.ready j (hl.begun j (.inl hb)) hready hcurrent)
  · obtain ⟨n, hn⟩ := wakeWaiter_other hstep hx
    rw [wakeWaiter_code hstep, hn]
    exact hs
  · rcases wakeWaiter_inv hstep with ⟨hno, -⟩ | ⟨-, k2, ⟨hwoken, rc', hadd⟩, -, hstatus, hframes⟩
    · exact absurd (hno.symm.trans hs.1) (by decide)
    · obtain ⟨n, head, rfl⟩ := schedulerAdd_relinks hadd
      refine ⟨hwoken.ready, hstatus.trans hs.2.2, fun p hp => ?_⟩
      change (k2.frames p).eax = pid
      rw [hframes, hs.2.1, hp]
      simp [Kernel.setEax, Kernel.setFrame]
  · obtain ⟨n, hn⟩ := wakeWaiter_other hstep hx
    rw [hn]
    exact ⟨hs.1, hs.2.1, fun p hp => wakeWaiter_eax hstep (hs.2.2 p hp)⟩

theorem exit_ignores (hi : findPid k pid (fun _ => true) = some i) (hij : j ≠ i)
    (hb : (k.processes j).state = .blocked) (hw : (k.processes j).waitsFor pid = false)
    (h : processExitWithStatus pid status k = .ok (rc, k')) : (k'.processes j).state = .blocked := by
  obtain ⟨k1, -, hsame, -, hloop⟩ := exit_loop hi h
  have hj := hsame j hij (by simp [hb])
  refine (forRangeE_ok (fun _ s => (s.processes j).waitsFor pid = false ∧
    (s.processes j).state = .blocked)
    (by rw [hj]; exact ⟨hw, hb⟩) (fun x _ s s' hs hstep => ?_) hloop).2
  by_cases hx : x = j
  · subst hx
    rcases wakeWaiter_inv hstep with ⟨-, rfl⟩ | ⟨hwakes, -⟩
    · exact hs
    · exact absurd (hs.1.symm.trans hwakes) (by decide)
  · obtain ⟨n, hn⟩ := wakeWaiter_other hstep hx
    rw [hn]
    exact hs

end

section

variable {o o' : Os} {i j : Nat} {pid code : Word}

theorem Left.of_claimed_steps {k k1 k' : Kernel} {x : Nat} (ht : TableInv k) (hc : Claimed k x k1)
    (ha : (k1.processes x).allocated = true) (hs : Steps (· = (k1.processes x).pid) k1 k')
    (h : Left i j k') (hb : (k.processes j).state = .blocked)
    (hal : (k.processes j).allocated = true) (hne : k.current ≠ .slot j) :
    Left i j k := by
  have hjx : j ≠ x := by
    rintro rfl
    exact absurd (hal.symm.trans hc.free) (by decide)
  have hb1 : (k1.processes j).state = .blocked := by rw [hc.others j hjx, hb]
  have ht1 := ht.created hc
  rcases h.of_steps ht1 hs hb1 with hleft | ⟨hawaits, hpid⟩
  · exact hleft.of_claimed hc
  · exfalso
    obtain rfl : i = x := ht1.slot_unique hawaits.child ha hpid
    have hcurrent : k.current ≠ .slot i := by
      intro hcur
      exact absurd ((ht.current i hcur).symm.trans hc.free) (by decide)
    have hfamily := hawaits.family
    rw [hc.others j hjx] at hfamily
    rcases hc.parent hcurrent ha with h0 | hp
    · exact ht.pid_ne_zero hal (hfamily.symm.trans h0)
    · rw [hp] at hfamily
      cases hcur : k.current with
      | idle =>
        rw [hcur] at hfamily
        exact ht.pid_ne_zero hal (hfamily.symm.trans ht.idlePid)
      | slot c =>
        rw [hcur] at hfamily
        exact hne (hcur.trans (congrArg PcbRef.slot (ht.slot_unique (ht.current c hcur) hal hfamily)))

theorem kernelOp_left {op : KernelOp} {hr : op.readsFile = false} {s' : System}
    (ht : TableInv o.kernel) (hends : (OsOp.kernel op hr).ends = none)
    (hby : ByOthers j o (.kernel op hr)) (ha : (o.kernel.processes j).allocated = true)
    (hb : (o.kernel.processes j).state = .blocked)
    (hs : kernelStep (System.boot o.kernel) op = some s') (h : Left i j s'.kernel) :
    Left i j o.kernel := by
  cases op with
  | createEntry | createThread | createUser | createFromPath | fork =>
    obtain ⟨res, hf, rfl⟩ := kernelStep_creates rfl hs
    have hne := hby.resolve_left (by simp [OsOp.byKernel, KernelOp.byKernel])
    cases hf with
    | creation hc => exact Left.of_creation h hc
    | ended hx hax hend => exact Left.of_claimed_steps ht hx hax (exit_steps hend) h hb ha hne
  | add x =>
    obtain ⟨-, rc, hadd, -⟩ := add_inv hs
    exact h.of_relinks (schedulerAdd_relinks hadd)
  | timerTick r registers =>
    obtain ⟨⟨f, htick⟩, -⟩ := after_map_inv hs
    exact (h.of_quiet
      (tick_quiet (k := o.kernel.setFrame _ _) ht.ticks ht.idleTicks htick) hb).congr rfl rfl
  | blockCurrent r registers =>
    obtain ⟨⟨f, hblock⟩, -⟩ := after_map_inv hs
    exact (h.of_quiet (block_quiet hblock) hb).congr rfl rfl
  | exitWithStatus target status => cases hends
  | wait child status =>
    obtain ⟨⟨rc, hwait⟩, -⟩ := after_map_inv hs
    have hne := hby.resolve_left (by simp [OsOp.byKernel, KernelOp.byKernel])
    rcases wait_inv hwait with ⟨-, -, he⟩ | ⟨x, hfind, ⟨-, -, vmm, -, he⟩ | ⟨-, -, he⟩⟩
    · rwa [he] at h
    · rw [he] at h
      exact h.of_modify rfl fun _ => ⟨by simp, by simp⟩
    · rw [he] at h
      exact Left.of_modifyRef o.kernel.vmm h hne fun p => ⟨rfl, rfl, rfl, fun hz => by cases hz⟩
  | sendSignal target signal =>
    obtain ⟨⟨rc, hsignal⟩, -⟩ := after_map_inv hs
    have h9 : signal ≠ 9 := by
      rintro rfl
      cases hends
    exact h.of_quiet (signal_quiet h9 hsignal) hb
  | futexWait key expected timeout =>
    obtain ⟨⟨rc, hwait⟩, -⟩ := after_map_inv hs
    have hne := hby.resolve_left (by simp [OsOp.byKernel, KernelOp.byKernel])
    rcases futexWait_inv hwait with ⟨-, vmm, hk⟩ | ⟨-, vmm, deadline, hk⟩
    · rw [hk] at h
      exact h.congr rfl rfl
    · rw [hk] at h
      exact Left.of_modifyRef vmm h hne fun p => ⟨rfl, rfl, rfl, fun hz => by cases hz⟩
  | futexWake key count =>
    obtain ⟨⟨rc, hwake⟩, -⟩ := after_map_inv hs
    exact h.of_quiet (futexWake_quiet hwake) hb
  | pollTimeouts => exact h.of_quiet (poll_quiet (after_inv hs).1) hb
  | timerIrq =>
    obtain ⟨hk, -⟩ : (.ok (timerIrq o.kernel) : Except Halt Kernel) = .ok s'.kernel ∧ _ := after_inv hs
    rw [← Except.ok.inj hk] at h
    exact h.congr rfl rfl
  | memory call =>
    obtain ⟨vmm, -, rfl⟩ := memory_inv hs
    exact h.congr rfl rfl

theorem osStep_left {op : OsOp} (ht : TableInv o.kernel) (hends : op.ends = none) (hby : ByOthers j o op)
    (ha : (o.kernel.processes j).allocated = true) (hb : (o.kernel.processes j).state = .blocked)
    (hs : osStep o op = some o') (h : Left i j o'.kernel) : Left i j o.kernel := by
  cases op with
  | kernel op hr =>
    obtain ⟨s', hstep, rfl⟩ := Option.map_eq_some_iff.mp hs
    exact kernelOp_left ht hends hby ha hb hstep h
  | createFromFile disk path =>
    obtain ⟨-, vmm, x, hc⟩ := osStep_file hs
    exact (Left.of_creation (k := { o.kernel with vmm }) h hc).congr rfl rfl
  | exec disk a =>
    have hne := hby.resolve_left (by simp [OsOp.byKernel])
    obtain ⟨⟨rc, o1⟩, hexec, rfl⟩ := Option.map_eq_some_iff.mp hs
    rcases ee_cases (toOption_eq_some hexec) with ⟨-, ⟨vmm, he⟩, -⟩ | ⟨-, space, entry, -, vmm, he⟩
    · rw [he] at h
      exact h.congr rfl rfl
    · rw [he] at h
      exact Left.of_modifyRef vmm h hne fun p => ⟨rfl, rfl, rfl, id⟩
  | execPath disk path =>
    have hne := hby.resolve_left (by simp [OsOp.byKernel])
    obtain ⟨⟨rc, o1⟩, hexec, rfl⟩ := Option.map_eq_some_iff.mp hs
    rcases execPath_cases (toOption_eq_some hexec) with ⟨-, ⟨vmm, he⟩ | ⟨space, entry, vmm, he⟩⟩
    · rw [he] at h
      exact h.congr rfl rfl
    · rw [he] at h
      exact Left.of_modifyRef vmm (h.of_enterUser hne) hne fun p => ⟨rfl, rfl, rfl, id⟩
  | yield cpu =>
    obtain ⟨⟨loaded, k⟩, hyield, rfl⟩ := Option.map_eq_some_iff.mp hs
    exact h.of_quiet (yield_quiet (toOption_eq_some hyield)) hb
  | enter user x =>
    obtain ⟨-, -, rfl | ⟨vmm, -, rfl⟩⟩ := osStep_enter hs
    · exact h
    · change Left i j (o.kernel.entered vmm x) at h
      unfold Kernel.entered at h
      exact h.of_modify rfl fun _ => ⟨by simp, by simp⟩

theorem osStep_ends {op : OsOp} (hends : op.ends = some (pid, code)) (hs : osStep o op = some o') :
    ∃ rc, processExitWithStatus pid code o.kernel = .ok (rc, o'.kernel) := by
  unfold OsOp.ends at hends
  split at hends
  · cases hends
    obtain ⟨s', hstep, rfl⟩ := Option.map_eq_some_iff.mp hs
    exact (after_map_inv hstep).1
  · split at hends
    · rename_i h9
      subst h9
      cases hends
      obtain ⟨s', hstep, rfl⟩ := Option.map_eq_some_iff.mp hs
      obtain ⟨rc, hsignal⟩ := (after_map_inv hstep).1
      exact ⟨rc, signal_nine pid o.kernel ▸ hsignal⟩
    · cases hends
  · cases hends

theorem blocks_left {op : OsOp} (ht : TableInv o.kernel) (hcurrent : o.kernel.current = .slot j)
    (hblocks : op.blocks o = true) (hs : osStep o op = some o') : ¬ Left i j o'.kernel := by
  intro h
  unfold OsOp.blocks at hblocks
  split at hblocks
  · rename_i child status hr
    obtain ⟨s', hstep, rfl⟩ := Option.map_eq_some_iff.mp hs
    obtain ⟨⟨rc, hwait⟩, -⟩ := after_map_inv hstep
    rw [show processWait child status o.kernel = .ok (rc, s'.kernel) from hwait] at hblocks
    obtain rfl : rc = 0 := by simpa using hblocks
    rcases wait_inv hwait with ⟨-, hrc, -⟩ | ⟨x, hfind, ⟨-, hrc, -⟩ | ⟨hlive, -, he⟩⟩
    · cases hrc
    · obtain ⟨ha, hp, -⟩ := findPid_some hfind
      exact ht.pid_ne_zero ha (hp.trans hrc.symm)
    · obtain ⟨ha, hp, -⟩ := findPid_some hfind
      obtain ⟨⟨hchild, -, -, hasked⟩, hz, hb⟩ := h
      rw [he, show (System.boot o.kernel).kernel.current = .slot j from hcurrent] at hchild hasked hz hb
      have hij : i ≠ j := by
        rintro rfl
        cases hz.symm.trans hb
      rw [Kernel.modifyRef, modify_ne _ _ hij] at hchild hasked hz
      rw [modify_self] at hasked
      obtain rfl : x = i := ht.slot_unique ha hchild (hp.trans hasked)
      exact hlive hz
  · cases hblocks

end

/-! ## Every order -/

structure Watched (s : WaitState) : Prop where
  table : TableInv s.os.kernel
  blocked : ∀ j, s.waiting j = true → (s.os.kernel.processes j).allocated = true ∧
    (s.os.kernel.processes j).state = .blocked
  notLeft : ∀ i j, s.waiting j = true → ¬ Left i j s.os.kernel

section

variable {s s' : WaitState} {op : OsOp} {i j : Nat} {pid code : Word}

/-- Who waits after a step has just called `process_wait`, or has waited before and has not called
since. -/
theorem waitStep_waiting (h : waitStep s op = some s') (hw : s'.waiting j = true) :
    ((s'.os.kernel.processes j).allocated = true ∧ (s'.os.kernel.processes j).state = .blocked) ∧
      (s.os.kernel.current = .slot j ∧ op.blocks s.os = true ∨ s.waiting j = true ∧
        ByOthers j s.os op) := by
  obtain ⟨o', -, rfl⟩ := Option.map_eq_some_iff.mp h
  simp only [Bool.and_eq_true, beq_iff_eq] at hw
  refine ⟨hw.1, ?_⟩
  have hwho := hw.2
  split at hwho
  next hcall => exact .inl ⟨hcall.2, hwho⟩
  next hcall =>
    rw [not_and_or, Bool.not_eq_false] at hcall
    exact .inr ⟨hwho, hcall⟩

theorem waitStep_os (h : waitStep s op = some s') : osStep s.os op = some s'.os := by
  obtain ⟨o', ho', rfl⟩ := Option.map_eq_some_iff.mp h
  exact ho'

theorem Awaits.found {k : Kernel} (ht : TableInv k) (h : Awaits i j k)
    (hpid : (k.processes i).pid = pid) :
    findPid k pid (fun _ => true) = some i := (findPid_eq_some ht).mpr ⟨⟨h.child, hpid⟩, rfl⟩

theorem waitStep_notLeft (hs : Watched s) (hstep : waitStep s op = some s') (hwakes : WakesParent s op)
    (hw : s'.waiting j = true) : ¬ Left i j s'.os.kernel := by
  intro hleft
  have hos := waitStep_os hstep
  rcases (waitStep_waiting hstep hw).2 with ⟨hcurrent, hblocks⟩ | ⟨hwaits, hby⟩
  · exact blocks_left hs.table hcurrent hblocks hos hleft
  · obtain ⟨ha, hb⟩ := hs.blocked j hwaits
    cases hends : op.ends with
    | none => exact hs.notLeft i j hwaits (osStep_left hs.table hends hby ha hb hos hleft)
    | some e =>
      obtain ⟨pid, code⟩ := e
      obtain ⟨rc, hexit⟩ := osStep_ends hends hos
      rcases hleft.of_steps hs.table (exit_steps hexit) hb with hbefore | ⟨hawaits, hpid⟩
      · exact hs.notLeft i j hwaits hbefore
      · have hready := (exit_notifies hs.table (hawaits.found hs.table hpid) (hawaits.ne hs.table).symm
          (hwakes pid code hends i j hwaits hawaits hpid) hexit).ready
        cases hleft.blocked.symm.trans hready

theorem waitStep_kept (hs : Watched s) (hstep : waitStep s op = some s') :
    WaitKept s op s' ↔ WakesParent s op := by
  have ht := hs.table
  have hos := waitStep_os hstep
  constructor
  · intro h pid code hends i j hwaits hawaits hpid
    obtain ⟨rc, hexit⟩ := osStep_ends hends hos
    have hready := (h.notified pid code hends i j hwaits hawaits hpid).ready
    by_contra hno
    have hblocked := exit_ignores (hawaits.found ht hpid) (hawaits.ne ht).symm (hs.blocked j hwaits).2
      (Bool.eq_false_iff.mpr hno) hexit
    cases hblocked.symm.trans hready
  · intro hwakes
    refine ⟨fun i j hw => waitStep_notLeft hs hstep hwakes hw, ?_, ?_⟩
    · rintro i pid code status hr rfl hz hparent
      have hfind : findPid s.os.kernel pid
          (fun p => p.parentPid == (s.os.kernel.pcb s.os.kernel.current).pid) = some i :=
        (findPid_eq_some ht).mpr ⟨⟨hz.allocated, hz.pid⟩, by simpa using hparent⟩
      obtain ⟨s1, hkernel, hos'⟩ := Option.map_eq_some_iff.mp hos
      obtain ⟨⟨rc, hwait⟩, -⟩ := after_map_inv hkernel
      rw [← hos']
      exact wait_reaps hz hfind hwait
    · intro pid code hends i j hwaits hawaits hpid
      obtain ⟨rc, hexit⟩ := osStep_ends hends hos
      exact exit_notifies ht (hawaits.found ht hpid) (hawaits.ne ht).symm
        (hwakes pid code hends i j hwaits hawaits hpid) hexit

/-- Nobody is left blocked for a child that has ended exactly if every step that ends a process
finds its waiting parent by the test that `process_exit_with_status` makes. -/
theorem wait_kept_iff {o : Os} (h0 : o.kernel.Booted) (ops : List OsOp) :
    Along (fun s op => ∀ s', waitStep s op = some s' → WaitKept s op s') waitStep
      ⟨o, fun _ => false⟩ ops ↔
      Along (fun s op => ∀ s', waitStep s op = some s' → WakesParent s op) waitStep
        ⟨o, fun _ => false⟩ ops := by
  have hstart : Watched ⟨o, fun _ => false⟩ :=
    ⟨.of_booted h0, fun _ hw => Bool.noConfusion hw, fun _ _ hw => Bool.noConfusion hw⟩
  refine along_congr Watched (fun s op hs => ?_) (fun s op s' hs hC hstep => ?_) hstart ops
  · exact forall_congr' fun s' => forall_congr' fun hstep => waitStep_kept hs hstep
  · exact ⟨osStep_table hs.table (waitStep_os hstep), fun j hw => (waitStep_waiting hstep hw).1,
      (hC s' hstep).notLeft⟩

end

def nobodyWaits (s : WaitState) (op : OsOp) : Bool :=
  op.ends.isNone || (List.range 32).all fun j => !s.waiting j

theorem wakesParent_of_nobody {s : WaitState} {op : OsOp} (ht : TableInv s.os.kernel)
    (h : nobodyWaits s op = true) :
    WakesParent s op := by
  intro pid code hends i j hwaits hawaits hpid
  have hbound := ht.bound j hawaits.parent
  have hcount := ht.count
  simp only [nobodyWaits, hends, Option.isNone_some, Bool.false_or, List.all_eq_true, List.mem_range] at h
  have hno := h j (by omega)
  rw [hwaits] at hno
  cases hno

theorem wait_kept_ended : ∃ s, runs waitStep ⟨coldOs, fun _ => false⟩ (endedRun ++ waitedRun) = some s ∧
    (s.os.kernel.processes 1).allocated = false ∧
    Along (fun s op => ∀ s', waitStep s op = some s' → WaitKept s op s') waitStep ⟨coldOs, fun _ => false⟩
      (endedRun ++ waitedRun) := by
  have hrun : (runs waitStep ⟨coldOs, fun _ => false⟩ (endedRun ++ waitedRun)).map
      (fun s => (s.os.kernel.processes 1).allocated) = some false := by
    decide +kernel
  have hcheck :
      alongCheck nobodyWaits waitStep ⟨coldOs, fun _ => false⟩ (endedRun ++ waitedRun) = true := by
    decide +kernel
  obtain ⟨s, hs, hfree⟩ := Option.map_eq_some_iff.mp hrun
  refine ⟨s, hs, hfree, (wait_kept_iff coldOs_booted.kernel _).mpr ?_⟩
  refine along_of_check_inv (fun s => TableInv s.os.kernel)
    (fun s op s' ht hstep => osStep_table ht (waitStep_os hstep))
    (fun s op ht hnobody s' _ => wakesParent_of_nobody ht hnobody)
      (.of_booted coldOs_booted.kernel) hcheck

def waitsFirst : List OsOp :=
  [.createEntry 0x1000, .add 0, .timerTick 0x9000 zeroRegisters, .createThread 0x2000, .add 1,
    .wait 258 0, .blockCurrent 0x9000 zeroRegisters]

/-- The second thread ends with status 5, and the first stays blocked. -/
theorem parent_left_blocked : ∃ s s', runs waitStep ⟨coldOs, fun _ => false⟩ waitsFirst = some s ∧
    waitStep s (.kernel (.exitWithStatus 258 5) rfl) = some s' ∧ Left 1 0 s'.os.kernel ∧
    ¬ WaitKept s (.kernel (.exitWithStatus 258 5) rfl) s' := by
  have hrun : ((runs waitStep ⟨coldOs, fun _ => false⟩ waitsFirst).bind fun s =>
      (waitStep s (.kernel (.exitWithStatus 258 5) rfl)).map fun s' => (s'.waiting 0,
        (s'.os.kernel.processes 1).allocated, (s'.os.kernel.processes 0).allocated,
        (s'.os.kernel.processes 1).parentPid, (s'.os.kernel.processes 0).pid)) =
      some (true, true, true, 257, 257) := by
    decide +kernel
  have hstate : ((runs waitStep ⟨coldOs, fun _ => false⟩ waitsFirst).bind fun s =>
      (waitStep s (.kernel (.exitWithStatus 258 5) rfl)).map fun s' =>
        ((s'.os.kernel.processes 0).waitForPid,
        (s'.os.kernel.processes 1).pid, (s'.os.kernel.processes 1).state,
        (s'.os.kernel.processes 0).state)) =
      some (258, 258, .zombie, .blocked) := by
    decide +kernel
  obtain ⟨s, hs, hrun⟩ := Option.bind_eq_some_iff.mp hrun
  obtain ⟨s', hs', hrun⟩ := Option.map_eq_some_iff.mp hrun
  rw [hs, Option.bind_some, hs', Option.map_some, Option.some_inj] at hstate
  simp only [Prod.mk.injEq] at hrun hstate
  obtain ⟨hwaits, hchild, hparent, hfamily, hpid⟩ := hrun
  obtain ⟨hasked, hcpid, hz, hb⟩ := hstate
  have hleft : Left 1 0 s'.os.kernel :=
    ⟨⟨hchild, hparent, hfamily.trans hpid.symm, hasked.trans hcpid.symm⟩, hz, hb⟩
  exact ⟨s, s', hs, hs', hleft, fun h => h.notLeft 1 0 hwaits hleft⟩

end Ceblar
