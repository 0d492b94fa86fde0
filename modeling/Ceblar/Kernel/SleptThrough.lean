import Ceblar.Kernel.PidHistory
import Ceblar.Kernel.SigReturn
import Ceblar.Scheduler.Reach

/-! # Signals and sleep

A call that puts its caller to sleep does so before the signal step, and the signal step does not
wake it.
-/

namespace Ceblar

/-- A signal is pending and not masked, it has a handler, and the stack is valid. -/
def Deliverable (k : Kernel) (r : FramePtr) : Prop :=
  StackTakes k r ∧ ∃ s, 1 ≤ s ∧ s < 32 ∧ (k.pcb k.current).unmasked &&& 1 <<< s ≠ 0 ∧
    (k.pcb k.current).signalHandlers s ≠ 0

section

variable {k k' : Kernel} {r : FramePtr} {pending : Word} {signal : Nat}

theorem enterHandler_active (k : Kernel) (r : FramePtr) (signal : Nat) (x : Word) :
    ((k.enterHandler r signal x).pcb k.current).signalActive = true := by
  unfold Kernel.enterHandler
  exact congrArg Pcb.signalActive (modifyRef_pcb _ _ _)

theorem deliverLoop_enters {n s : Nat} (hs : StackTakes k r) (hbit : pending &&& 1 <<< s ≠ 0)
    (hhandler : (k.pcb k.current).signalHandlers s ≠ 0) (hle : signal ≤ s) (hlt : s < signal + n)
    (h : deliverLoop r pending n signal k = .ok k') : (k'.pcb k.current).signalActive = true := by
  induction n generalizing signal k with
  | zero => omega
  | succ n ih =>
    obtain ⟨⟨entered, k1⟩, hone, h⟩ := bind_eq_ok.mp h
    rcases deliverOne_inv hone with ⟨rfl, ⟨hskip, x, rfl⟩ | ⟨hrefused, -⟩⟩ | ⟨rfl, -, -, vmm, x, rfl⟩
    · have hne : signal ≠ s := by
        rintro rfl
        exact hskip.elim hbit hhandler
      have hcur : (k.withPending x).current = k.current := modifyRef_current _ _ _
      rw [← hcur]
      refine ih (hs.withPending x) ?_ (by omega) (by omega) h
      rw [withPending_pcb]
      exact hhandler
    · exact absurd hs hrefused
    · cases h
      exact enterHandler_active _ _ _ _

theorem Deliverable.enters (h : Deliverable k r) (huser : (k.pcb k.current).userMode = true)
    (hactive : (k.pcb k.current).signalActive = false) (hd : processDeliverSignal r k = .ok k') :
    (k'.pcb k.current).signalActive = true := by
  obtain ⟨hs, s, h1, h32, hbit, hhandler⟩ := h
  unfold processDeliverSignal at hd
  dsimp only at hd
  rw [huser, hactive] at hd
  exact deliverLoop_enters hs hbit hhandler h1 h32 hd

end

/-! ## Calls that sleep -/

def FutexHolds (k : Kernel) (a expected : Word) : Prop :=
  ¬(a < 0x400000 ∨ 0xc0000000 ≤ a) ∧ ∃ space m m1 m2 m3, (k.pcb k.current).addressSpace = some space ∧
    vmmValidateUserPtr k.vmm space a 4 1 = .ok (0, m) ∧ vmmValidateUserPtr m space a 4 1 = .ok (0, m1) ∧
    m1.kernelLoad32 a = .ok (expected, m2) ∧ m2.kernelLoad32 a = .ok (expected, m3)

def ChildAlive (k : Kernel) (child status : Word) : Prop :=
  (status = 0 ∨ ∃ m, userBuf status 4 1 k = .ok (true, m)) ∧
    ∃ i, findPid k child (fun p => p.parentPid == (k.pcb k.current).pid) = some i ∧
    (k.processes i).state ≠ .zombie

def SysEvent.sleeps (k : Kernel) : SysEvent → Prop
  | .syscall _ _ _ registers =>
    registers.eax = 15 ∧ FutexHolds k registers.ebx registers.ecx ∨
    registers.eax = 9 ∧ ChildAlive k registers.ebx registers.ecx
  | _ => False

section

variable {k k' : Kernel} {o o' : Os} {a b c v : Word}

theorem userBuf_true {p n write : Word} {vmm : Vmm} (hn : n ≠ 0) :
    userBuf p n write k = .ok (true, vmm) ↔
      ∃ space, (k.pcb k.current).addressSpace = some space ∧
      vmmValidateUserPtr k.vmm space p n write = .ok (0, vmm) := by
  unfold userBuf
  rw [if_neg hn]
  cases hspace : (k.pcb k.current).addressSpace with
  | none => simp
  | some space =>
    dsimp only
    rw [bind_eq_ok]
    constructor
    · rintro ⟨⟨rc, vmm'⟩, hvalid, he⟩
      obtain ⟨hrc, rfl⟩ := Prod.mk.inj (Except.ok.inj he)
      obtain rfl : rc = 0 := of_decide_eq_true hrc
      exact ⟨space, rfl, hvalid⟩
    · rintro ⟨space', he, hvalid⟩
      cases he
      exact ⟨_, hvalid, rfl⟩

theorem futexWait_matched {timeout : Word} {rc : Int}
    (h : processFutexWait a b timeout k = .ok (rc, k')) (hrc : rc = 0) :
    ∃ space m1 m2 m3, (k.pcb k.current).addressSpace = some space ∧
    vmmValidateUserPtr k.vmm space a 4 1 = .ok (0, m1) ∧
      m1.kernelLoad32 a = .ok (b, m2) ∧ m2.kernelLoad32 a = .ok (b, m3) := by
  subst hrc
  unfold processFutexWait at h
  split at h
  · cases h
  · rename_i space hspace
    split at h
    · cases h
    · obtain ⟨⟨rc1, m1⟩, hvalid, h⟩ := bind_eq_ok.mp h
      dsimp only at h
      split at h
      · cases h
      · rename_i hok
        obtain ⟨⟨w2, m2⟩, hfirst, h⟩ := bind_eq_ok.mp h
        dsimp only at h
        split at h
        · cases h
        · rename_i hw2
          obtain ⟨⟨w3, m3⟩, hsecond, h⟩ := bind_eq_ok.mp h
          dsimp only at h
          split at h
          · cases h
          · rename_i hw3
            rw [not_not] at hok hw2 hw3
            subst hok hw2 hw3
            exact ⟨space, m1, m2, m3, hspace, hvalid, hfirst, hsecond⟩

theorem futexWait_zero {timeout : Word} {rc : Int} {space : Nat} {m1 m2 m3 : Vmm} (ha : a ≠ 0)
    (hspace : (k.pcb k.current).addressSpace = some space)
    (hvalid : vmmValidateUserPtr k.vmm space a 4 1 = .ok (0, m1))
    (hfirst : m1.kernelLoad32 a = .ok (b, m2)) (hsecond : m2.kernelLoad32 a = .ok (b, m3))
    (h : processFutexWait a b timeout k = .ok (rc, k')) : rc = 0 := by
  unfold processFutexWait at h
  rw [hspace] at h
  dsimp only at h
  rw [if_neg ha] at h
  obtain ⟨_, h1, h⟩ := bind_eq_ok.mp h
  rw [hvalid] at h1
  cases h1
  obtain ⟨_, h2, h⟩ := bind_eq_ok.mp h
  rw [hfirst] at h2
  cases h2
  dsimp only at h
  rw [if_neg (not_not.mpr rfl)] at h
  obtain ⟨_, h3, h⟩ := bind_eq_ok.mp h
  rw [hsecond] at h3
  cases h3
  dsimp only at h
  rw [if_neg (not_not.mpr rfl)] at h
  cases h
  rfl

theorem futexWaitSys_sleeps (h : FutexHolds o.kernel a b)
    (hcall : Sys.futexWaitSys a b c o = .ok (v, o')) :
    (o'.kernel.pcb o.kernel.current).state = .blocked := by
  obtain ⟨ha, space, m, m1, m2, m3, hspace, hbuf, hvalid, hfirst, hsecond⟩ := h
  have hne : a ≠ 0 := by
    rintro rfl
    exact ha (.inl (by decide))
  unfold Sys.futexWaitSys Sys.withFutex at hcall
  rw [if_neg ha] at hcall
  obtain ⟨⟨ok, vmm⟩, hbuf', hcall⟩ := bind_eq_ok.mp hcall
  rw [(userBuf_true (by decide)).mpr ⟨space, hspace, hbuf⟩] at hbuf'
  cases hbuf'
  obtain ⟨⟨rc, k1⟩, hwait, hcall⟩ := bind_eq_ok.mp hcall
  cases hcall
  have hrc := futexWait_zero (k := (o.setVmm m).kernel) hne hspace hvalid hfirst hsecond hwait
  rcases futexWait_inv hwait with ⟨hne, -⟩ | ⟨-, vmm, deadline, rfl⟩
  · exact absurd hrc hne
  · exact congrArg Pcb.state (modifyRef_pcb _ _ _)

theorem wait_blocks {m : Vmm} {i : Nat} {rc : Word}
    (hi : findPid k a (fun p => p.parentPid == (k.pcb k.current).pid) = some i)
    (hstate : (k.processes i).state ≠ .zombie)
    (h : processWait a b { k with vmm := m } = .ok (rc, k')) :
    (k'.pcb k.current).state = .blocked := by
  have hfind : findPid ({ k with vmm := m } : Kernel) a
      (fun p => p.parentPid == (({ k with vmm := m } : Kernel).pcb k.current).pid) = some i := hi
  rcases wait_inv h with ⟨hnone, -⟩ | ⟨j, hj, hend⟩
  · exact absurd (hnone.symm.trans hfind) (by simp)
  · rw [hfind] at hj
    cases hj
    rcases hend with ⟨hz, -⟩ | ⟨-, -, rfl⟩
    · exact absurd hz hstate
    · exact congrArg Pcb.state (modifyRef_pcb _ _ _)

theorem wt_sleeps (h : ChildAlive o.kernel a b) (hcall : Sys.wt a b o = .ok (v, o')) :
    (o'.kernel.pcb o.kernel.current).state = .blocked := by
  obtain ⟨hstatus, i, hi, hstate⟩ := h
  unfold Sys.wt at hcall
  dsimp only at hcall
  split at hcall
  · obtain ⟨⟨rc, k1⟩, hwait, hcall⟩ := bind_eq_ok.mp hcall
    cases hcall
    exact wait_blocks (m := o.kernel.vmm) hi hstate hwait
  · rename_i hb
    obtain ⟨m, hbuf⟩ := hstatus.resolve_left hb
    obtain ⟨⟨ok, vmm⟩, hbuf', hcall⟩ := bind_eq_ok.mp hcall
    rw [hbuf] at hbuf'
    cases hbuf'
    obtain ⟨⟨rc, k1⟩, hwait, hcall⟩ := bind_eq_ok.mp hcall
    cases hcall
    exact wait_blocks hi hstate hwait

end

section

variable {k k' : Kernel} {o o' od : Os} {c : Nat} {r f : FramePtr}
variable {cpu : CalleeSaved} {e : SysEvent} {number p : Word}

theorem yield_awake (h : schedulerYield cpu k = .ok (none, k')) : Awake k k' := by
  obtain ⟨k2, n, k3, hreq, hnext, hend⟩ := yield_inv h
  have hticks : Awake k (k.modifyRef (fun p => { p with ticks := 0 }) k.current) :=
    awake_modifyRef fun _ => id
  cases hend with
  | again => exact (hticks.trans (requeue_awake hreq)).trans (nextReady_relinks hnext).awake

theorem Dispatched.sleeps {n a b d v : Word} (h : Dispatched cpu o n a b d (some v) o')
    (hawake : (o.kernel.processes c).state ≠ .blocked) (hb : (o'.kernel.processes c).state = .blocked) :
    n = 15 ∧ FutexHolds o.kernel a b ∨ n = 9 ∧ ChildAlive o.kernel a b := by
  have hkeeps : ¬Awake o.kernel o'.kernel := fun ha => hawake (ha c hb)
  generalize hres : some v = res at h
  cases h with
  | memory vmm hk hp =>
    rw [hk] at hb
    exact absurd hb hawake
  | fork h => exact absurd (fork_inv h).awake hkeeps
  | exit h => exact absurd (exit_awake h) hkeeps
  | @wait rc k' vmm hn hbuf h =>
    refine .inr ⟨BitVec.eq_of_toNat_eq hn, ?_⟩
    rcases wait_inv h with ⟨-, -, rfl⟩ | ⟨i, hi, ⟨-, -, m, -, rfl⟩ | ⟨hstate, -, -⟩⟩
    · exact absurd hb hawake
    · refine hkeeps.elim ?_
      dsimp only
      refine awake_modified rfl ?_
      exact fun _ hp => by cases hp
    · refine ⟨?_, i, hi, hstate⟩
      rcases hbuf with ⟨hb, -⟩ | ⟨-, hbuf⟩
      · exact .inl hb
      · exact .inr ⟨vmm, hbuf⟩
  | kill h => exact absurd (signal_awake h) hkeeps
  | futexWait vmm hn ha hbuf h =>
    refine .inl ⟨BitVec.eq_of_toNat_eq hn, ha, ?_⟩
    rcases futexWait_inv h with ⟨-, m, rfl⟩ | ⟨hrc, -⟩
    · exact absurd hb hawake
    · obtain ⟨space, hspace, hfirst⟩ := (userBuf_true (by decide)).mp hbuf
      obtain ⟨space', m1, m2, m3, hspace', hrest⟩ := futexWait_matched h hrc
      rw [show (({ o.kernel with vmm } : Kernel).pcb _).addressSpace = some space from hspace] at hspace'
      cases hspace'
      exact ⟨space, vmm, m1, m2, m3, hspace, hfirst, hrest⟩
  | futexWake vmm h =>
    have ha : Awake o.kernel { o.kernel with vmm } := fun _ => id
    exact absurd (ha.trans (futexWake_awake h)) hkeeps
  | @action v i vmm handlers mask hn hi h9 =>
    refine hkeeps.elim ?_
    dsimp only
    refine awake_modified rfl ?_
    exact fun _ => id
  | @yield loaded k' hn h =>
    cases loaded with
    | none => exact absurd (yield_awake h) hkeeps
    | some cpu => cases hres
  | exec hn h =>
    rcases ee_cases h with ⟨hrc, -⟩ | ⟨-, space, entry, -, vmm, he⟩
    · exact absurd rfl hrc
    · refine absurd ?_ hkeeps
      rw [he]
      exact awake_modifyRef (k := { o.kernel with vmm }) fun _ => id

theorem SignalEntry.blocked_iff (h : SignalEntry o e number p od)
    (hc : o.kernel.current = .slot c) (hawake : (o.kernel.processes c).state ≠ .blocked) :
    (od.kernel.processes c).state = .blocked ↔ e.sleeps o.kernel := by
  cases h with
  | @called dev cpu p v registers o1 hcall =>
    refine ⟨fun hb => (dispatch_inv hcall).sleeps hawake hb, fun hs => ?_⟩
    have hpcb : ∀ k1 : Kernel, k1.pcb (o.enter p registers).kernel.current = k1.processes c := by
      intro k1
      rw [show (o.enter p registers).kernel.current = .slot c from hc]
      rfl
    have hmap : ∀ {x : Except Halt (Word × Os)},
        x.map (fun r => (some r.1, r.2)) = .ok (some v, o1) → x = .ok (v, o1) := by
      intro x hx
      cases x with
      | error e => cases hx
      | ok r =>
        cases hx
        rfl
    rcases hs with ⟨hn, hs⟩ | ⟨hn, hs⟩
    · rw [hn] at hcall
      exact (congrArg Pcb.state (hpcb o1.kernel)).symm.trans
        (futexWaitSys_sleeps (o := o.enter p registers) hs (hmap hcall))
    · rw [hn] at hcall
      exact (congrArg Pcb.state (hpcb o1.kernel)).symm.trans
        (wt_sleeps (o := o.enter p registers) hs (hmap hcall))
  | resumed p registers => exact iff_of_false hawake id

theorem block_stopped (h : schedulerBlockCurrent r k = .ok (f, k')) (hc : k.current = .slot c)
    (hs : (k.processes c).state = .blocked ∨ (k.processes c).state = .zombie) :
    (k'.processes c).state = (k.processes c).state := by
  have hsuspend : ((suspend r k).processes c).state = (k.processes c).state := by
    have hne : (k.processes c).state ≠ .running := by
      rcases hs with hs | hs <;> simp [hs]
    unfold suspend
    rw [hc]
    simp [Kernel.modifyRef, Kernel.modify, hne]
  obtain ⟨n, k2, hnext, hend⟩ := block_inv h
  have h2 : (k2.processes c).state = (k.processes c).state := by
    obtain ⟨next, head, rfl⟩ := nextReady_relinks hnext
    exact hsuspend
  cases hend with
  | none k1 hk1 =>
    rw [hc] at hk1
    rw [if_neg] at hk1
    · subst hk1
      exact h2
    · rintro ⟨-, hb, hz⟩
      rw [← h2] at hs
      exact hs.elim hb hz
  | other i =>
    have hi : i ≠ c := by
      rintro rfl
      have hready : ((suspend r k).processes i).state = .ready := (nextReadyLoop_runnable hnext).2
      rw [hsuspend] at hready
      rcases hs with hs | hs <;> cases hready.symm.trans hs
    have hother : (k2.modify i fun p => { p with state := .running }).processes c = k2.processes c :=
      modify_ne _ _ (Ne.symm hi)
    exact (congrArg Pcb.state hother).trans h2

theorem finish_state (ht : TableInv od.kernel) (hc : od.kernel.current = .slot c)
    (h : syscallFinish (.slot c) number r od = .ok (f, o')) :
    (o'.kernel.processes c).state = (od.kernel.processes c).state ∧
    (o'.kernel.processes c).allocated = true := by
  obtain ⟨k1, o1, hsignal, ho1, hend⟩ := finish_inv h
  have hmarks := signalStep_marks hsignal
  have hcur : k1.current = .slot c := hmarks.current.trans hc
  obtain ⟨frames, hframes⟩ := startPending_kernel { od with kernel := k1 } (.slot c) r
  rw [← ho1] at hframes
  have h1 : (o1.kernel.processes c).state = (od.kernel.processes c).state := by
    rw [hframes]
    exact hmarks.state (.slot c)
  have ha : (o1.kernel.processes c).allocated = true := by
    rw [hframes]
    exact (hmarks.table ht).current c hcur
  rcases hend with ⟨hstate, hblock, -⟩ | ⟨-, -, rfl⟩
  · refine ⟨(block_stopped hblock ?_ hstate).trans h1, ((block_quiet hblock).pcb c).allocated.trans ha⟩
    rw [hframes]
    exact hcur
  · exact ⟨h1, ha⟩

theorem signal_wakes {s : Word} {rc : Int} (ht : TableInv k) (ha : (k.processes c).allocated = true)
    (hb : (k.processes c).state = .blocked) (hs : ¬(s = 0 ∨ 31 < s)) (h9 : s ≠ 9)
    (h : processSendSignal (k.processes c).pid s k = .ok (rc, k')) : (k'.processes c).state = .ready := by
  have hfind : findPid k (k.processes c).pid (fun p => p.state != .zombie) = some c :=
    (findPid_eq_some ht).mpr ⟨⟨ha, rfl⟩, by simp [hb]⟩
  unfold processSendSignal at h
  rw [if_neg hs, if_neg h9, hfind] at h
  dsimp only at h
  rw [if_pos (by rw [modify_self]; exact hb)] at h
  obtain ⟨⟨rc1, k1⟩, hadd, h⟩ := bind_eq_ok.mp h
  cases h
  obtain ⟨next, head, rfl⟩ := schedulerAdd_relinks hadd
  rw [modify_modify]
  exact congrArg Pcb.state (modify_self _ _ _)

theorem SignalEntry.user (h : SignalEntry o e number p od) (hinv : SysInv o)
    (ha : (o.kernel.processes c).allocated = true) (hu : (o.kernel.processes c).userMode = true) :
    (od.kernel.processes c).userMode = true := by
  cases h with
  | @called dev cpu p v registers o1 hcall =>
    have ht : TableInv (o.enter p registers).kernel :=
      hinv.table.congr (fun _ => ⟨rfl, rfl, rfl, rfl⟩) rfl rfl ⟨rfl, rfl⟩
    rcases (dispatch_inv hcall).steady ht ha with hs | ⟨-, -, -, -, hmode⟩
    · exact hs.user hu
    · exact hmode.trans hu
  | resumed p registers => exact hu

end

/-- A call with a signal to deliver leaves its caller awake exactly if it is not one that sleeps.
The same signal would wake the caller if it came after the call. -/
theorem signal_not_slept_through_iff {o0 o : Os} (h0 : o0.kernel.Booted)
    (hp0 : o0.execPending = none) {before : List SysEvent}
    (hbefore : runs sysStep o0 before = some o) {c : Nat} {e : SysEvent} {number r : Word}
    {od o' : Os} {f : FramePtr} (hc : o.kernel.current = .slot c)
    (hu : (o.kernel.processes c).userMode = true) (hentry : SignalEntry o e number r od)
    (hd : Deliverable od.kernel (.stack r))
    (hfinish : syscallFinish o.kernel.current number (.stack r) od = .ok (f, o')) :
    ((o'.kernel.processes c).state ≠ .blocked ↔ ¬e.sleeps o.kernel) ∧
    (number ≠ sysSigreturn → (od.kernel.processes c).signalActive = false →
      (o'.kernel.processes c).signalActive = true) ∧
    ∀ (s : Word) (rc : Int) (k' : Kernel), 1 ≤ s → s ≤ 31 → s ≠ 9 →
      (o'.kernel.processes c).state = .blocked →
      processSendSignal (o'.kernel.processes c).pid s o'.kernel = .ok (rc, k') →
      (k'.processes c).state = .ready := by
  have hinv := sysRun_inv h0 hp0 hbefore
  have ha := hinv.table.current c hc
  obtain ⟨ht, hcur, hp⟩ := hentry.inv hinv
  have hinv' := finish_sysInv ht hcur hp hfinish
  have hodc : od.kernel.current = .slot c := hcur.trans hc
  rw [hc] at hfinish
  obtain ⟨hstate, ha'⟩ := finish_state ht hodc hfinish
  refine ⟨?_, fun hn hactive => ?_, fun s rc k' h1 h31 h9 hb hsend => ?_⟩
  · rw [hstate]
    exact not_congr (hentry.blocked_iff hc (hinv.live c hc hu).1)
  · obtain ⟨k1, hsignal, hend⟩ := finish_signals hfinish
    rw [(hend c).active]
    unfold signalStep at hsignal
    rw [if_neg hn] at hsignal
    have hpcb : od.kernel.pcb od.kernel.current = od.kernel.processes c := by
      rw [hodc]
      rfl
    have hentered :=
      hd.enters (by rw [hpcb]; exact hentry.user hinv ha hu) (by rw [hpcb]; exact hactive) hsignal
    rw [hodc] at hentered
    exact hentered
  · refine signal_wakes hinv'.table ha' hb ?_ h9 hsend
    rintro (rfl | hlt)
    · exact absurd h1 (by decide)
    · exact absurd h31 (BitVec.not_le.mpr hlt)

def deliverableTest (k : Kernel) (r : FramePtr) (s : Nat) : Bool :=
  match (k.pcb k.current).addressSpace with
  | none => false
  | some space =>
    decide (0x400008 ≤ (k.frames r).useresp) &&
    (vmmValidateUserPtr k.vmm space ((k.frames r).useresp - 8) 8 1).toOption.map Prod.fst == some 0 &&
    decide (1 ≤ s ∧ s < 32 ∧ (k.pcb k.current).unmasked &&& 1 <<< s ≠ 0 ∧
      (k.pcb k.current).signalHandlers s ≠ 0)

theorem deliverable_of_test {k : Kernel} {r : FramePtr} {s : Nat}
    (h : deliverableTest k r s = true) : Deliverable k r := by
  unfold deliverableTest at h
  split at h
  · cases h
  · rename_i space hspace
    simp only [Bool.and_eq_true, decide_eq_true_eq, beq_iff_eq] at h
    obtain ⟨⟨hesp, hvalid⟩, hsignal⟩ := h
    obtain ⟨⟨rc, vmm⟩, hvalid, hrc⟩ := Option.map_eq_some_iff.mp hvalid
    cases hrc
    exact ⟨⟨space, vmm, hspace, hesp, toOption_eq_some hvalid⟩, s, hsignal⟩

def pendingRun : List SysEvent := handlerRun ++ [callOf 14 257 1 0, callOf 14 257 1 0, callOf 18 0 0 0]

theorem signal_not_slept_through_iff_getpid : ∃ o od f o', runs sysStep coldOs pendingRun = some o ∧
    SignalEntry o (callOf 6 0 0 0) 6 0x9000 od ∧ Deliverable od.kernel (.stack 0x9000) ∧
    syscallFinish o.kernel.current 6 (.stack 0x9000) od = .ok (f, o') ∧
    (o'.kernel.processes 0).state ≠ .blocked ∧ (o'.kernel.processes 0).signalActive = true := by
  have hview : ((runs sysStep coldOs pendingRun).bind fun o => (callParts 6 0 0 0 o).map fun x =>
      (o.kernel.current, (o.kernel.processes 0).userMode, deliverableTest x.1.kernel (.stack 0x9000) 1,
        (x.1.kernel.processes 0).signalActive)) = some (.slot 0, true, true, false) := by
    decide +kernel
  obtain ⟨o, ho, hview⟩ := Option.bind_eq_some_iff.mp hview
  obtain ⟨⟨od, f, o'⟩, hparts, hx⟩ := Option.map_eq_some_iff.mp hview
  simp only [Prod.mk.injEq] at hx
  obtain ⟨hc, hu, htest, hactive⟩ := hx
  obtain ⟨hentry, hfinish, -⟩ := callParts_inv hparts
  have hd := deliverable_of_test htest
  obtain ⟨hiff, htaken, -⟩ :=
    signal_not_slept_through_iff coldOs_booted.kernel rfl ho hc hu hentry hd hfinish
  refine ⟨o, od, f, o', ho, hentry, hd, hfinish, hiff.mpr ?_, htaken (by decide) hactive⟩
  rintro (⟨h15, -⟩ | ⟨h9, -⟩)
  · exact absurd h15 (by decide)
  · exact absurd h9 (by decide)

/-- The same signal is there when the process waits on a futex. The handler is entered, and the
process sleeps. -/
theorem signal_slept_through :
    ∃ o od f o', runs sysStep coldOs pendingRun = some o ∧ o.kernel.current = .slot 0 ∧
    (o.kernel.processes 0).userMode = true ∧
    SignalEntry o (callOf 15 0xbfe000 0x2f616468 0) 15 0x9000 od ∧
    Deliverable od.kernel (.stack 0x9000) ∧
    syscallFinish o.kernel.current 15 (.stack 0x9000) od = .ok (f, o') ∧
    (o'.kernel.processes 0).signalActive = true ∧ (o'.kernel.processes 0).state = .blocked := by
  have hview :
      ((runs sysStep coldOs pendingRun).bind fun o => (callParts 15 0xbfe000 0x2f616468 0 o).map fun x =>
      (o.kernel.current, (o.kernel.processes 0).userMode, deliverableTest x.1.kernel (.stack 0x9000) 1,
        (x.2.2.kernel.processes 0).signalActive, (x.2.2.kernel.processes 0).state)) =
      some (.slot 0, true, true, true, .blocked) := by
    decide +kernel
  obtain ⟨o, ho, hview⟩ := Option.bind_eq_some_iff.mp hview
  obtain ⟨⟨od, f, o'⟩, hparts, hx⟩ := Option.map_eq_some_iff.mp hview
  simp only [Prod.mk.injEq] at hx
  obtain ⟨hc, hu, htest, hactive, hstate⟩ := hx
  obtain ⟨hentry, hfinish, -⟩ := callParts_inv hparts
  exact ⟨o, od, f, o', ho, hc, hu, hentry, deliverable_of_test htest, hfinish, hactive, hstate⟩

end Ceblar
