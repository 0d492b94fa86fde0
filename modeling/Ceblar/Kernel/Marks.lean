import Ceblar.Kernel.Table
import Ceblar.Mm.SpaceRefs

/-! # What waking, waiting and ending leave alone

Signals, futexes, timeouts and exits change how a process stands and what it waits for, and nothing
else of it.
-/

namespace Ceblar

section

variable {m m' : Vmm} {a : Word}

theorem inActive_touch {error : Word} {f : Nat} (h : m.touch error a = .ok (f, m')) : InActive m m' := by
  unfold Vmm.touch at h
  split at h
  · cases h
    exact InActive.refl _
  · split at h
    · cases h
    · rename_i m1 hfault
      split at h
      · cases h
        exact inActive_pageFault hfault
      · cases h

theorem inActive_kernelStore {b : Byte} (h : m.kernelStore a b = .ok m') : InActive m m' := by
  obtain ⟨⟨f, m1⟩, htouch, h⟩ := bind_eq_ok.mp h
  cases h
  exact (inActive_touch htouch).trans (inActive_of_eq rfl rfl rfl)

theorem inActive_kernelStore32 {w : Word} (h : m.kernelStore32 a w = .ok m') : InActive m m' :=
  forRangeE_ok (fun _ s => InActive m s) (InActive.refl m)
    (fun _ _ _ _ hs hstep => hs.trans (inActive_kernelStore hstep)) h

theorem inActive_kernelLoad {b : Byte} (h : m.kernelLoad a = .ok (b, m')) : InActive m m' := by
  obtain ⟨⟨f, m1⟩, htouch, h⟩ := bind_eq_ok.mp h
  cases h
  exact inActive_touch htouch

theorem inActive_kernelLoad32 {w : Word} (h : m.kernelLoad32 a = .ok (w, m')) : InActive m m' := by
  obtain ⟨⟨b0, m0⟩, h0, h⟩ := bind_eq_ok.mp h
  obtain ⟨⟨b1, m1⟩, h1, h⟩ := bind_eq_ok.mp h
  obtain ⟨⟨b2, m2⟩, h2, h⟩ := bind_eq_ok.mp h
  obtain ⟨⟨b3, m3⟩, h3, h⟩ := bind_eq_ok.mp h
  cases h
  exact (((inActive_kernelLoad h0).trans (inActive_kernelLoad h1)).trans (inActive_kernelLoad h2)).trans
    (inActive_kernelLoad h3)

end

/-! ## Marks -/

/-- `q` with the marks of `p`: how it stands, where it is on the ready list, and what it waits for
or ended with. -/
def Pcb.marked (p q : Pcb) : Pcb :=
  { q with
    state := p.state
    ticks := p.ticks
    next := p.next
    parentPid := p.parentPid
    exitCode := p.exitCode
    waitForPid := p.waitForPid
    waitStatusPtr := p.waitStatusPtr
    waitStatus := p.waitStatus
    pendingSignals := p.pendingSignals
    futexKey := p.futexKey
    futexExpected := p.futexExpected
    futexDeadline := p.futexDeadline }

structure Marks (k k' : Kernel) : Prop where
  slot : ∀ i, (k.processes i).marked (k'.processes i) = k.processes i
  idle : k.idle.marked k'.idle = k.idle
  current : k'.current = k.current
  vmm : InActive k.vmm k'.vmm

section

variable {k k1 k' : Kernel} {i : Nat} {m : Vmm} {rc : Int} {pid : Word}

theorem Marks.kept {α : Type} {view : Pcb → α} (h : Marks k k')
    (hview : ∀ p q : Pcb, view (p.marked q) = view q) (i : Nat) :
    view (k'.processes i) = view (k.processes i) :=
  (hview (k.processes i) _).symm.trans (congrArg view (h.slot i))

theorem Marks.kept_idle {α : Type} {view : Pcb → α} (h : Marks k k')
    (hview : ∀ p q : Pcb, view (p.marked q) = view q) : view k'.idle = view k.idle :=
  (hview k.idle _).symm.trans (congrArg view h.idle)

theorem Marks.refl (k : Kernel) : Marks k k := ⟨fun _ => rfl, rfl, rfl, InActive.refl _⟩

theorem marked_trans {p q r : Pcb} (h1 : p.marked q = p) (h2 : q.marked r = q) : p.marked r = p := by
  rw [← h2] at h1
  exact h1

theorem Marks.trans (h1 : Marks k k1) (h2 : Marks k1 k') : Marks k k' where
  slot i := marked_trans (h1.slot i) (h2.slot i)
  idle := marked_trans h1.idle h2.idle
  current := h2.current.trans h1.current
  vmm := h1.vmm.trans h2.vmm

theorem marks_modify (k : Kernel) (i : Nat) {f : Pcb → Pcb} (hf : ∀ p : Pcb, p.marked (f p) = p) :
    Marks k (k.modify i f) := by
  refine ⟨fun j => ?_, rfl, rfl, InActive.refl _⟩
  by_cases hj : j = i
  · subst hj
    rw [modify_self]
    exact hf _
  · rw [modify_ne _ _ hj]
    rfl

theorem marks_modifyRef (k : Kernel) (ref : PcbRef) {f : Pcb → Pcb} (hf : ∀ p : Pcb, p.marked (f p) = p) :
    Marks k (k.modifyRef f ref) := by
  cases ref with
  | idle => exact ⟨fun _ => rfl, hf k.idle, rfl, InActive.refl _⟩
  | slot i => exact marks_modify k i hf

theorem Relinks.marks (h : Relinks k k') : Marks k k' := by
  obtain ⟨n, head, rfl⟩ := h
  exact ⟨fun _ => rfl, rfl, rfl, InActive.refl _⟩

theorem marks_setEax (k : Kernel) (p : Option FramePtr) (v : Word) : Marks k (k.setEax p v) := by
  unfold Kernel.setEax
  split
  · exact Marks.refl k
  · exact ⟨fun _ => rfl, rfl, rfl, InActive.refl _⟩

theorem marks_vmm (hm : InActive k.vmm m) : Marks k { k with vmm := m } := ⟨fun _ => rfl, rfl, rfl, hm⟩

/-! ## Each operation -/

theorem poll_marks (h : processPollTimeouts k = .ok k') : Marks k k' := by
  refine forRangeE_ok (fun _ s => Marks k s) (Marks.refl k) (fun i _ s s' hs hstep => hs.trans ?_) h
  dsimp only [pollSlot] at hstep
  split at hstep
  · split at hstep
    · cases hstep
      rw [modify_modify]
      exact marks_modify s i fun _ => rfl
    · obtain ⟨⟨rc, k2⟩, hadd, hk⟩ := bind_eq_ok.mp hstep
      cases hk
      rw [modify_modify] at hadd
      refine Marks.trans ?_ (schedulerAdd_relinks hadd).marks
      refine Marks.trans (marks_modify s i ?_) (marks_setEax _ _ _)
      exact fun _ => rfl
  · cases hstep
    exact Marks.refl _

theorem futexWake_marks {key count : Word} (h : processFutexWake key count k = .ok (rc, k')) :
    Marks k k' := by
  unfold processFutexWake at h
  split at h
  · cases h
    exact Marks.refl k
  · obtain ⟨⟨w, k1⟩, hloop, hk⟩ := bind_eq_ok.mp h
    cases hk
    refine forRangeE_ok (fun _ s => Marks k s.2) (Marks.refl k)
      (fun i _ s s' hs hstep => hs.trans ?_) hloop
    dsimp only [wakeFutex] at hstep
    split at hstep
    · obtain ⟨⟨rc, k2⟩, hadd, hk⟩ := bind_eq_ok.mp hstep
      cases hk
      refine Marks.trans ?_ (schedulerAdd_relinks hadd).marks
      refine Marks.trans (marks_modify s.2 i ?_) (marks_setEax _ _ _)
      exact fun _ => rfl
    · cases hstep
      exact Marks.refl _

theorem wakeWaiter_marks {j : Nat} (h : wakeWaiter i pid j k = .ok k') : Marks k k' := by
  dsimp only [wakeWaiter] at h
  split at h
  · generalize hk2 : k.modify j _ = k2 at h
    have hwoken : Marks k k2 := by
      rw [← hk2]
      exact marks_modify k j fun _ => rfl
    obtain ⟨vmm, hvmm, h⟩ : ∃ vmm, InActive k2.vmm vmm ∧ schedulerAdd j (({ k2 with vmm } : Kernel).setEax
        (k2.processes j).interruptFrame pid) >>= (fun x => pure x.2) = .ok k' := by
      split at h
      · exact ⟨_, InActive.refl _, h⟩
      · obtain ⟨vmm, hstore, h⟩ := bind_eq_ok.mp h
        exact ⟨vmm, inActive_kernelStore32 hstore, h⟩
    obtain ⟨⟨rc, k3⟩, hadd, hk⟩ := bind_eq_ok.mp h
    cases hk
    have hadded := (schedulerAdd_relinks hadd).marks
    exact (hwoken.trans (marks_vmm hvmm)).trans ((marks_setEax _ _ _).trans hadded)
  · cases h
    exact Marks.refl _

theorem exit_marks {status : Word} (h : processExitWithStatus pid status k = .ok (rc, k')) :
    Marks k k' := by
  unfold processExitWithStatus at h
  split at h
  · cases h
    exact Marks.refl k
  · rename_i i _
    obtain ⟨k1, hloop, hk⟩ := bind_eq_ok.mp h
    cases hk
    have hzombie : Marks k (k.modify i fun p => { p with state := .zombie, exitCode := status }) :=
      marks_modify k i fun _ => rfl
    refine hzombie.trans (Marks.trans ?_ (forRangeE_ok (fun _ s => Marks _ s) (Marks.refl _)
      (fun j _ s s' hs hstep => hs.trans (wakeWaiter_marks hstep)) hloop))
    refine forRange_inv (fun _ s => Marks _ s) _ (Marks.refl _) fun j _ s hs => hs.trans ?_
    dsimp only
    split
    · exact marks_modify s j fun _ => rfl
    · exact Marks.refl s

theorem signal_marks {signal : Word} (h : processSendSignal pid signal k = .ok (rc, k')) :
    Marks k k' := by
  unfold processSendSignal at h
  split at h
  · cases h
    exact Marks.refl k
  · split at h
    · exact exit_marks h
    · split at h
      · cases h
        exact Marks.refl k
      · rename_i i _
        dsimp only at h
        generalize hk1 : k.modify i _ = k1 at h
        have hpending : Marks k k1 := by
          rw [← hk1]
          exact marks_modify k i fun _ => rfl
        refine hpending.trans ?_
        split at h
        · obtain ⟨⟨rc, k2⟩, hadd, hk⟩ := bind_eq_ok.mp h
          cases hk
          refine Marks.trans (marks_modify k1 i ?_) (schedulerAdd_relinks hadd).marks
          exact fun _ => rfl
        · cases h
          exact Marks.refl _

theorem futexWait_marks {key expected timeout : Word}
    (h : processFutexWait key expected timeout k = .ok (rc, k')) : Marks k k' := by
  unfold processFutexWait at h
  split at h
  · cases h
    exact Marks.refl k
  · split at h
    · cases h
      exact Marks.refl k
    · obtain ⟨⟨rc1, m1⟩, hvalid, h⟩ := bind_eq_ok.mp h
      have h1 := inActive_validate hvalid
      dsimp only at h
      split at h
      · cases h
        exact marks_vmm h1
      · obtain ⟨⟨w2, m2⟩, hload, h⟩ := bind_eq_ok.mp h
        have h2 := h1.trans (inActive_kernelLoad32 hload)
        dsimp only at h
        split at h
        · cases h
          exact marks_vmm h2
        · obtain ⟨⟨w3, m3⟩, hagain, h⟩ := bind_eq_ok.mp h
          have h3 := h2.trans (inActive_kernelLoad32 hagain)
          dsimp only at h
          split at h
          · cases h
            exact marks_vmm h3
          · cases h
            refine (marks_vmm h3).trans (marks_modifyRef _ _ ?_)
            exact fun _ => rfl

theorem requeue_marks {ref : PcbRef} (h : requeue ref k = .ok k') : Marks k k' := by
  unfold requeue at h
  split at h
  · cases h
    exact Marks.refl k
  · split at h
    · refine Marks.trans (marks_modify k _ ?_) (enqueue_relinks h).marks
      exact fun _ => rfl
    · cases h
      exact Marks.refl k

theorem cutVma_refs (s : AddressSpace) (slot : Nat) (virt stop : Word) :
    (cutVma s slot virt stop).refs = s.refs := by
  unfold cutVma AddressSpace.setVma
  dsimp only
  split
  · rfl
  split
  · rfl
  split
  · rfl
  split <;> rfl

theorem OnlySpace.inActive {m' : Vmm} {s : Nat} (h : OnlySpace s m m') (hs : m.currentSpace = some s)
    (hrefs : (m'.spaces s).refs = (m.spaces s).refs) : InActive m m' := by
  refine ⟨⟨fun i => ?_, h.spaceUsed⟩, h.currentSpace, fun i hi => h.spaces i fun he => hi (he ▸ hs)⟩
  by_cases hi : i = s
  · rw [hi, hrefs]
  · rw [h.spaces i hi]

theorem inActive_memCall {m' : Vmm} {call : MemCall} (h : memCall m call = some m') : InActive m m' := by
  cases call with
  | mmap a b c =>
    obtain ⟨s, hs, rfl⟩ := Option.map_eq_some_iff.mp h
    cases hm : Syscall.mm m s a b c with
    | none => exact InActive.refl m
    | some r =>
      obtain ⟨slot, hl⟩ := Syscall.mm_spec hm
      refine hl.onlySpace.inActive hs ?_
      rw [hl.state]
      simp [Vmm.setSpace, AddressSpace.setVma]
  | munmap a b =>
    obtain ⟨s, hs, rfl⟩ := Option.map_eq_some_iff.mp h
    cases hm : Syscall.mu m s a b with
    | none => exact InActive.refl m
    | some m1 =>
      obtain ⟨-, slot, hu⟩ := Syscall.mu_spec hm
      refine hu.onlySpace.inActive hs ?_
      rw [hu.state]
      simp [Vmm.setSpace, cutVma_refs, (unmapPages_only s a (pagesOf b).toNat m).refs]
  | fault error address cr2 => exact inActive_pageFault (toOption_eq_some h)

def KernelOp.marks : KernelOp → Bool
  | .add _ | .exitWithStatus _ _ | .sendSignal _ _ | .futexWait _ _ _ | .futexWake _ _ | .pollTimeouts
  | .timerIrq | .memory _ => true
  | _ => false

theorem kernelStep_marks {s s' : System} {op : KernelOp} (hop : op.marks = true)
    (h : kernelStep s op = some s') :
    Marks s.kernel s'.kernel := by
  cases op with
  | add i =>
    obtain ⟨-, rc, hadd, -⟩ := add_inv h
    exact (schedulerAdd_relinks hadd).marks
  | exitWithStatus pid status =>
    obtain ⟨⟨rc, hexit⟩, -⟩ := after_map_inv h
    exact exit_marks hexit
  | sendSignal pid signal =>
    obtain ⟨⟨rc, hsignal⟩, -⟩ := after_map_inv h
    exact signal_marks hsignal
  | futexWait key expected timeout =>
    obtain ⟨⟨rc, hwait⟩, -⟩ := after_map_inv h
    exact futexWait_marks hwait
  | futexWake key count =>
    obtain ⟨⟨rc, hwake⟩, -⟩ := after_map_inv h
    exact futexWake_marks hwake
  | pollTimeouts => exact poll_marks (after_inv h).1
  | timerIrq =>
    obtain ⟨hk, -⟩ : (.ok (timerIrq s.kernel) : Except Halt Kernel) = .ok s'.kernel ∧ _ := after_inv h
    rw [← Except.ok.inj hk]
    exact ⟨fun _ => rfl, rfl, rfl, InActive.refl _⟩
  | memory call =>
    obtain ⟨vmm, hm, rfl⟩ := memory_inv h
    exact ⟨fun _ => rfl, rfl, rfl, inActive_memCall hm⟩
  | _ => cases hop

end

end Ceblar
