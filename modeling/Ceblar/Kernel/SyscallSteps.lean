import Ceblar.Kernel.ExecTable
import Ceblar.Kernel.Syscall

/-! # What a system call does

One inversion for each part of `syscall_from_interrupt`: the call itself, the signal step and the
end.
-/

namespace Ceblar

/-! ## The signal step -/

def Kernel.withPending (k : Kernel) (pending : Word) : Kernel :=
  k.modifyRef (fun p => { p with pendingSignals := pending }) k.current

def Kernel.enterHandler (k : Kernel) (r : FramePtr) (signal : Nat) (pending : Word) : Kernel :=
  (k.setFrame r
    { k.frames r with
      useresp := (k.frames r).useresp - 8
      eip := (k.pcb k.current).signalHandlers signal
      eax := BitVec.ofNat 32 signal }).modifyRef
    (fun p =>
      { p with pendingSignals := pending, signalSavedFrame := k.frames r, signalActive := true })
        k.current

def StackTakes (k : Kernel) (r : FramePtr) : Prop :=
  ∃ space vmm, (k.pcb k.current).addressSpace = some space ∧ 0x400008 ≤ (k.frames r).useresp ∧
    vmmValidateUserPtr k.vmm space ((k.frames r).useresp - 8) 8 1 = .ok (0, vmm)

section

variable {k k' : Kernel} {r : FramePtr} {pending : Word} {signal : Nat}

theorem modifyRef_congr (k : Kernel) (ref : PcbRef) {f g : Pcb → Pcb}
    (h : f (k.pcb ref) = g (k.pcb ref)) :
    k.modifyRef f ref = k.modifyRef g ref := by
  cases ref with
  | idle => exact congrArg (fun p => { k with idle := p }) h
  | slot i => exact congrArg (fun p => { k with processes := Function.update k.processes i p }) h

theorem modifyRef_id (k : Kernel) (ref : PcbRef) : k.modifyRef id ref = k := by
  cases ref with
  | idle => rfl
  | slot i => simp [Kernel.modifyRef, Kernel.modify]

theorem modifyRef_frames (k : Kernel) (f : Pcb → Pcb) (ref : PcbRef) :
    (k.modifyRef f ref).frames = k.frames := by
  cases ref with
  | idle => rfl
  | slot i => rfl

theorem setFrame_modifyRef (k : Kernel) (f : Pcb → Pcb) (ref : PcbRef) (p : FramePtr) (regs : Registers) :
    (k.modifyRef f ref).setFrame p regs = (k.setFrame p regs).modifyRef f ref := by
  cases ref with
  | idle => rfl
  | slot i => rfl

theorem withPending_self (k : Kernel) : k.withPending (k.pcb k.current).pendingSignals = k := by
  refine (modifyRef_congr k k.current ?_).trans (modifyRef_id k k.current)
  rfl

theorem withPending_pcb (k : Kernel) (x : Word) :
    (k.withPending x).pcb (k.withPending x).current = { k.pcb k.current with pendingSignals := x } := by
  unfold Kernel.withPending
  rw [modifyRef_current, modifyRef_pcb]

theorem withPending_frames (k : Kernel) (x : Word) :
    (k.withPending x).frames = k.frames := modifyRef_frames _ _ _

theorem withPending_memory (k : Kernel) (x : Word) : (k.withPending x).vmm = k.vmm := by
  unfold Kernel.withPending
  cases k.current with
  | idle => rfl
  | slot i => rfl

theorem StackTakes.withPending (h : StackTakes k r) (x : Word) : StackTakes (k.withPending x) r := by
  obtain ⟨space, vmm, hspace, hesp, hvalid⟩ := h
  refine ⟨space, vmm, ?_, ?_, ?_⟩
  · rw [withPending_pcb]
    exact hspace
  · rw [withPending_frames]
    exact hesp
  · rw [withPending_frames, withPending_memory]
    exact hvalid

theorem withPending_vmm (k : Kernel) (x : Word) (m : Vmm) :
    { k.withPending x with vmm := m } =
      ({ k with vmm := m } : Kernel).withPending x := modifyRef_vmm k _ _ m

theorem withPending_withPending (k : Kernel) (x y : Word) :
    (k.withPending x).withPending y = k.withPending y := by
  unfold Kernel.withPending
  rw [modifyRef_current, modifyRef_modifyRef]

theorem withPending_enterHandler (k : Kernel) (x y : Word) :
    (k.withPending x).enterHandler r signal y = k.enterHandler r signal y := by
  unfold Kernel.enterHandler
  rw [withPending_pcb]
  unfold Kernel.withPending
  rw [modifyRef_frames, setFrame_modifyRef, modifyRef_current]
  exact modifyRef_modifyRef _ _ _ _

theorem deliverOne_inv {entered : Bool} (h : deliverOne r pending signal k = .ok (entered, k')) :
    (entered = false ∧
      (((pending &&& 1 <<< signal = 0 ∨ (k.pcb k.current).signalHandlers signal = 0) ∧
        ∃ x, k' = k.withPending x) ∨
        ¬StackTakes k r ∧ ∃ vmm x, k' = ({ k with vmm } : Kernel).withPending x)) ∨
    entered = true ∧ pending &&& 1 <<< signal ≠ 0 ∧ (k.pcb k.current).signalHandlers signal ≠ 0 ∧
      ∃ vmm x, k' = ({ k with vmm } : Kernel).enterHandler r signal x := by
  unfold deliverOne at h
  split at h
  · rename_i hbit
    cases h
    exact .inl ⟨rfl, .inl ⟨.inl hbit, _, (withPending_self _).symm⟩⟩
  · rename_i hbit
    generalize hx : (k.pcb k.current).pendingSignals &&& ~~~((1 : Word) <<< signal) = x
    have hk :
        k.modifyRef
          (fun p => { p with pendingSignals := p.pendingSignals &&& ~~~((1 : Word) <<< signal) })
            k.current =
        k.withPending x := by
      subst hx
      exact modifyRef_congr k k.current rfl
    dsimp only at h
    rw [hk, withPending_pcb] at h
    dsimp only at h
    split at h
    · rename_i hspace
      cases h
      refine .inl ⟨rfl, .inr ⟨?_, k.vmm, x, rfl⟩⟩
      rintro ⟨space, vmm, he, -⟩
      exact absurd (he.symm.trans hspace) (by simp)
    · rename_i space hspace
      split at h
      · rename_i hrefused
        cases h
        refine .inl ⟨rfl, ?_⟩
        rcases hrefused with hzero | hlow
        · exact .inl ⟨.inr hzero, x, rfl⟩
        · refine .inr ⟨?_, k.vmm, x, rfl⟩
          rintro ⟨space', vmm, -, hesp, -⟩
          rw [withPending_frames] at hlow
          exact absurd hlow (BitVec.not_lt.mpr hesp)
      · rename_i hhandler
        obtain ⟨⟨rc, m1⟩, hvalid, h⟩ := bind_eq_ok.mp h
        dsimp only at h
        split at h
        · rename_i hrc
          cases h
          refine .inl ⟨rfl, .inr ⟨?_, m1, x, withPending_vmm _ _ _⟩⟩
          rintro ⟨space', vmm, he, -, hok⟩
          rw [hspace] at he
          cases he
          rw [withPending_frames, withPending_memory, hok] at hvalid
          cases hvalid
          exact hrc rfl
        · obtain ⟨m2, hlow, h⟩ := bind_eq_ok.mp h
          obtain ⟨m3, hhigh, h⟩ := bind_eq_ok.mp h
          cases h
          refine .inr ⟨rfl, hbit, fun hz => hhandler (.inl hz), m3, x, ?_⟩
          rw [withPending_vmm]
          unfold Kernel.enterHandler Kernel.withPending
          rw [modifyRef_frames, setFrame_modifyRef, modifyRef_current]
          exact modifyRef_modifyRef _ _ _ _

theorem deliverLoop_inv {n : Nat} (h : deliverLoop r pending n signal k = .ok k') :
    (∃ vmm x, k' = ({ k with vmm } : Kernel).withPending x) ∨
    ∃ s vmm x, signal ≤ s ∧ s < signal + n ∧ pending &&& 1 <<< s ≠ 0 ∧
    (k.pcb k.current).signalHandlers s ≠ 0 ∧
      k' = ({ k with vmm } : Kernel).enterHandler r s x := by
  induction n generalizing signal k with
  | zero =>
    cases h
    exact .inl ⟨_, _, (withPending_self _).symm⟩
  | succ n ih =>
    obtain ⟨⟨entered, k1⟩, hone, h⟩ := bind_eq_ok.mp h
    rcases deliverOne_inv hone with ⟨rfl, hskip⟩ | ⟨rfl, hbit, hhandler, vmm, x, rfl⟩
    · obtain ⟨vmm, x, rfl⟩ : ∃ vmm x, k1 = ({ k with vmm } : Kernel).withPending x := by
        rcases hskip with ⟨-, x, rfl⟩ | ⟨-, vmm, x, rfl⟩
        · exact ⟨k.vmm, x, rfl⟩
        · exact ⟨vmm, x, rfl⟩
      rcases ih h with ⟨vmm', y, rfl⟩ | ⟨s, vmm', y, hle, hlt, hbit, hhandler, rfl⟩
      · refine .inl ⟨vmm', y, ?_⟩
        rw [withPending_vmm, withPending_withPending]
      · rw [withPending_pcb] at hhandler
        refine .inr ⟨s, vmm', y, by omega, by omega, hbit, hhandler, ?_⟩
        rw [withPending_vmm, withPending_enterHandler]
    · cases h
      exact .inr ⟨signal, vmm, x, by omega, by omega, hbit, hhandler, rfl⟩

theorem deliver_inv (h : processDeliverSignal r k = .ok k') :
    (∃ vmm x, k' = ({ k with vmm } : Kernel).withPending x) ∨
    (k.pcb k.current).userMode = true ∧ (k.pcb k.current).signalActive = false ∧
      ∃ s vmm x, 1 ≤ s ∧ s < 32 ∧ (k.pcb k.current).unmasked &&& 1 <<< s ≠ 0 ∧
        (k.pcb k.current).signalHandlers s ≠ 0 ∧ k' = ({ k with vmm } : Kernel).enterHandler r s x := by
  unfold processDeliverSignal at h
  dsimp only at h
  split at h
  · cases h
    exact .inl ⟨_, _, (withPending_self _).symm⟩
  · rename_i hgo
    simp only [Bool.or_eq_true, Bool.not_eq_true', not_or, Bool.not_eq_false, Bool.not_eq_true] at hgo
    exact (deliverLoop_inv h).imp_right fun hloop => ⟨hgo.1, hgo.2, hloop⟩

theorem deliver_active (h : processDeliverSignal r k = .ok k')
    (ha : (k.pcb k.current).signalActive = true) : k' = k := by
  unfold processDeliverSignal at h
  simp only [ha, Bool.or_true, if_true] at h
  exact (Except.ok.inj h).symm

def SignalMarks (k k' : Kernel) : Prop :=
  ∃ vmm frames f, k' = ({ k with vmm, frames } : Kernel).modifyRef f k.current ∧
    ∀ p : Pcb, ∃ pending saved active,
      f p = { p with pendingSignals := pending, signalSavedFrame := saved, signalActive := active }

theorem signalStep_marks {number : Word} (h : signalStep number r k = .ok k') : SignalMarks k k' := by
  unfold signalStep at h
  split at h
  · cases h
    unfold processSignalReturn
    dsimp only
    split
    · exact ⟨k.vmm, k.frames, id, (modifyRef_id k k.current).symm, fun p => ⟨_, _, _, rfl⟩⟩
    · exact ⟨k.vmm, _, _, rfl, fun p => ⟨_, _, false, rfl⟩⟩
  · rcases deliver_inv h with ⟨vmm, x, rfl⟩ | ⟨-, -, s, vmm, x, -, -, -, -, rfl⟩
    · exact ⟨vmm, k.frames, _, rfl, fun p => ⟨x, _, _, rfl⟩⟩
    · exact ⟨vmm, _, _, rfl, fun p => ⟨x, _, true, rfl⟩⟩

end

section

variable {o o' : Os} {q : PcbRef} {number : Word} {r f : FramePtr}

theorem startPending_kernel (o : Os) (q : PcbRef) (r : FramePtr) :
    ∃ frames, (o.startPending q r).kernel = { o.kernel with frames } := by
  unfold Os.startPending
  split
  · exact ⟨_, rfl⟩
  · split
    · exact ⟨_, rfl⟩
    · exact ⟨_, rfl⟩

theorem finish_inv (h : syscallFinish q number r o = .ok (f, o')) :
    ∃ k1 o1, signalStep number r o.kernel = .ok k1 ∧ o1 = { o with kernel := k1 }.startPending q r ∧
      (((o1.kernel.pcb q).state = .blocked ∨ (o1.kernel.pcb q).state = .zombie) ∧
        schedulerBlockCurrent r o1.kernel = .ok (f, o'.kernel) ∧ o'.execPending = o1.execPending ∨
      ((o1.kernel.pcb q).state ≠ .blocked ∧ (o1.kernel.pcb q).state ≠ .zombie) ∧ f = r ∧ o' = o1) := by
  obtain ⟨k1, hsignal, h⟩ := bind_eq_ok.mp h
  refine ⟨k1, _, hsignal, rfl, ?_⟩
  dsimp only at h
  split at h
  · rename_i hstate
    obtain ⟨⟨f', k2⟩, hblock, h⟩ := bind_eq_ok.mp h
    cases h
    exact .inl ⟨hstate, hblock, rfl⟩
  · rename_i hstate
    cases h
    exact .inr ⟨not_or.mp hstate, rfl, rfl⟩

end

/-! ## The call -/

inductive Dispatched (cpu : CalleeSaved) (o : Os) (n a b c : Word) : Option Word → Os → Prop
  | memory {v : Word} {o' : Os} (vmm : Vmm) (hk : o'.kernel = { o.kernel with vmm })
      (hp : o'.execPending = o.execPending) : Dispatched cpu o n a b c (some v) o'
  | fork {v : Word} {res : Option Nat × Kernel} (h : processFork o.kernel = .ok res) :
    Dispatched cpu o n a b c (some v) { o with kernel := res.2 }
  | exit {v : Word} {rc : Int} {k' : Kernel}
      (h : processExitWithStatus (o.kernel.pcb o.kernel.current).pid a o.kernel = .ok (rc, k')) :
    Dispatched cpu o n a b c (some v) { o with kernel := k' }
  | wait {rc : Word} {k' : Kernel} (vmm : Vmm) (hn : n.toNat = 9)
      (hbuf : b = 0 ∧ vmm = o.kernel.vmm ∨ b ≠ 0 ∧ userBuf b 4 1 o.kernel = .ok (true, vmm))
      (h : processWait a b { o.kernel with vmm } = .ok (rc, k')) :
    Dispatched cpu o n a b c (some rc) { o with kernel := k' }
  | kill {v : Word} {rc : Int} {k' : Kernel} (h : processSendSignal a b o.kernel = .ok (rc, k')) :
    Dispatched cpu o n a b c (some v) { o with kernel := k' }
  | futexWait {v : Word} {rc : Int} {k' : Kernel} (vmm : Vmm) (hn : n.toNat = 15)
    (ha : ¬(a < 0x400000 ∨ 0xc0000000 ≤ a))
      (hbuf : userBuf a 4 1 o.kernel = .ok (true, vmm))
      (h : processFutexWait a b c { o.kernel with vmm } = .ok (rc, k')) :
    Dispatched cpu o n a b c (some v) { o with kernel := k' }
  | futexWake {v : Word} {rc : Int} {k' : Kernel} (vmm : Vmm)
      (h : processFutexWake a b { o.kernel with vmm } = .ok (rc, k')) :
    Dispatched cpu o n a b c (some v) { o with kernel := k' }
  | action {v : Word} {i : Nat} (vmm : Vmm) (handlers : Nat → Word) (mask : Word) (hn : n.toNat = 17)
      (hi : findPid o.kernel (o.kernel.pcb o.kernel.current).pid (fun _ => true) = some i)
      (h9 : handlers 9 = (o.kernel.processes i).signalHandlers 9) :
    Dispatched cpu o n a b c (some v)
      { o with kernel := ({ o.kernel with vmm } : Kernel).modify i fun p =>
        { p with signalHandlers := handlers, signalMask := mask } }
  | yield {loaded : Option CalleeSaved} {k' : Kernel} (hn : n.toNat = 7)
      (h : schedulerYield cpu o.kernel = .ok (loaded, k')) :
    Dispatched cpu o n a b c (if loaded.isSome then none else some 0) { o with kernel := k' }
  | exec {disk : Disk} {o' : Os} (hn : n.toNat = 10) (h : ee disk a o = .ok (0, o')) :
    Dispatched cpu o n a b c (some 0) o'

section

variable {cpu : CalleeSaved} {dev : Devices} {o o' : Os} {n a b c v : Word}
variable {m p pid write : Word} {k k' : Kernel}
variable {f : Os → Except Halt (Word × Os)}

theorem withBuf_inv (h : Sys.withBuf p m write o f = .ok (v, o')) :
    ∃ vmm, o' = o.setVmm vmm ∨ userBuf p m write o.kernel = .ok (true, vmm) ∧
    f (o.setVmm vmm) = .ok (v, o') := by
  obtain ⟨⟨ok, vmm⟩, hbuf, h⟩ := bind_eq_ok.mp h
  refine ⟨vmm, ?_⟩
  cases ok with
  | false =>
    cases h
    exact .inl rfl
  | true => exact .inr ⟨hbuf, h⟩

def Outside (o o' : Os) : Prop :=
  (∃ vmm, o'.kernel = { o.kernel with vmm }) ∧ o'.execPending = o.execPending

theorem Outside.dispatched (h : Outside o o') : Dispatched cpu o n a b c (some v) o' := by
  obtain ⟨⟨vmm, hk⟩, hp⟩ := h
  exact .memory vmm hk hp

theorem outside_withBuf (h : Sys.withBuf p m write o f = .ok (v, o'))
    (hf : ∀ o1, f o1 = .ok (v, o') → Outside o1 o') : Outside o o' := by
  obtain ⟨vmm, rfl | ⟨-, hcall⟩⟩ := withBuf_inv h
  · exact ⟨⟨vmm, rfl⟩, rfl⟩
  · obtain ⟨⟨vmm', hk⟩, hp⟩ := hf _ hcall
    exact ⟨⟨vmm', hk⟩, hp⟩

theorem outside_rd (h : Sys.rd dev a b c o = .ok (v, o')) : Outside o o' := by
  refine outside_withBuf h fun o1 h1 => ?_
  obtain ⟨vmm, -, h1⟩ := bind_eq_ok.mp h1
  cases h1
  exact ⟨⟨vmm, rfl⟩, rfl⟩

theorem outside_op (h : Sys.op dev a b o = .ok (v, o')) : Outside o o' := by
  obtain ⟨⟨path, vmm⟩, -, h⟩ := bind_eq_ok.mp h
  cases path with
  | none =>
    cases h
    exact ⟨⟨vmm, rfl⟩, rfl⟩
  | some path =>
    cases h
    exact ⟨⟨vmm, rfl⟩, rfl⟩

theorem outside_mm (h : Sys.mm a b c o = .ok (v, o')) : Outside o o' := by
  unfold Sys.mm at h
  split at h <;> cases h
  · exact ⟨⟨_, rfl⟩, rfl⟩
  · exact ⟨⟨_, rfl⟩, rfl⟩

theorem outside_mu (h : Sys.mu a b o = .ok (v, o')) : Outside o o' := by
  unfold Sys.mu at h
  split at h <;> cases h
  · exact ⟨⟨_, rfl⟩, rfl⟩
  · exact ⟨⟨_, rfl⟩, rfl⟩

theorem outside_un (h : Sys.un a o = .ok (v, o')) : Outside o o' := by
  refine outside_withBuf h fun o1 h1 => ?_
  obtain ⟨vmm, -, h1⟩ := bind_eq_ok.mp h1
  cases h1
  exact ⟨⟨vmm, rfl⟩, rfl⟩

theorem outside_getcred (h : Sys.getcredSys a o = .ok (v, o')) : Outside o o' := by
  refine outside_withBuf h fun o1 h1 => ?_
  split at h1
  · cases h1
    exact ⟨⟨_, rfl⟩, rfl⟩
  · obtain ⟨vmm, -, h1⟩ := bind_eq_ok.mp h1
    cases h1
    exact ⟨⟨vmm, rfl⟩, rfl⟩

theorem outside_send (h : Sys.sendSys dev a b c o = .ok (v, o')) : Outside o o' := by
  unfold Sys.sendSys at h
  split at h
  · cases h
    exact ⟨⟨_, rfl⟩, rfl⟩
  · refine outside_withBuf h fun o1 h1 => ?_
    cases h1
    exact ⟨⟨_, rfl⟩, rfl⟩

theorem wt_inv (hn : n.toNat = 9) (h : Sys.wt a b o = .ok (v, o')) :
    Dispatched cpu o n a b c (some v) o' := by
  unfold Sys.wt at h
  dsimp only at h
  split at h
  · rename_i hb
    obtain ⟨⟨rc, k⟩, hwait, h⟩ := bind_eq_ok.mp h
    cases h
    exact .wait o.kernel.vmm hn (.inl ⟨hb, rfl⟩) hwait
  · rename_i hb
    obtain ⟨vmm, rfl | ⟨hbuf, hcall⟩⟩ := withBuf_inv h
    · exact .memory vmm rfl rfl
    · obtain ⟨⟨rc, k⟩, hwait, hcall⟩ := bind_eq_ok.mp hcall
      cases hcall
      exact .wait vmm hn (.inr ⟨hb, hbuf⟩) hwait

theorem withFutex_inv (h : Sys.withFutex a o f = .ok (v, o')) :
    ∃ vmm, o' = o.setVmm vmm ∨
      ¬(a < 0x400000 ∨ 0xc0000000 ≤ a) ∧ userBuf a 4 1 o.kernel = .ok (true, vmm) ∧
      f (o.setVmm vmm) = .ok (v, o') := by
  unfold Sys.withFutex at h
  split at h
  · cases h
    exact ⟨_, .inl rfl⟩
  · rename_i ha
    obtain ⟨vmm, he | hcall⟩ := withBuf_inv h
    · exact ⟨vmm, .inl he⟩
    · exact ⟨vmm, .inr ⟨ha, hcall⟩⟩

theorem findPid_congr
    (h : ∀ i, (k'.processes i).allocated = (k.processes i).allocated ∧
      (k'.processes i).pid = (k.processes i).pid)
    (hn : k'.processCount = k.processCount) :
    findPid k' pid (fun _ => true) = findPid k pid fun _ => true := by
  unfold findPid
  rw [hn]
  congr 1
  funext i
  rw [(h i).1, (h i).2]

theorem action_inv {signal handler : Word} {rc : Int}
    (h : processSignalAction pid signal handler k = .ok (rc, k')) :
    (rc ≠ 0 ∧ ∃ vmm, k' = { k with vmm }) ∨ ∃ i vmm handlers, findPid k pid (fun _ => true) = some i ∧
      handlers 9 = (k.processes i).signalHandlers 9 ∧
      k' = ({ k with vmm } : Kernel).modify i fun p => { p with signalHandlers := handlers } := by
  unfold processSignalAction at h
  split at h
  · cases h
    exact .inl ⟨by decide, _, rfl⟩
  · rename_i hsignal
    have h9 : (9 : Nat) ≠ signal.toNat := fun he => hsignal (.inr (.inr (BitVec.eq_of_toNat_eq he.symm)))
    split at h
    · cases h
      exact .inl ⟨by decide, _, rfl⟩
    · rename_i i hi
      dsimp only at h
      split at h
      · cases h
        exact .inr ⟨i, k.vmm, _, hi, Function.update_of_ne h9 _ _, rfl⟩
      · split at h
        · cases h
          exact .inl ⟨by decide, _, rfl⟩
        · split at h
          · cases h
            exact .inl ⟨by decide, _, rfl⟩
          · obtain ⟨⟨rc1, vmm⟩, -, h⟩ := bind_eq_ok.mp h
            dsimp only at h
            split at h
            · cases h
              exact .inl ⟨by decide, vmm, rfl⟩
            · cases h
              exact .inr ⟨i, vmm, _, hi, Function.update_of_ne h9 _ _, rfl⟩

theorem sigaction_inv (hn : n.toNat = 17) (h : Sys.sigactionSys a b c o = .ok (v, o')) :
    Dispatched cpu o n a b c (some v) o' := by
  obtain ⟨⟨rc, k1⟩, haction, h⟩ := bind_eq_ok.mp h
  dsimp only at h
  rcases action_inv haction with ⟨hrc, vmm, rfl⟩ | ⟨i, vmm, handlers, hi, h9, rfl⟩
  · rw [if_pos hrc] at h
    cases h
    exact .memory vmm rfl rfl
  · split at h
    · cases h
      exact .action vmm handlers (o.kernel.processes i).signalMask hn hi h9
    · have hfind : findPid
          (({ o.kernel with vmm } : Kernel).modify i fun p => { p with signalHandlers := handlers })
          (o.kernel.pcb o.kernel.current).pid (fun _ => true) = some i := by
        rw [← hi]
        refine findPid_congr (fun j => ?_) rfl
        by_cases hj : j = i
        · subst hj
          rw [modify_self]
          exact ⟨rfl, rfl⟩
        · rw [modify_ne _ _ hj]
          exact ⟨rfl, rfl⟩
      unfold processSignalSetMask at h
      rw [hfind] at h
      dsimp only at h
      rw [modify_modify] at h
      cases h
      exact .action vmm handlers _ hn hi h9

theorem dispatch_inv {res : Option Word} (h : syscallDispatch dev cpu n a b c o = .ok (res, o')) :
    Dispatched cpu o n a b c res o' := by
  have hcall : ∀ {x : Except Halt (Word × Os)}, x.map (fun r => (some r.1, r.2)) = .ok (res, o') →
      (∀ {v}, x = .ok (v, o') → Dispatched cpu o n a b c (some v) o') →
      Dispatched cpu o n a b c res o' := by
    intro x hx hcase
    cases x with
    | error e => cases hx
    | ok r =>
      cases hx
      exact hcase rfl
  unfold syscallDispatch at h
  dsimp only at h
  split at h
  · exact hcall h fun hv => (outside_rd hv).dispatched
  · refine hcall h fun hv => Outside.dispatched (outside_withBuf hv fun o1 h1 => ?_)
    cases h1
    exact ⟨⟨_, rfl⟩, rfl⟩
  · exact hcall h fun hv => (outside_op hv).dispatched
  · refine hcall h fun hv => ?_
    cases hv
    exact .memory _ rfl rfl
  · refine hcall h fun hv => ?_
    obtain ⟨res, hfork, hv⟩ := bind_eq_ok.mp hv
    cases hv
    exact .fork hfork
  · refine hcall h fun hv => ?_
    obtain ⟨⟨rc, k⟩, hexit, hv⟩ := bind_eq_ok.mp hv
    cases hv
    exact .exit hexit
  · refine hcall h fun hv => ?_
    cases hv
    exact .memory _ rfl rfl
  · rename_i hn
    cases hy : schedulerYield cpu o.kernel with
    | error e =>
      rw [hy] at h
      cases h
    | ok r =>
      rw [hy] at h
      cases h
      exact .yield hn hy
  · refine hcall h fun hv => ?_
    unfold Sys.sl at hv
    dsimp only at hv
    split at hv
    · cases hv
    · cases hv
      exact .memory _ rfl rfl
  · rename_i hn
    exact hcall h fun hv => wt_inv hn hv
  · rename_i hn
    refine hcall h fun hv => ?_
    cases hexec : ee (dev.disk dev.block) a o with
    | error e =>
      rw [hexec] at hv
      cases hv
    | ok r =>
      obtain ⟨rc, o1⟩ := r
      rw [hexec] at hv
      cases hv
      rcases ee_cases hexec with ⟨-, ⟨vmm, hk⟩, hp⟩ | ⟨rfl, -⟩
      · exact .memory vmm hk hp
      · exact .exec hn hexec
  · exact hcall h fun hv => (outside_mm hv).dispatched
  · exact hcall h fun hv => (outside_un hv).dispatched
  · exact hcall h fun hv => (outside_mu hv).dispatched
  · refine hcall h fun hv => ?_
    unfold Sys.killSys at hv
    split at hv
    · cases hv
      exact .memory _ rfl rfl
    · obtain ⟨⟨rc, k⟩, hkill, hv⟩ := bind_eq_ok.mp hv
      cases hv
      exact .kill hkill
  · rename_i hn
    refine hcall h fun hv => ?_
    obtain ⟨vmm, rfl | ⟨ha, hbuf, hv⟩⟩ := withFutex_inv hv
    · exact .memory vmm rfl rfl
    · obtain ⟨⟨rc, k⟩, hwait, hv⟩ := bind_eq_ok.mp hv
      cases hv
      exact .futexWait vmm hn ha hbuf hwait
  · refine hcall h fun hv => ?_
    obtain ⟨vmm, rfl | ⟨-, -, hv⟩⟩ := withFutex_inv hv
    · exact .memory vmm rfl rfl
    · obtain ⟨⟨rc, k⟩, hwake, hv⟩ := bind_eq_ok.mp hv
      cases hv
      exact .futexWake vmm hwake
  · rename_i hn
    exact hcall h fun hv => sigaction_inv hn hv
  · cases h
    exact .memory _ rfl rfl
  · exact hcall h fun hv => (outside_getcred hv).dispatched
  · cases h
    exact .memory _ rfl rfl
  · refine hcall h fun hv => ?_
    cases hv
    exact .memory _ rfl rfl
  · exact hcall h fun hv => (outside_send hv).dispatched
  · refine hcall h fun hv => ?_
    cases hv
    exact .memory _ rfl rfl
  · cases h
    exact .memory _ rfl rfl

end

end Ceblar
