import Ceblar.Kernel.SleptThrough
import Ceblar.Kernel.Uncatchable

/-! # Signals across `SYS_EXEC`

The handlers of a process, its mask and the frame that a handler left are fields of the process and
not of its image.
-/

namespace Ceblar

def sysExec : Word := 10

def sysSigaction : Word := 17

/-! ## A process that takes no signal -/

structure Pcb.Quelled (p : Pcb) : Prop where
  active : p.signalActive = false
  masked : ∀ s, 1 ≤ s → s < 32 → p.signalHandlers s ≠ 0 → p.signalMask &&& 1 <<< s ≠ 0

/-- The process is in the table, and the step is not its `SYS_SIGACTION`. -/
def NoAction (c : Nat) (o : Os) (e : SysEvent) : Prop :=
  (o.kernel.processes c).allocated = true ∧
    ∀ dev cpu r registers, e = .syscall dev cpu r registers → o.kernel.current = .slot c →
    registers.eax ≠ sysSigaction

/-- No handler is active, and whatever happens until the next `SYS_SIGACTION`, the signal step leaves
the frames of the process alone. -/
structure Severed (c : Nat) (o : Os) : Prop where
  active : (o.kernel.processes c).signalActive = false
  later : ∀ events o2, Along (NoAction c) sysStep o events → runs sysStep o events = some o2 →
    ∀ e number r od k', NoAction c o2 e → o2.kernel.current = .slot c → SignalEntry o2 e number r od →
      signalStep number (.stack r) od.kernel = .ok k' → k'.frames = od.kernel.frames

section

variable {k k' : Kernel} {o o' od : Os} {c s : Nat} {number : Word} {q : PcbRef} {r f : FramePtr}

theorem bit_getLsbD {i : Nat} (hi : i < 32) : (BitVec.ofNat 32 (1 <<< s)).getLsbD i = decide (s = i) := by
  rw [BitVec.getLsbD_ofNat, Nat.one_shiftLeft, Nat.testBit_two_pow]
  simp [hi]

theorem and_bit_eq_zero (w : Word) (hs : s < 32) : w &&& 1 <<< s = 0 ↔ w.getLsbD s = false := by
  have hbit : ∀ i < 32, (w &&& 1 <<< s).getLsbD i = (w.getLsbD i && decide (s = i)) := by
    intro i hi
    rw [BitVec.getLsbD_and]
    exact congrArg (w.getLsbD i && ·) (bit_getLsbD hi)
  constructor
  · intro h
    have hzero := hbit s hs
    rw [h] at hzero
    simpa using hzero.symm
  · intro h
    apply BitVec.eq_of_getLsbD_eq
    intro i hi
    rw [hbit i hi]
    by_cases his : s = i
    · subst his
      simp [h]
    · simp [his]

theorem or_bit (w : Word) (hs : s < 32) : (w ||| 1 <<< s) &&& 1 <<< s ≠ 0 := by
  rw [Ne, and_bit_eq_zero _ hs, BitVec.getLsbD_or]
  intro h
  have hone : (BitVec.ofNat 32 (1 <<< s)).getLsbD s = false := (Bool.or_eq_false_iff.mp h).2
  rw [bit_getLsbD hs] at hone
  simp at hone

theorem unmasked_bit (p : Pcb) (h1 : 1 ≤ s) (hs : s < 32) :
    p.unmasked &&& 1 <<< s ≠ 0 ↔ p.pendingSignals &&& 1 <<< s ≠ 0 ∧ p.signalMask &&& 1 <<< s = 0 := by
  have hall : (0xfffffffe : Word).getLsbD s = true := by
    interval_cases s <;> decide
  rw [Ne, Ne, and_bit_eq_zero _ hs, and_bit_eq_zero _ hs, and_bit_eq_zero _ hs]
  unfold Pcb.unmasked
  rw [BitVec.getLsbD_and, BitVec.getLsbD_and, BitVec.getLsbD_not, hall]
  simp [hs]

theorem Pcb.Quelled.steady {p p' : Pcb} (h : p.Quelled) (hs : p.Steady p') : p'.Quelled := by
  refine ⟨hs.active.trans h.active, ?_⟩
  rw [hs.handlers, hs.mask]
  exact h.masked

theorem withPending_signals (k : Kernel) (x : Word) : SameSignals k (k.withPending x) := by
  refine sameSignals_modifyRef ?_
  exact fun _ => ⟨rfl, rfl, rfl, rfl, rfl⟩

theorem signalStep_quelled (h : (k.pcb k.current).Quelled) (hs : signalStep number r k = .ok k') :
    ∃ vmm x, k' = ({ k with vmm } : Kernel).withPending x := by
  unfold signalStep at hs
  split at hs
  · cases hs
    unfold processSignalReturn
    dsimp only
    rw [h.active]
    exact ⟨_, _, (withPending_self _).symm⟩
  · rcases deliver_inv hs with hnone | ⟨-, -, s, vmm, x, h1, h32, hbit, hhandler, -⟩
    · exact hnone
    · exact absurd ((unmasked_bit _ h1 h32).mp hbit).2 (h.masked s h1 h32 hhandler)

theorem Pcb.Quelled.finish (h : (od.kernel.processes c).Quelled)
    (hf : syscallFinish q number r od = .ok (f, o')) :
    (o'.kernel.processes c).Quelled := by
  obtain ⟨k1, hsignal, hend⟩ := finish_signals hf
  refine Pcb.Quelled.steady ?_ (hend c).steady
  by_cases hc : od.kernel.current = .slot c
  · obtain ⟨vmm, x, rfl⟩ := signalStep_quelled (by rw [hc]; exact h) hsignal
    exact h.steady (withPending_signals { od.kernel with vmm } x c).steady
  · rw [(signalStep_marks hsignal).others hc]
    exact h

theorem SignalEntry.quelled {e : SysEvent} {p : Word} (hentry : SignalEntry o e number p od)
    (hinv : SysInv o) (hno : NoAction c o e) (h : (o.kernel.processes c).Quelled) :
    (od.kernel.processes c).Quelled := by
  obtain ⟨ha, hno⟩ := hno
  cases hentry with
  | @called dev cpu p v registers o1 hcall =>
    have ht : TableInv (o.enter p registers).kernel :=
      hinv.table.congr (fun _ => ⟨rfl, rfl, rfl, rfl⟩) rfl rfl ⟨rfl, rfl⟩
    rcases (dispatch_inv hcall).steady ht ha with hs | ⟨hn, hcur, -⟩
    · exact h.steady hs
    · exact absurd (BitVec.eq_of_toNat_eq hn) (hno dev cpu p registers rfl hcur)
  | resumed p registers => exact h

theorem sysStep_quelled {e : SysEvent} (hinv : SysInv o) (hno : NoAction c o e)
    (h : (o.kernel.processes c).Quelled) (hs : sysStep o e = some o') :
    (o'.kernel.processes c).Quelled := by
  cases e with
  | os op =>
    dsimp only [sysStep] at hs
    split at hs
    · exact h.steady (osStep_steady hno.1 hs)
    · cases hs
  | descriptors vfs =>
    cases hs
    exact h
  | syscall dev cpu p registers =>
    rcases sysStep_call hs with ⟨cpu', k', hy, rfl⟩ | ⟨od, f, hentry, hfinish⟩
    · exact h.steady (yield_signals hy c).steady
    · exact (hentry.quelled hinv hno h).finish hfinish
  | resumed p registers =>
    obtain ⟨od, f, hentry, hfinish⟩ := sysStep_resumed hs
    exact (hentry.quelled hinv hno h).finish hfinish

theorem Pcb.Quelled.severed (hinv : SysInv o) (h : (o.kernel.processes c).Quelled) : Severed c o := by
  refine ⟨h.active, fun events o2 hno hrun e number p od k' hlast hc hentry hs => ?_⟩
  have hend : SysInv o2 ∧ (o2.kernel.processes c).Quelled :=
    runs_inv_along (fun o => SysInv o ∧ (o.kernel.processes c).Quelled)
      (fun o e o' h hno hs => ⟨sysStep_inv h.1 hs, sysStep_quelled h.1 hno h.2 hs⟩) ⟨hinv, h⟩ hno hrun
  have hod := hentry.quelled hend.1 hlast hend.2
  have hcur : od.kernel.current = .slot c := (hentry.inv hend.1).2.1.trans hc
  obtain ⟨vmm, x, rfl⟩ := signalStep_quelled (by rw [hcur]; exact hod) hs
  exact withPending_frames _ _

end

section

variable {o o1 o' : Os} {c : Nat} {dev : Devices} {cpu : CalleeSaved} {r : Word}
    {registers : Registers} {f : FramePtr}

theorem exec_entry (hn : registers.eax = sysExec)
    (hexec : ee (dev.disk dev.block) registers.ebx (o.enter r registers) = .ok (0, o1))
    (h : syscallFromInterrupt dev cpu (.stack r) (o.enter r registers) = .ok (some f, o')) :
    SignalEntry o (.syscall dev cpu r registers) sysExec r (o1.setResult (.stack r) 0) ∧
      syscallFinish o.kernel.current sysExec (.stack r) (o1.setResult (.stack r) 0) = .ok (f, o') := by
  have hcall : syscallDispatch dev cpu registers.eax registers.ebx registers.ecx registers.edx
      (o.enter r registers) = .ok (some 0, o1) := by
    rw [hn]
    exact congrArg (fun res : Except Halt (Int × Os) =>
      (res.map fun r => (BitVec.ofInt 32 r.1, r.2)).map fun r => (some r.1, r.2)) hexec
  have hentry := SignalEntry.called hcall
  rw [hn] at hentry
  refine ⟨hentry, ?_⟩
  obtain ⟨⟨res, od⟩, hdispatch, hend⟩ := bind_eq_ok.mp h
  have hregs : (o.enter r registers).kernel.frames (.stack r) = registers := by
    simp [Os.enter, Kernel.setFrame]
  rw [hregs] at hdispatch hend
  rw [hcall] at hdispatch
  cases hdispatch
  obtain ⟨⟨f', o2⟩, hfinish, hend⟩ := bind_eq_ok.mp hend
  cases hend
  rw [hn] at hfinish
  exact hfinish

theorem SignalMarks.keeps {k k' : Kernel} (h : SignalMarks k k') (c : Nat) :
    (k'.processes c).signalHandlers = (k.processes c).signalHandlers ∧
      (k'.processes c).signalMask = (k.processes c).signalMask ∧
      (k'.processes c).userMode = (k.processes c).userMode := by
  obtain ⟨vmm, frames, g, rfl, hg⟩ := h
  rcases modifyRef_processes ({ k with vmm, frames } : Kernel) g k.current c with he | he
  · rw [he]
    exact ⟨rfl, rfl, rfl⟩
  · obtain ⟨pending, saved, active, hg⟩ := hg (k.processes c)
    rw [he, hg]
    exact ⟨rfl, rfl, rfl⟩

theorem exec_frame (hinv : SysInv o) (hc : o.kernel.current = .slot c) (hu :
      (o.kernel.processes c).userMode = true)
    (hexec : ee (dev.disk dev.block) registers.ebx (o.enter r registers) = .ok (0, o1))
    (h : syscallFinish o.kernel.current sysExec (.stack r) (o1.setResult (.stack r) 0) = .ok (f, o')) :
    f = .stack r ∧ o'.kernel.current = .slot c ∧
      ∃ regs : Registers, o'.kernel.frames f = regs.restart (o1.kernel.processes c).entryPoint := by
  rcases ee_cases hexec with ⟨hrc, -⟩ | ⟨-, space, entry, hp, vmm, he⟩
  · exact absurd rfl hrc
  have hcur : (o.enter r registers).kernel.current = .slot c := hc
  rw [hcur] at hp he
  have hpcb : o1.kernel.processes c = (o.kernel.processes c).replace space entry := by
    rw [he]
    exact modifyRef_pcb _ _ (.slot c)
  obtain ⟨k1, o2, hsignal, ho2, hend⟩ := finish_inv h
  have hstate : (o2.kernel.pcb (.slot c)).state = (o.kernel.processes c).state := by
    obtain ⟨frames, hframes⟩ := startPending_kernel
      { o1.setResult (.stack r) 0 with kernel := k1 } o.kernel.current (.stack r)
    rw [ho2, hframes]
    refine ((signalStep_marks hsignal).state (.slot c)).trans ((congrArg Pcb.state hpcb).trans ?_)
    rfl
  obtain ⟨hblocked, hzombie⟩ := hinv.live c hc hu
  rw [hc] at hend ho2
  rw [hstate] at hend
  rcases hend with ⟨hstopped, -⟩ | ⟨-, rfl, rfl⟩
  · exact absurd hstopped (not_or.mpr ⟨hblocked, hzombie⟩)
  · refine ⟨rfl, ?_, k1.frames (.stack r), ?_⟩
    · obtain ⟨frames, hframes⟩ :=
        startPending_kernel { o1.setResult (.stack r) 0 with kernel := k1 } (.slot c) (.stack r)
      rw [ho2, hframes]
      refine (signalStep_marks hsignal).current.trans ?_
      exact (congrArg Kernel.current he).trans hc
    have hpending : (o1.setResult (.stack r) 0).execPending = some (.slot c, entry) := hp
    rw [ho2, hpcb]
    unfold Os.startPending
    dsimp only
    rw [hpending]
    simp [Kernel.setFrame, Pcb.replace]

end

/-! ## Handlers that are left -/

def Pushes (k : Kernel) (a : Word) : Prop :=
  0x400008 ≤ a ∧ ∃ space m m1, (k.pcb k.current).addressSpace = some space ∧
    vmmValidateUserPtr k.vmm space (a - 8) 8 1 = .ok (0, m) ∧ m.kernelStore32 (a - 8) 0 = .ok m1 ∧
    ∀ w, ∃ m2, m1.kernelStore32 (a - 8 + 4) w = .ok m2

section

variable {k k' : Kernel} {o : Os} {c n : Nat} {r : FramePtr} {pending : Word} {signal : Nat}

theorem Pushes.takes (h : Pushes k (k.frames r).useresp) : StackTakes k r := by
  obtain ⟨hesp, space, m, m1, hspace, hvalid, -⟩ := h
  exact ⟨space, m, hspace, hesp, hvalid⟩

theorem Pushes.withPending {a : Word} (h : Pushes k a) (x : Word) : Pushes (k.withPending x) a := by
  unfold Pushes
  rw [withPending_pcb, withPending_memory]
  exact h

theorem deliverOne_ok (h : Pushes k (k.frames r).useresp) (pending : Word) (signal : Nat) :
    ∃ res, deliverOne r pending signal k = .ok res := by
  unfold deliverOne
  split
  · exact ⟨_, rfl⟩
  · have hk :
        k.modifyRef
          (fun p => { p with pendingSignals := p.pendingSignals &&& ~~~((1 : Word) <<< signal) })
            k.current =
        k.withPending ((k.pcb k.current).pendingSignals &&& ~~~((1 : Word) <<< signal)) :=
      modifyRef_congr k k.current rfl
    have h' := h.withPending ((k.pcb k.current).pendingSignals &&& ~~~((1 : Word) <<< signal))
    dsimp only
    rw [hk]
    rw [← withPending_frames k ((k.pcb k.current).pendingSignals &&& ~~~((1 : Word) <<< signal))] at h'
    generalize k.withPending _ = k1 at h'
    obtain ⟨hesp, space, m, m1, hspace, hvalid, hlow, hhigh⟩ := h'
    rw [hspace]
    dsimp only
    split
    · exact ⟨_, rfl⟩
    · obtain ⟨m2, hhigh⟩ := hhigh (BitVec.ofNat 32 signal)
      rw [hvalid]
      dsimp only [bind, Except.bind]
      rw [if_neg (not_not.mpr rfl), hlow]
      dsimp only
      rw [hhigh]
      exact ⟨_, rfl⟩

theorem deliverLoop_ok (h : Pushes k (k.frames r).useresp) :
    ∃ k', deliverLoop r pending n signal k = .ok k' := by
  induction n generalizing signal k with
  | zero => exact ⟨_, rfl⟩
  | succ n ih =>
    obtain ⟨⟨entered, k1⟩, hone⟩ := deliverOne_ok h pending signal
    rcases deliverOne_inv hone with ⟨rfl, ⟨-, x, rfl⟩ | ⟨hrefused, -⟩⟩ | ⟨rfl, -⟩
    · have hrest : Pushes (k.withPending x) ((k.withPending x).frames r).useresp := by
        rw [withPending_frames]
        exact h.withPending x
      obtain ⟨k', hk'⟩ : ∃ k', deliverLoop r pending n (signal + 1) (k.withPending x) = .ok k' := ih hrest
      exact ⟨k', bind_eq_ok.mpr ⟨_, hone, hk'⟩⟩
    · exact absurd h.takes hrefused
    · exact ⟨k1, bind_eq_ok.mpr ⟨_, hone, rfl⟩⟩

theorem deliver_ok (h : Pushes k (k.frames r).useresp) : ∃ k', processDeliverSignal r k = .ok k' := by
  unfold processDeliverSignal
  dsimp only
  split
  · exact ⟨k, rfl⟩
  · exact deliverLoop_ok h

theorem signal_word {s : Nat} (h1 : 1 ≤ s) (h32 : s < 32) (h9 : s ≠ 9) :
    (BitVec.ofNat 32 s).toNat = s ∧ ¬(BitVec.ofNat 32 s = 0 ∨ 31 < BitVec.ofNat 32 s) ∧
    BitVec.ofNat 32 s ≠ 9 := by
  interval_cases s <;> first | contradiction | decide

theorem kill_self (hinv : SysInv o) (hc : o.kernel.current = .slot c)
    (hu : (o.kernel.processes c).userMode = true) {s : Nat} (h1 : 1 ≤ s) (h32 : s < 32) (h9 : s ≠ 9)
    (a : Word) :
    ∃ e od, NoAction c o e ∧ SignalEntry o e 14 0 od ∧ od.kernel.current = .slot c ∧
      od.kernel.processes c =
        { o.kernel.processes c with
          pendingSignals := (o.kernel.processes c).pendingSignals ||| 1 <<< s } ∧
      od.kernel.vmm = o.kernel.vmm ∧ (od.kernel.frames (.stack 0)).useresp = a := by
  obtain ⟨hnat, hs, hne⟩ := signal_word h1 h32 h9
  generalize hregs : { zeroRegisters with
    eax := 14, ebx := (o.kernel.processes c).pid, ecx := BitVec.ofNat 32 s, useresp := a } = registers
  have heax : registers.eax = 14 := by rw [← hregs]
  have hebx : registers.ebx = (o.kernel.processes c).pid := by rw [← hregs]
  have hecx : registers.ecx = BitVec.ofNat 32 s := by rw [← hregs]
  have hesp : registers.useresp = a := by rw [← hregs]
  have ht : TableInv (o.kernel.setFrame (.stack 0) registers) :=
    hinv.table.congr (fun _ => ⟨rfl, rfl, rfl, rfl⟩) rfl rfl ⟨rfl, rfl⟩
  obtain ⟨hblocked, hzombie⟩ := hinv.live c hc hu
  have hfind : findPid (o.kernel.setFrame (.stack 0) registers) (o.kernel.processes c).pid
      (fun q => q.state != .zombie) =
      some c :=
      (findPid_eq_some ht).mpr ⟨⟨hinv.table.current c hc, rfl⟩, by simpa [Kernel.setFrame] using hzombie⟩
  have hsend : processSendSignal (o.kernel.processes c).pid (BitVec.ofNat 32 s)
      (o.kernel.setFrame (.stack 0) registers) =
      .ok (0, (o.kernel.setFrame (.stack 0) registers).modify c fun q =>
        { q with pendingSignals := q.pendingSignals ||| 1 <<< s }) := by
    unfold processSendSignal
    rw [if_neg hs, if_neg hne, hfind, hnat]
    dsimp only
    rw [if_neg (by rw [modify_self]; exact hblocked)]
    rfl
  generalize hk1 : (o.kernel.setFrame (.stack 0) registers).modify c _ = k1 at hsend
  have hself : k1.processes c =
      { o.kernel.processes c with
        pendingSignals := (o.kernel.processes c).pendingSignals ||| 1 <<< s } := by
    rw [← hk1, modify_self]
    rfl
  have hkill : Sys.killSys (o.kernel.processes c).pid (BitVec.ofNat 32 s) (o.enter 0 registers) =
      .ok (0, { o.enter 0 registers with kernel := k1 }) := by
    unfold Sys.killSys
    rw [if_neg hs]
    exact bind_eq_ok.mpr ⟨_, hsend, rfl⟩
  have hcall : syscallDispatch bareDevices noCpu registers.eax registers.ebx registers.ecx registers.edx
      (o.enter 0 registers) = .ok (some 0, { o.enter 0 registers with kernel := k1 }) := by
    rw [heax, hebx, hecx]
    exact congrArg (fun res : Except Halt (Word × Os) => res.map fun r => (some r.1, r.2)) hkill
  have hentry := SignalEntry.called hcall
  rw [heax] at hentry
  refine ⟨_, _, ⟨hinv.table.current c hc, ?_⟩, hentry, ?_, ?_, ?_, ?_⟩
  · rintro _ _ _ _ ⟨rfl⟩ -
    rw [heax]
    decide
  · subst hk1
    exact hc
  · exact hself
  · subst hk1
    rfl
  · subst hk1
    simpa [Os.setResult, Kernel.setFrame, Kernel.modify] using hesp

theorem Severed.masks (h : Severed c o) (hinv : SysInv o) (hc : o.kernel.current = .slot c)
    (hu : (o.kernel.processes c).userMode = true) {a : Word} (hp : Pushes o.kernel a) {s : Nat}
    (h1 : 1 ≤ s) (h32 : s < 32) (h9 : s ≠ 9)
    (hhandler : (o.kernel.processes c).signalHandlers s ≠ 0) :
    (o.kernel.processes c).signalMask &&& 1 <<< s ≠ 0 := by
  intro hmask
  obtain ⟨e, od, hno, hentry, hcur, hpcb, hvmm, hesp⟩ := kill_self hinv hc hu h1 h32 h9 a
  have hcurrent : od.kernel.pcb od.kernel.current = od.kernel.processes c := by
    rw [hcur]
    rfl
  have hpush : Pushes od.kernel (od.kernel.frames (.stack 0)).useresp := by
    rw [hesp]
    unfold Pushes at hp ⊢
    rw [hc] at hp
    rw [hcurrent, hpcb, hvmm]
    exact hp
  obtain ⟨k', hdeliver⟩ := deliver_ok hpush
  have hdeliverable : Deliverable od.kernel (.stack 0) := by
    refine ⟨hpush.takes, s, h1, h32, (unmasked_bit _ h1 h32).mpr ⟨?_, ?_⟩, ?_⟩
    · rw [hcurrent, hpcb]
      exact or_bit _ h32
    · rw [hcurrent, hpcb]
      exact hmask
    · rw [hcurrent, hpcb]
      exact hhandler
  have hactive := hdeliverable.enters (by rw [hcurrent, hpcb]; exact hu)
      (by rw [hcurrent, hpcb]; exact h.active) hdeliver
  have hframes := h.later [] o trivial rfl e 14 0 od k' hno hc hentry hdeliver
  -- a handler was entered, so the frame is not what it was
  rcases deliver_inv hdeliver with ⟨vmm, x, rfl⟩ | ⟨-, -, s', vmm, x, -, -, -, -, rfl⟩
  · unfold Kernel.withPending at hactive
    rw [modifyRef_pcb] at hactive
    have hstill : (od.kernel.pcb od.kernel.current).signalActive = true := hactive
    rw [hcurrent, hpcb] at hstill
    exact absurd (hstill.symm.trans h.active) (by decide)
  · have hmoved := congrArg Registers.useresp (congrFun hframes (.stack 0))
    unfold Kernel.enterHandler at hmoved
    rw [modifyRef_frames] at hmoved
    simp only [Kernel.setFrame, Function.update_self] at hmoved
    bv_omega

end

/-- The call cuts the process off from the handlers and the frames of the old image if none of them
can be reached: no handler is active, and those that there are belong to masked signals. Where the
new image has memory that can be written, it does so only then. -/
theorem exec_severs_iff {o0 o : Os} (h0 : o0.kernel.Booted) (hp0 : o0.execPending = none)
    {before : List SysEvent} (hbefore : runs sysStep o0 before = some o)
    {c : Nat} (hc : o.kernel.current = .slot c) (hu : (o.kernel.processes c).userMode = true)
    {dev : Devices} {cpu : CalleeSaved} {r : Word} {registers : Registers} {o1 o' : Os} {f : FramePtr}
    (hn : registers.eax = sysExec)
    (hexec : ee (dev.disk dev.block) registers.ebx (o.enter r registers) = .ok (0, o1))
    (hcall : syscallFromInterrupt dev cpu (.stack r) (o.enter r registers) = .ok (some f, o')) :
    (f = .stack r ∧ (o'.kernel.frames f).eip = (o1.kernel.processes c).entryPoint ∧
      (o'.kernel.frames f).useresp = userStackTop) ∧
    ((o.kernel.processes c).Quelled → Severed c o') ∧
    ((∃ a, Pushes o'.kernel a) → Severed c o' → (o.kernel.processes c).Quelled) := by
  have hinv := sysRun_inv h0 hp0 hbefore
  obtain ⟨hentry, hfinish⟩ := exec_entry hn hexec hcall
  obtain ⟨hf, hcur', regs, hframe⟩ := exec_frame hinv hc hu hexec hfinish
  obtain ⟨ht, hcur, hp⟩ := hentry.inv hinv
  have hinv' := finish_sysInv ht hcur hp hfinish
  have hno : NoAction c o (.syscall dev cpu r registers) := by
    refine ⟨hinv.table.current c hc, ?_⟩
    rintro _ _ _ _ ⟨rfl⟩ -
    rw [hn]
    decide
  refine ⟨⟨hf, ?_, ?_⟩, fun hq => ?_, ?_⟩
  · rw [hframe]
    rfl
  · rw [hframe]
    rfl
  · exact ((hentry.quelled hinv hno hq).finish hfinish).severed hinv'
  · rintro ⟨a, ha⟩ hs
    have hst : (o.kernel.processes c).Steady (o1.kernel.processes c) := ee_steady hexec c
    obtain ⟨k1, hsignal, hend⟩ := finish_signals hfinish
    obtain ⟨hhandlers, hmask, hmode⟩ := (signalStep_marks hsignal).keeps c
    refine ⟨?_, fun s h1 h32 hhandler => ?_⟩
    · -- a handler that was active still is
      by_contra hactive
      have hin :
          InHandler c (o1.kernel.processes c).signalSavedFrame (o1.setResult (.stack r) 0).kernel :=
        ⟨hst.active.trans (Bool.eq_true_of_not_eq_false hactive), rfl, hst.user hu⟩
      have hstill := hin.finish (fun _ => by decide) hfinish
      exact absurd (hstill.active.symm.trans hs.active) (by decide)
    · have h9 : s ≠ 9 := by
        rintro rfl
        exact hhandler (sysRun_uncatchable h0 hp0 hbefore c (hinv.table.current c hc))
      have hu' : (o'.kernel.processes c).userMode = true :=
        (hend c).mode.trans (hmode.trans (hst.user hu))
      have hh : (o'.kernel.processes c).signalHandlers = (o.kernel.processes c).signalHandlers :=
        (hend c).handlers.trans (hhandlers.trans hst.handlers)
      have hm : (o'.kernel.processes c).signalMask = (o.kernel.processes c).signalMask :=
        (hend c).mask.trans (hmask.trans hst.mask)
      rw [← hm]
      exact hs.masks hinv' hcur' hu' ha h1 h32 h9 (by rw [hh]; exact hhandler)

def quelledTest (p : Pcb) : Bool :=
  !p.signalActive &&
    (List.range 32).all fun s => s == 0 || p.signalHandlers s == 0 || p.signalMask &&& 1 <<< s != 0

theorem quelled_of_test {p : Pcb} (h : quelledTest p = true) : p.Quelled := by
  unfold quelledTest at h
  rw [Bool.and_eq_true, List.all_eq_true] at h
  obtain ⟨hactive, hall⟩ := h
  refine ⟨by simpa using hactive, fun s h1 h32 hhandler => ?_⟩
  have hs := hall s (List.mem_range.mpr h32)
  simp only [Bool.or_eq_true, beq_iff_eq, bne_iff_ne] at hs
  rcases hs with (rfl | hz) | hmask
  · omega
  · exact absurd hz hhandler
  · exact hmask

/-- A user process runs, and has a handler for signal 1, which it has masked. -/
def maskedRun : List SysEvent :=
  [.os (.createUser 0x400000), .os (.enter true 0), callOf 17 1 0xbfe000 2]

theorem exec_severs_iff_maskedRun : ∃ o o1 f o', runs sysStep coldOs maskedRun = some o ∧
    ee (bareDevices.disk bareDevices.block) 0xbfe000
      (o.enter 0x9000 (callRegisters 10 0xbfe000 0 0)) = .ok (0, o1) ∧
    syscallFromInterrupt bareDevices noCpu (.stack 0x9000)
      (o.enter 0x9000 (callRegisters 10 0xbfe000 0 0)) =
      .ok (some f, o') ∧ (o.kernel.processes 0).signalHandlers 1 ≠ 0 ∧ Severed 0 o' := by
  have hview : ((runs sysStep coldOs maskedRun).bind fun o => (callParts 10 0xbfe000 0 0 o).bind fun _ =>
      (ee (bareDevices.disk bareDevices.block) 0xbfe000
        (o.enter 0x9000 (callRegisters 10 0xbfe000 0 0))).toOption.map
        fun x => (x.1, o.kernel.current,
          (o.kernel.processes 0).userMode, quelledTest (o.kernel.processes 0),
          (o.kernel.processes 0).signalHandlers 1)) = some (0, .slot 0, true, true, 0xbfe000) := by
    decide +kernel
  obtain ⟨o, ho, hview⟩ := Option.bind_eq_some_iff.mp hview
  obtain ⟨⟨od, f, o'⟩, hparts, hview⟩ := Option.bind_eq_some_iff.mp hview
  obtain ⟨⟨rc, o1⟩, hee, hx⟩ := Option.map_eq_some_iff.mp hview
  simp only [Prod.mk.injEq] at hx
  obtain ⟨rfl, hc, hu, htest, hhandler⟩ := hx
  have hexec := toOption_eq_some hee
  obtain ⟨-, -, hcall⟩ := callParts_inv hparts
  refine ⟨o, o1, f, o', ho, hexec, hcall, by rw [hhandler]; decide, ?_⟩
  exact (exec_severs_iff coldOs_booted.kernel rfl ho hc hu rfl hexec hcall).2.1 (quelled_of_test htest)

/-- A signal is pending when the new image is loaded. The call enters its handler on the way, and
`SYS_SIGRETURN` of the new image goes back to the old one. -/
theorem exec_keeps_handler : ∃ o o1 f o' f3 o3, runs sysStep coldOs pendingRun = some o ∧
    (o.kernel.processes 0).signalActive = false ∧
    ee (bareDevices.disk bareDevices.block) 0xbfe000
      (o.enter 0x9000 (callRegisters 10 0xbfe000 0 0)) = .ok (0, o1) ∧
    syscallFromInterrupt bareDevices noCpu (.stack 0x9000)
      (o.enter 0x9000 (callRegisters 10 0xbfe000 0 0)) =
      .ok (some f, o') ∧ (o'.kernel.processes 0).signalActive = true ∧ ¬Severed 0 o' ∧
    syscallFromInterrupt bareDevices noCpu (.stack 0x9000)
      (o'.enter 0x9000 (callRegisters 18 0 0 0)) = .ok (some f3, o3) ∧
    (o3.kernel.frames f3).eip = (callRegisters 10 0xbfe000 0 0).eip := by
  have hview : ((runs sysStep coldOs pendingRun).bind fun o => (callParts 10 0xbfe000 0 0 o).bind fun x =>
      (callParts 18 0 0 0 x.2.2).bind fun y =>
      (ee (bareDevices.disk bareDevices.block) 0xbfe000
        (o.enter 0x9000 (callRegisters 10 0xbfe000 0 0))).toOption.map
        fun z => (z.1, (o.kernel.processes 0).signalActive, (x.2.2.kernel.processes 0).signalActive,
          (y.2.2.kernel.frames y.2.1).eip)) = some (0, false, true, 0x400010) := by
    decide +kernel
  obtain ⟨o, ho, hview⟩ := Option.bind_eq_some_iff.mp hview
  obtain ⟨⟨od, f, o'⟩, hparts, hview⟩ := Option.bind_eq_some_iff.mp hview
  obtain ⟨⟨od3, f3, o3⟩, hreturned, hview⟩ := Option.bind_eq_some_iff.mp hview
  obtain ⟨⟨rc, o1⟩, hee, hx⟩ := Option.map_eq_some_iff.mp hview
  simp only [Prod.mk.injEq] at hx
  obtain ⟨rfl, hbefore, hafter, heip⟩ := hx
  refine ⟨o, o1, f, o', f3, o3, ho, hbefore, toOption_eq_some hee,
    (callParts_inv hparts).2.2, hafter, fun hs => ?_, (callParts_inv hreturned).2.2, heip⟩
  exact absurd (hafter.symm.trans hs.active) (by decide)

end Ceblar
