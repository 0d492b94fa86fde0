import Ceblar.Scheduler.Fresh

/-! # Where a process goes on

Beside the kernel's own state stands what the last suspension of each process saved, and every
resumption with what it loaded.
-/

namespace Ceblar

open Function

/-! ## Suspensions and resumptions -/

inductive Context where
  | frame (p : FramePtr)
  | cpu (c : CalleeSaved)
  deriving DecidableEq

/-- What a new process starts from: its frame, or what `context_switch` takes from its `cpu_state`. -/
structure Initial where
  frame : FramePtr
  cpu : CalleeSaved

structure Resumption where
  process : PcbRef
  loaded : Context
  /-- What the last suspension of the process saved. -/
  saved : Option Context
  /-- What it started from, unless it is the idle one, which runs from boot on. -/
  initial : Option Initial

def Resumption.Right (e : Resumption) : Prop :=
  match e.saved, e.initial with
  | some c, _ => e.loaded = c
  | none, some start => e.loaded = .frame start.frame ∨ e.loaded = .cpu start.cpu
  | none, none => False

structure Traced where
  kernel : Kernel
  last : PcbRef → Option Context
  start : Nat → Initial
  resumed : List Resumption

inductive SwitchOp where
  | kernel (op : KernelOp)
  | yield (cpu : CalleeSaved)

def Traced.initial (t : Traced) : PcbRef → Option Initial
  | .idle => none
  | .slot i => some (t.start i)

def Traced.switch (t : Traced) (saved loaded : Context) (k : Kernel) : Traced :=
  let last := update t.last t.kernel.current (some saved)
  { t with
    kernel := k
    last := last
    resumed :=
      { process := k.current, loaded := loaded, saved := last k.current, initial := t.initial k.current } :: t.resumed }

def Traced.goOn (t : Traced) (k : Kernel) : Traced :=
  { t with
    kernel := k
    last := fun
      | .idle => t.last .idle
      | .slot i => if (k.processes i).allocated then t.last (.slot i) else none
    start := fun i =>
      if (t.kernel.processes i).allocated then t.start i
      else { frame := processInitialFrame i k, cpu := (k.processes i).cpuState.load } }

def traceStep (t : Traced) : SwitchOp → Option Traced
  | .kernel (.timerTick r registers) =>
    match schedulerTimerTick (.stack r) (t.kernel.setFrame (.stack r) registers) with
    | .error _ => none
    | .ok (f, k) => some (t.switch (.frame (.stack r)) (.frame f) k)
  | .kernel (.blockCurrent r registers) =>
    match schedulerBlockCurrent (.stack r) (t.kernel.setFrame (.stack r) registers) with
    | .error _ => none
    | .ok (f, k) => some (t.switch (.frame (.stack r)) (.frame f) k)
  | .kernel op => (kernelStep (System.boot t.kernel) op).map fun s => t.goOn s.kernel
  | .yield cpu =>
    match schedulerYield cpu t.kernel with
    | .error _ => none
    | .ok (none, k) => some (t.goOn k)
    | .ok (some c, k) => some (t.switch (.cpu cpu) (.cpu c) k)

def Traced.boot (k : Kernel) : Traced where
  kernel := k
  last := fun _ => none
  start := fun i => { frame := processInitialFrame i k, cpu := (k.processes i).cpuState.load }
  resumed := []

def Traced.Interrupted (t : Traced) (ref : PcbRef) : Prop := ∃ p, t.last ref = some (.frame p)

def Traced.Yielded (t : Traced) (ref : PcbRef) : Prop := ∃ c, t.last ref = some (.cpu c)

/-- An interrupt resumes nobody who stopped in a yield, and a yield nobody who was interrupted: the
first process on the list that can run, those whose timeout is over, and the idle one if there is
nobody else. An interrupt finds somebody to go on. -/
def Unmixed (t : Traced) : SwitchOp → Prop
  | .kernel (.timerTick _ _) =>
    (∀ i, .slot i ≠ t.kernel.current →
      t.kernel.First i ∨ (t.kernel.processes i).due (timerUptimeMs t.kernel) = true →
      ¬t.Yielded (.slot i)) ∧
    ∀ c, t.kernel.current = .slot c →
      (t.kernel.processes c).state = .running ∨ (t.kernel.processes c).state = .ready ∨ t.kernel.HasReady
  | .kernel (.blockCurrent _ _) =>
    (∀ i, .slot i ≠ t.kernel.current → t.kernel.First i → ¬t.Yielded (.slot i)) ∧
    ∀ c, t.kernel.current = .slot c → (t.kernel.processes c).state = .ready ∨ t.kernel.HasReady
  | .yield _ =>
    (∀ i, .slot i ≠ t.kernel.current → t.kernel.First i → ¬t.Interrupted (.slot i)) ∧
    ∀ c, t.kernel.current = .slot c → t.kernel.Requeues c ∨ t.kernel.HasReady ∨ ¬t.Interrupted .idle
  | _ => True

def Pcb.Holds (p : Pcb) : Context → Prop
  | .frame f => p.interruptFrame = some f
  | .cpu c => p.cpuState.load = c

structure ResumeInv (t : Traced) : Prop where
  table : TableInv t.kernel
  holds : ∀ ref c, t.last ref = some c → (t.kernel.pcb ref).Holds c
  fresh : ∀ i, (t.kernel.processes i).allocated = true → t.last (.slot i) = none →
    (t.kernel.processes i).interruptFrame = none ∧
      t.start i = { frame := processInitialFrame i t.kernel, cpu := (t.kernel.processes i).cpuState.load }
  free : ∀ i, (t.kernel.processes i).allocated = false → t.last (.slot i) = none
  left : t.kernel.current ≠ .idle → t.last .idle ≠ none
  right : ∀ e ∈ t.resumed, e.Right

section

variable {t t' : Traced} {k k' : Kernel} {i : Nat}
variable {op : SwitchOp} {f : FramePtr} {registers : Registers}

theorem holds_congr {p q : Pcb} {c : Context} (h : p.saved = q.saved) (hc : q.Holds c) : p.Holds c := by
  cases c with
  | frame f => exact (congrArg Saved.frame h).trans hc
  | cpu c => exact (congrArg (fun s : Saved => s.cpu.load) h).trans hc

theorem fresh_congr {start : Initial} (h : (k'.processes i).saved = (k.processes i).saved)
    (hf : (k.processes i).interruptFrame = none ∧
      start = { frame := processInitialFrame i k, cpu := (k.processes i).cpuState.load }) :
    (k'.processes i).interruptFrame = none ∧
      start = { frame := processInitialFrame i k', cpu := (k'.processes i).cpuState.load } := by
  obtain ⟨hframe, rfl⟩ := hf
  have hmode : (k'.processes i).userMode = (k.processes i).userMode := congrArg Saved.userMode h
  have hcpu : (k'.processes i).cpuState = (k.processes i).cpuState := congrArg Saved.cpu h
  refine ⟨(congrArg Saved.frame h).trans hframe, ?_⟩
  rw [processInitialFrame, processInitialFrame, hmode, hcpu]

theorem ResumeInv.goOn (h : ResumeInv t) (ht : TableInv k) (hk : KeepsContexts t.kernel k) :
    ResumeInv (t.goOn k) where
  table := ht
  holds ref c hc := by
    cases ref with
    | idle => exact holds_congr hk.idle (h.holds .idle c hc)
    | slot i =>
      dsimp only [Traced.goOn] at hc
      split at hc
      next ha' =>
        have ha : (t.kernel.processes i).allocated = true := by
          by_contra hfree
          rw [h.free i (by simpa using hfree)] at hc
          cases hc
        exact holds_congr (hk.slot i ha ha') (h.holds (.slot i) c hc)
      · cases hc
  fresh i ha' hlast := by
    dsimp only [Traced.goOn] at ha' hlast ⊢
    rw [if_pos ha'] at hlast
    split
    next ha => exact fresh_congr (hk.slot i ha ha') (h.fresh i ha hlast)
    next hfree => exact ⟨hk.fresh i (by simpa using hfree) ha', rfl⟩
  free i hfree := by
    have hk : (k.processes i).allocated = false := hfree
    dsimp only [Traced.goOn]
    rw [hk]
    rfl
  left hne := h.left (hk.current ▸ hne)
  right := h.right

theorem ResumeInv.switch {g : Saved → Saved} {saved loaded : Context} (h : ResumeInv t)
    (ht : TableInv k) (hs : Suspends g t.kernel k) (hg : (k.pcb t.kernel.current).Holds saved)
    (hright : ∀ e ∈ (t.switch saved loaded k).resumed, e.Right) :
    ResumeInv (t.switch saved loaded k) := by
  have hother : ∀ ref, ref ≠ t.kernel.current → (t.switch saved loaded k).last ref = t.last ref :=
    fun ref hne => update_of_ne hne _ _
  have hself : (t.switch saved loaded k).last t.kernel.current = some saved := update_self _ _ _
  refine ⟨ht, fun ref c hc => ?_, fun i ha hlast => ?_, fun i hfree => ?_, fun hne => ?_, hright⟩
  · by_cases href : ref = t.kernel.current
    · rw [href, hself] at hc
      cases hc
      rw [href]
      exact hg
    · rw [hother ref href] at hc
      exact holds_congr (hs.others ref href) (h.holds ref c hc)
  · have hne : .slot i ≠ t.kernel.current := by
      intro he
      rw [he, hself] at hlast
      cases hlast
    rw [hother _ hne] at hlast
    exact fresh_congr (hs.others _ hne) (h.fresh i (hs.allocated i ▸ ha) hlast)
  · have hne : .slot i ≠ t.kernel.current := by
      intro he
      have ha := h.table.current i he.symm
      rw [← hs.allocated i, show (k.processes i).allocated = false from hfree] at ha
      cases ha
    rw [hother _ hne]
    exact h.free i (hs.allocated i ▸ hfree)
  · by_cases hidle : .idle = t.kernel.current
    · rw [hidle, hself]
      nofun
    · rw [hother _ hidle]
      exact h.left (Ne.symm hidle)

/-! ## Steps -/

theorem traceStep_goOn {op : KernelOp} (hop : op.switches = false) :
    traceStep t (.kernel op) = (kernelStep (System.boot t.kernel) op).map fun s => t.goOn s.kernel := by
  cases op with
  | timerTick r registers => cases hop
  | blockCurrent r registers => cases hop
  | _ => rfl

theorem traceStep_cases (hstep : traceStep t op = some t') :
    (∃ op', op = .kernel op' ∧ op'.switches = false ∧
      ∃ s, kernelStep (System.boot t.kernel) op' = some s ∧ t' = t.goOn s.kernel) ∨
    (∃ r registers f k, op = .kernel (.timerTick r registers) ∧
      schedulerTimerTick (.stack r) (t.kernel.setFrame (.stack r) registers) = .ok (f, k) ∧
      t' = t.switch (.frame (.stack r)) (.frame f) k) ∨
    (∃ r registers f k, op = .kernel (.blockCurrent r registers) ∧
      schedulerBlockCurrent (.stack r) (t.kernel.setFrame (.stack r) registers) = .ok (f, k) ∧
      t' = t.switch (.frame (.stack r)) (.frame f) k) ∨
    (∃ cpu k, op = .yield cpu ∧ schedulerYield cpu t.kernel = .ok (none, k) ∧ t' = t.goOn k) ∨
    ∃ cpu c k, op = .yield cpu ∧ schedulerYield cpu t.kernel = .ok (some c, k) ∧
      t' = t.switch (.cpu cpu) (.cpu c) k := by
  cases op with
  | kernel op =>
    cases hop : op.switches with
    | false =>
      rw [traceStep_goOn hop] at hstep
      obtain ⟨s, hs, rfl⟩ := Option.map_eq_some_iff.mp hstep
      exact .inl ⟨op, rfl, hop, s, hs, rfl⟩
    | true =>
      cases op with
      | timerTick r registers =>
        dsimp only [traceStep] at hstep
        split at hstep
        · cases hstep
        next f k htick =>
          cases hstep
          exact .inr (.inl ⟨r, registers, f, k, rfl, htick, rfl⟩)
      | blockCurrent r registers =>
        dsimp only [traceStep] at hstep
        split at hstep
        · cases hstep
        next f k hblock =>
          cases hstep
          exact .inr (.inr (.inl ⟨r, registers, f, k, rfl, hblock, rfl⟩))
      | _ => cases hop
  | yield cpu =>
    dsimp only [traceStep] at hstep
    split at hstep
    · cases hstep
    next k hyield =>
      cases hstep
      exact .inr (.inr (.inr (.inl ⟨cpu, k, rfl, hyield, rfl⟩)))
    next c k hyield =>
      cases hstep
      exact .inr (.inr (.inr (.inr ⟨cpu, c, k, rfl, hyield, rfl⟩)))

theorem traceStep_table (h : TableInv t.kernel) (hstep : traceStep t op = some t') :
    TableInv t'.kernel := by
  have hframe (r : Word) (registers : Registers) :
      Quiet t.kernel (t.kernel.setFrame (.stack r) registers) :=
    steps_of_eq rfl rfl rfl rfl
  rcases traceStep_cases hstep with ⟨op', -, -, s, hs, rfl⟩ | ⟨r, registers, f, k, -, htick, rfl⟩ |
    ⟨r, registers, f, k, -, hblock, rfl⟩ | ⟨cpu, k, -, hyield, rfl⟩ | ⟨cpu, c, k, -, hyield, rfl⟩
  · exact h.step (kernelStep_table h hs)
  · exact h.steps ((hframe r registers).trans (tick_quiet h.ticks h.idleTicks htick))
  · exact h.steps ((hframe r registers).trans (block_quiet hblock))
  · exact h.steps (yield_quiet hyield)
  · exact h.steps (yield_quiet hyield)

theorem ResumeInv.interrupt {r : FramePtr} (h : ResumeInv t) (ht : TableInv k)
    (hs : Suspends (fun s => { s with frame := some r }) t.kernel k)
    (hgoes : (k.current = t.kernel.current ∧ f = r) ∨ ∃ i, k.current = .slot i ∧
      .slot i ≠ t.kernel.current ∧
      f = resumeFrame i k ∧ (t.kernel.processes i).allocated = true ∧ ¬t.Yielded (.slot i)) :
    ResumeInv (t.switch (.frame r) (.frame f) k) := by
  refine h.switch ht hs (congrArg Saved.frame hs.self) fun e he => ?_
  rcases List.mem_cons.mp he with rfl | he
  · rcases hgoes with ⟨hcur, rfl⟩ | ⟨i, hcur, hne, rfl, ha, hyield⟩
    · unfold Resumption.Right
      dsimp only
      rw [hcur, update_self]
    · unfold Resumption.Right
      dsimp only
      rw [hcur, update_of_ne hne]
      have hsaved := hs.others _ hne
      cases hlast : t.last (.slot i) with
      | none =>
        obtain ⟨hframe, hstart⟩ := fresh_congr hsaved (h.fresh i ha hlast)
        refine .inl ?_
        rw [resumeFrame, hframe, hstart]
        rfl
      | some c =>
        cases c with
        | frame p =>
          have hframe : (k.processes i).interruptFrame = some p := holds_congr hsaved (h.holds _ _ hlast)
          rw [resumeFrame, hframe]
          rfl
        | cpu c => exact absurd ⟨c, hlast⟩ hyield
  · exact h.right e he

theorem first_allocated (h : k.First i) : (k.processes i).allocated = true := by
  obtain ⟨u, -, -, hrun⟩ := h
  exact hrun.1

theorem suspends_setFrame {g : Saved → Saved} {p : FramePtr}
    (h : Suspends g (k.setFrame p registers) k') : Suspends g k k' := ⟨h.self, h.others, h.allocated⟩

theorem tick_resumeInv {r : Word} (h : ResumeInv t) (ht : TableInv k)
    (hok : Unmixed t (.kernel (.timerTick r registers)))
    (hstep : schedulerTimerTick (.stack r) (t.kernel.setFrame (.stack r) registers) = .ok (f, k)) :
    ResumeInv (t.switch (.frame (.stack r)) (.frame f) k) := by
  refine h.interrupt ht (suspends_setFrame (tick_suspends hstep)) ?_
  rcases tick_resumes hstep with hgoes | ⟨i, hcur, hne, hf, hpick⟩ | ⟨-, -, hnone, c, hc, hstop⟩
  · exact .inl hgoes
  · refine .inr ⟨i, hcur, hne, hf, ?_, hok.1 i hne hpick⟩
    rcases hpick with hfirst | hdue
    · exact first_allocated hfirst
    · exact (due_blocked hdue).1
  · rcases hok.2 c hc with he | he | he
    · exact absurd he hstop.1
    · exact absurd he hstop.2
    · exact absurd he hnone

theorem block_resumeInv {r : Word} (h : ResumeInv t) (ht : TableInv k)
    (hok : Unmixed t (.kernel (.blockCurrent r registers)))
    (hstep : schedulerBlockCurrent (.stack r) (t.kernel.setFrame (.stack r) registers) = .ok (f, k)) :
    ResumeInv (t.switch (.frame (.stack r)) (.frame f) k) := by
  refine h.interrupt ht (suspends_setFrame (block_suspends hstep)) ?_
  rcases block_resumes hstep with hgoes | ⟨i, hcur, hne, hf, hfirst⟩ | ⟨-, -, hnone, c, hc, hstop⟩
  · exact .inl hgoes
  · exact .inr ⟨i, hcur, hne, hf, first_allocated hfirst, hok.1 i hne hfirst⟩
  · rcases hok.2 c hc with he | he
    · exact absurd he hstop
    · exact absurd he hnone

theorem yield_resumeInv {cpu c : CalleeSaved} (h : ResumeInv t) (ht : TableInv k)
    (hok : Unmixed t (.yield cpu)) (hstep : schedulerYield cpu t.kernel = .ok (some c, k)) :
    ResumeInv (t.switch (.cpu cpu) (.cpu c) k) := by
  obtain ⟨hne, rfl, hwho⟩ := yield_resumes hstep
  have hs := ((yield_suspends hstep).resolve_left fun h => nomatch h.1).2
  have hself : (k.pcb t.kernel.current).cpuState.load = cpu := by
    rw [show (k.pcb t.kernel.current).cpuState = _ from congrArg Saved.cpu hs.self]
    rfl
  refine h.switch ht hs hself fun e he => ?_
  rcases List.mem_cons.mp he with rfl | he
  · have hsaved := hs.others _ hne
    unfold Resumption.Right
    dsimp only
    rw [update_of_ne hne]
    cases hlast : t.last k.current with
    | none =>
      rcases hwho with ⟨i, hcur, hfirst⟩ | ⟨hcur, -⟩
      · rw [hcur] at hlast hsaved ⊢
        obtain ⟨-, hstart⟩ := fresh_congr hsaved (h.fresh i (first_allocated hfirst) hlast)
        refine .inr ?_
        rw [hstart]
        rfl
      · rw [hcur] at hlast hne
        exact absurd hlast (h.left (Ne.symm hne))
    | some saved =>
      cases saved with
      | cpu saved => exact congrArg Context.cpu (holds_congr hsaved (h.holds _ _ hlast))
      | frame p =>
        rcases hwho with ⟨i, hcur, hfirst⟩ | ⟨hcur, hnone, hback⟩
        · rw [hcur] at hlast hne
          exact absurd ⟨p, hlast⟩ (hok.1 i hne hfirst)
        · rw [hcur] at hlast hne
          obtain ⟨j, hj⟩ : ∃ j, t.kernel.current = .slot j := by
            cases hk : t.kernel.current with
            | idle => exact absurd hk.symm hne
            | slot j => exact ⟨j, rfl⟩
          rcases hok.2 j hj with he | he | he
          · exact absurd he (hback j hj)
          · exact absurd he hnone
          · exact absurd ⟨p, hlast⟩ he
  · exact h.right e he

theorem traceStep_inv (h : ResumeInv t) (hok : Unmixed t op) (hstep : traceStep t op = some t') :
    ResumeInv t' := by
  have ht := traceStep_table h.table hstep
  rcases traceStep_cases hstep with ⟨op', rfl, hop, s, hs, rfl⟩ | ⟨r, registers, f, k, rfl, htick, rfl⟩ |
    ⟨r, registers, f, k, rfl, hblock, rfl⟩ | ⟨cpu, k, rfl, hyield, rfl⟩ | ⟨cpu, c, k, rfl, hyield, rfl⟩
  · exact h.goOn ht (kernelStep_contexts hop hs)
  · exact tick_resumeInv h ht hok htick
  · exact block_resumeInv h ht hok hblock
  · have hk := ((yield_suspends hyield).resolve_right fun h => nomatch h.1).2
    exact h.goOn ht hk.keepsContexts
  · exact yield_resumeInv h ht hok hyield

def Traced.Faithful (t : Traced) : Prop := ∀ e ∈ t.resumed, e.Right

theorem ResumeInv.of_booted {k : Kernel} (h : k.Booted) : ResumeInv (Traced.boot k) where
  table := TableInv.of_booted h
  holds _ _ hc := by cases hc
  fresh i ha := by
    have hfree := h.free i
    rw [show (k.processes i).allocated = true from ha] at hfree
    cases hfree
  free _ _ := rfl
  left hne := absurd h.current hne
  right _ he := by cases he

theorem resumes_where_stopped {k : Kernel} (h0 : k.Booted) {ops : List SwitchOp}
    (hok : Along Unmixed traceStep (Traced.boot k) ops)
    (hrun : runs traceStep (Traced.boot k) ops = some t) :
    t.Faithful := by
  exact (runs_inv_along ResumeInv (fun _ _ _ h hok hstep => traceStep_inv h hok hstep)
    (ResumeInv.of_booted h0) hok hrun).right

end

/-! ## Two processes -/

def Traced.noneYielded (t : Traced) : Bool :=
  (List.range 32).all fun i => match t.last (.slot i) with | some (.cpu _) => false | _ => true

def Traced.noneInterrupted (t : Traced) : Bool :=
  (List.range 32).all fun i => match t.last (.slot i) with | some (.frame _) => false | _ => true

def unmixedTest (t : Traced) : SwitchOp → Bool
  | .kernel (.timerTick _ _) =>
    t.noneYielded && match t.kernel.current with
      | .idle => true
      | .slot c => (t.kernel.processes c).state == .running
  | .kernel (.blockCurrent _ _) =>
    t.noneYielded && match t.kernel.current, t.kernel.readyHead with
      | .idle, _ => true
      | .slot _, some i => decide (t.kernel.sched.slots i).Runnable
      | .slot _, none => false
  | .yield _ =>
    t.noneInterrupted && match t.kernel.current with
      | .idle => true
      | .slot c => (t.kernel.processes c).state == .running && (t.kernel.processes c).allocated &&
        (t.kernel.processes c).cpuState.esp != 0
  | _ => true

section

variable {t : Traced} {i : Nat}

theorem not_yielded (h : t.noneYielded = true) (hi : i < 32) : ¬t.Yielded (.slot i) := by
  rintro ⟨c, hc⟩
  have := List.all_eq_true.mp h i (List.mem_range.mpr hi)
  rw [hc] at this
  cases this

theorem not_interrupted (h : t.noneInterrupted = true) (hi : i < 32) : ¬t.Interrupted (.slot i) := by
  rintro ⟨p, hp⟩
  have := List.all_eq_true.mp h i (List.mem_range.mpr hi)
  rw [hp] at this
  cases this

theorem unmixed_of_test {op : SwitchOp} (ht : TableInv t.kernel) (h : unmixedTest t op = true) :
    Unmixed t op := by
  have hbound : ∀ i, (t.kernel.processes i).allocated = true → i < 32 :=
    fun i ha => lt_of_lt_of_le (ht.bound i ha) ht.count
  cases op with
  | yield cpu =>
    obtain ⟨hnone, hcur⟩ := Bool.and_eq_true_iff.mp h
    refine ⟨fun i _ hfirst => not_interrupted hnone (hbound i (first_allocated hfirst)),
      fun c hc => .inl ?_⟩
    rw [hc] at hcur
    simp only [Bool.and_eq_true, beq_iff_eq, bne_iff_ne] at hcur
    exact ⟨hcur.1.1, hcur.1.2, hcur.2⟩
  | kernel op =>
    cases op with
    | timerTick r registers =>
      obtain ⟨hnone, hcur⟩ := Bool.and_eq_true_iff.mp h
      refine ⟨fun i _ hpick => not_yielded hnone (hbound i ?_), fun c hc => .inl ?_⟩
      · exact hpick.elim first_allocated fun hdue => (due_blocked hdue).1
      · rw [hc] at hcur
        exact beq_iff_eq.mp hcur
    | blockCurrent r registers =>
      obtain ⟨hnone, hcur⟩ := Bool.and_eq_true_iff.mp h
      refine ⟨fun i _ hfirst => not_yielded hnone (hbound i (first_allocated hfirst)),
        fun c hc => .inr ?_⟩
      rw [hc] at hcur
      cases hhead : t.kernel.readyHead with
      | none =>
        rw [hhead] at hcur
        cases hcur
      | some i =>
        rw [hhead] at hcur
        exact ⟨i, ⟨[], hhead⟩, of_decide_eq_true hcur⟩
    | _ => trivial

end

def turnsOnTicks : List SwitchOp :=
  [.kernel (.createUser 0x400000), .kernel (.add 0), .kernel (.createUser 0x400000), .kernel (.add 1),
    .kernel (.timerTick 0x9000 zeroRegisters),
    .kernel (.timerTick 0x9100 zeroRegisters), .kernel (.timerTick 0x9200 zeroRegisters),
    .kernel (.blockCurrent 0x9300 zeroRegisters)]

theorem resumes_where_stopped_turns :
    ∃ t, runs traceStep (Traced.boot coldKernel) turnsOnTicks = some t ∧ t.Faithful ∧
    t.resumed.map (fun e => (e.process, e.loaded)) =
      [(.slot 1, .frame (.stack 0x9200)), (.slot 0, .frame (.stack 0x9100)),
        (.slot 1, .frame (.initial 1)), (.slot 0, .frame (.initial 0))] := by
  have hend : ((runs traceStep (Traced.boot coldKernel) turnsOnTicks).map fun t =>
      t.resumed.map fun e => (e.process, e.loaded)) =
      some [(.slot 1, .frame (.stack 0x9200)), (.slot 0, .frame (.stack 0x9100)),
        (.slot 1, .frame (.initial 1)), (.slot 0, .frame (.initial 0))] := by decide +kernel
  obtain ⟨t, hrun, ht⟩ := Option.map_eq_some_iff.mp hend
  refine ⟨t, hrun, resumes_where_stopped coldKernel_booted ?_ hrun, ht⟩
  exact along_of_check_inv (fun t => TableInv t.kernel) (fun _ _ _ h hstep => traceStep_table h hstep)
    (fun _ _ ht h => unmixed_of_test ht h) (TableInv.of_booted coldKernel_booted)
    (by decide +kernel : alongCheck unmixedTest traceStep (Traced.boot coldKernel) turnsOnTicks = true)

def yieldAfterTick : List SwitchOp :=
  [.kernel (.createUser 0x400000), .kernel (.add 0), .kernel (.createUser 0x400000), .kernel (.add 1),
    .kernel (.timerTick 0x9000 zeroRegisters),
    .kernel (.timerTick 0x9100 zeroRegisters), .yield ⟨0x8000, 0, 0, 0, 0⟩]

/-- It goes on with the top of its stack, as if it were new, and not in the frame at `0x9100`. -/
theorem yield_resumes_stale : ∃ t, coldKernel.Booted ∧
    runs traceStep (Traced.boot coldKernel) yieldAfterTick = some t ∧ ¬t.Faithful := by
  have hend : ((runs traceStep (Traced.boot coldKernel) yieldAfterTick).map fun t =>
      t.resumed.head?.map fun e => (e.loaded, e.saved)) =
      some (some (.cpu ⟨userStackTop, 0, 0, 0, 0⟩, some (.frame (.stack 0x9100)))) := by decide +kernel
  obtain ⟨t, hrun, ht⟩ := Option.map_eq_some_iff.mp hend
  refine ⟨t, coldKernel_booted, hrun, fun hfaithful => ?_⟩
  obtain ⟨e, he, heq⟩ := Option.map_eq_some_iff.mp ht
  obtain ⟨hloaded, hsaved⟩ := Prod.mk.inj heq
  have hright := hfaithful e (List.mem_of_head? he)
  unfold Resumption.Right at hright
  rw [hsaved] at hright
  dsimp only at hright
  rw [hloaded] at hright
  cases hright

end Ceblar
