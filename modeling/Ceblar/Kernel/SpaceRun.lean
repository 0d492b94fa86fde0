import Ceblar.Kernel.SpaceRefs

/-! # References over runs with programs from files

`SYS_EXEC`, `process_exec_path` and `process_create_from_path` build a space before they replace
one.
-/

namespace Ceblar

section

variable {disk : Disk} {path : List Byte} {o o' : Os} {k : Kernel}
variable {p : Word} {m m' : Vmm} {res : Option (List Byte)}

theorem scanString_inActive {space fuel : Nat}
    (h : scanString space fuel p m = .ok (res, m')) : InActive m m' := by
  induction fuel generalizing p m res with
  | zero =>
    cases h
    exact InActive.refl _
  | succ fuel ih =>
    unfold scanString at h
    split at h
    · cases h
      exact InActive.refl _
    · obtain ⟨⟨rc, m1⟩, hvalid, h⟩ := bind_eq_ok.mp h
      refine (inActive_validate hvalid).trans ?_
      dsimp only at h
      split at h
      · cases h
        exact InActive.refl _
      · obtain ⟨⟨c, m2⟩, hload, h⟩ := bind_eq_ok.mp h
        refine (inActive_kernelLoad hload).trans ?_
        dsimp only at h
        split at h
        · cases h
          exact InActive.refl _
        · obtain ⟨⟨rest, m3⟩, hrest, h⟩ := bind_eq_ok.mp h
          cases h
          exact ih hrest

theorem userString_inv (h : userString p k = .ok (res, m')) :
    InActive k.vmm m' ∧ (res ≠ none → (k.pcb k.current).addressSpace ≠ none) := by
  unfold userString at h
  split at h
  · cases h
    exact ⟨InActive.refl _, fun hne => absurd rfl hne⟩
  · split at h
    · cases h
      exact ⟨InActive.refl _, fun hne => absurd rfl hne⟩
    · rename_i space hspace
      refine ⟨scanString_inActive h, fun _ => ?_⟩
      rw [hspace]
      exact Option.some_ne_none space

theorem loadFile_kernel {res : Except Int (Word × Image × Word)}
    (h : loadFile disk path o = .ok (res, o')) :
    o'.kernel = { o.kernel with vmm := o'.kernel.vmm } ∧ SameSpaces o.kernel.vmm o'.kernel.vmm := by
  dsimp only [loadFile] at h
  split at h
  · cases h
    exact ⟨rfl, SameSpaces.refl _⟩
  · obtain ⟨⟨image, o1⟩, hk, h⟩ := bind_eq_ok.mp h
    obtain ⟨hkernel, -, hin⟩ := osKmalloc_inv hk
    dsimp only at h
    split at h
    · cases h
      exact ⟨hkernel, hin⟩
    · split at h
      · obtain ⟨o2, hfree, h⟩ := bind_eq_ok.mp h
        cases h
        rw [(osKfree_inv hfree).1]
        exact ⟨hkernel, hin⟩
      · cases h
        exact ⟨hkernel, hin⟩

theorem buildSpace_held {r : Fin maxProcesses → Option Nat} {image : Image} {n : Word} {rc : Int}
    {res : Except Int (Nat × Word)} (hm : HeldBy m r) (h : buildSpace image n rc m = .ok (res, m')) :
    HeldBy m' (withSpare (res.toOption.map Prod.fst) r) := by
  unfold buildSpace at h
  split at h
  · cases h
    exact heldBy_spare.mpr hm
  · rename_i space m1 hcreate
    have hbuild := hm.build hcreate
    obtain ⟨hpage, hsome⟩ := userAllocPage_keeps m1 space (userStackTop - 4096) pageWrite
    split at h
    · rename_i m2 hstack
      rw [hstack] at hpage
      cases h
      exact heldBy_spare.mpr (HeldBy.discard (hbuild.congr hpage))
    · rename_i m2 m3 hstack
      rw [hstack] at hpage hsome
      obtain rfl : m2 = m3 := hsome m2 rfl
      obtain ⟨⟨entry, m4⟩, hload, h⟩ := bind_eq_ok.mp h
      have hfill := (hbuild.congr hpage).congr (elf32Load_outside hload).1
      cases entry with
      | none =>
        cases h
        exact heldBy_spare.mpr (HeldBy.discard hfill)
      | some entry =>
        cases h
        exact hfill

end

/-! ## The invariant -/

structure SpaceInv (k : Kernel) : Prop where
  table : TableInv k
  idle : k.idle.addressSpace = none
  held : k.RefsExact

section

variable {disk : Disk} {path : List Byte} {o o' : Os} {k k' : Kernel}
variable {m : Vmm} {c i : Nat} {rc : Int}

theorem SpaceInv.keeps (h : SpaceInv k) (ht : TableInv k') (hs : KeepsSpaces k k') : SpaceInv k' :=
  ⟨ht, hs.idle.trans h.idle, hs.refsExact h.held⟩

theorem TableInv.vmm (h : TableInv k) (m : Vmm) : TableInv { k with vmm := m } :=
  h.congr (fun _ => ⟨rfl, rfl, rfl, rfl⟩) rfl rfl ⟨rfl, rfl⟩

theorem SpaceInv.vmm (h : SpaceInv k) (hm : KeepsRefs k.vmm m) : SpaceInv { k with vmm := m } :=
  h.keeps (h.table.vmm m) (keepsSpaces_vmm hm)

theorem SpaceInv.current_slot (h : SpaceInv k) (hc : k.current = .slot c) :
    (k.processes c).allocated = true ∧ c < 32 :=
  ⟨h.table.current c hc, (h.table.bound c (h.table.current c hc)).trans_le h.table.count⟩

theorem loadFile_inv (hinv : SpaceInv o.kernel) {res : Except Int (Word × Image × Word)}
    (h : loadFile disk path o = .ok (res, o')) : SpaceInv o'.kernel := by
  obtain ⟨hkernel, hin⟩ := loadFile_kernel h
  rw [hkernel]
  exact hinv.vmm hin.inActive.toKeepsRefs

theorem TableInv.replace (h : TableInv k) (m : Vmm) (space : Nat) (entry : Word) :
    TableInv (({ k with vmm := m } : Kernel).modify c fun p => p.replace space entry) := by
  refine h.congr (fun i => ?_) rfl rfl ⟨rfl, rfl⟩
  by_cases hi : i = c
  · subst hi
    rw [modify_self]
    exact ⟨rfl, rfl, rfl, rfl⟩
  · rw [modify_ne _ _ hi]
    exact ⟨rfl, rfl, rfl, rfl⟩

theorem SpaceInv.replace (h : SpaceInv k) {space : Nat} (hc : k.current = .slot c) (entry : Word)
    (hm : HeldBy m (withSpare (some space) k.spaceOf)) :
    SpaceInv (({ k with
                 vmm := ((k.processes c).addressSpace.map (vmmDestroyAddressSpace m)).getD m } :
                   Kernel).modify c
      fun p => p.replace space entry) := by
  obtain ⟨ha, hlt⟩ := h.current_slot hc
  refine ⟨h.table.replace _ space entry, h.idle, refsExact_exchange hlt ha hm ⟨ha, rfl⟩⟩

theorem ee_inv (hinv : SpaceInv o.kernel) {a : Word} (h : ee disk a o = .ok (rc, o')) :
    SpaceInv o'.kernel := by
  obtain ⟨⟨path, vmm⟩, hstring, h⟩ := bind_eq_ok.mp h
  obtain ⟨hin, hspace⟩ := userString_inv hstring
  have h1 : SpaceInv (o.setVmm vmm).kernel := hinv.vmm hin.toKeepsRefs
  cases path with
  | none =>
    cases h
    exact h1
  | some path =>
    obtain ⟨⟨file, o2⟩, hfile, h⟩ := bind_eq_ok.mp h
    have h2 : SpaceInv o2.kernel := loadFile_inv h1 hfile
    cases file with
    | error rc =>
      cases h
      exact h2
    | ok file =>
      obtain ⟨image, bytes, n⟩ := file
      obtain ⟨⟨built, vmm3⟩, hbuild, h⟩ := bind_eq_ok.mp h
      have h3 := buildSpace_held h2.held hbuild
      cases built with
      | error rc =>
        obtain ⟨o4, hfree, h⟩ := bind_eq_ok.mp h
        cases h
        rw [(osKfree_inv hfree).1]
        exact ⟨h2.table.vmm _, h2.idle, heldBy_spare.mp h3⟩
      | ok built =>
        obtain ⟨space, entry⟩ := built
        obtain ⟨o4, hfree, h⟩ := bind_eq_ok.mp h
        cases h
        rw [(osKfree_inv hfree).1]
        -- a path was read, so the caller has a space and is not the idle process
        have hcur : o2.kernel.current = o.kernel.current := by
          rw [(loadFile_kernel hfile).1]
          rfl
        cases hc : o.kernel.current with
        | idle =>
          refine absurd ?_ (hspace (by simp))
          rw [hc]
          exact hinv.idle
        | slot c =>
          have hslot : (o2.setVmm vmm3).kernel.current = .slot c := hcur.trans hc
          have hend := h2.replace (hcur.trans hc) entry (h3.congr (keepsRefs_switch vmm3 (some space)))
          dsimp only
          rw [hslot]
          exact hend

/-- What `scheduler_set_current` leaves, in a machine whose memory is `vmm`. -/
def Kernel.entered (k : Kernel) (vmm : Vmm) (i : Nat) : Kernel :=
  ({ k with vmm, current := .slot i } : Kernel).modify i fun p =>
    { p with state := .running, interruptFrame := none }

theorem enterUser_cases (k : Kernel) (i : Nat) :
    (((k.processes i).userMode = false ∨ (k.processes i).addressSpace = none) ∧
      processEnterUser i k = k) ∨
    ∃ vmm, KeepsRefs k.vmm vmm ∧ processEnterUser i k = k.entered vmm i := by
  dsimp only [processEnterUser, schedulerSetCurrent]
  split
  · rename_i h
    exact .inl ⟨by simpa using h, rfl⟩
  · refine .inr ⟨_, keepsRefs_switch k.vmm (k.processes i).addressSpace, ?_⟩
    simp [Kernel.entered, Kernel.modify]

theorem TableInv.entered (h : TableInv k) (ha : (k.processes i).allocated = true) (vmm : Vmm) :
    TableInv (k.entered vmm i) := by
  have hcur : TableInv { k with vmm, current := .slot i } := by
    refine ⟨h.count, h.bound, h.pid, h.parent, fun j hj => ?_, h.idlePid, h.ticks, h.idleTicks⟩
    cases hj
    exact ha
  refine hcur.congr (fun j => ?_) rfl rfl ⟨rfl, rfl⟩
  by_cases hj : j = i
  · subst hj
    simp [Kernel.entered, Kernel.modify]
  · simp [Kernel.entered, Kernel.modify, hj]

theorem SpaceInv.entered {vmm : Vmm} (h : SpaceInv k) (ha : (k.processes i).allocated = true)
    (hm : KeepsRefs k.vmm vmm) : SpaceInv (k.entered vmm i) := by
  have hset : KeepsSpaces k { k with vmm, current := .slot i } := keepsSpaces_of_eq rfl rfl hm
  refine h.keeps (h.table.entered ha vmm) (hset.trans (keepsSpaces_modify _ i ?_))
  exact fun _ => ⟨rfl, rfl⟩

theorem SpaceInv.enterUser (h : SpaceInv k) (hc : k.current = .slot c) :
    SpaceInv (processEnterUser c k) := by
  rcases enterUser_cases k c with ⟨-, he⟩ | ⟨vmm, hm, he⟩
  · rwa [he]
  · rw [he]
    exact h.entered (h.table.current c hc) hm

theorem execPath_inv (hinv : SpaceInv o.kernel) (hne : o.kernel.current ≠ .idle)
    (h : processExecPath disk path o = .ok (rc, o')) : SpaceInv o'.kernel := by
  obtain ⟨⟨file, o2⟩, hfile, h⟩ := bind_eq_ok.mp h
  have h2 : SpaceInv o2.kernel := loadFile_inv hinv hfile
  cases file with
  | error rc =>
    cases h
    exact h2
  | ok file =>
    obtain ⟨image, bytes, n⟩ := file
    obtain ⟨⟨built, vmm3⟩, hbuild, h⟩ := bind_eq_ok.mp h
    have h3 := buildSpace_held h2.held hbuild
    cases built with
    | error rc =>
      obtain ⟨o4, hfree, h⟩ := bind_eq_ok.mp h
      cases h
      rw [(osKfree_inv hfree).1]
      exact ⟨h2.table.vmm _, h2.idle, heldBy_spare.mp h3⟩
    | ok built =>
      obtain ⟨space, entry⟩ := built
      obtain ⟨o4, hfree, h⟩ := bind_eq_ok.mp h
      cases h
      have hcur : o2.kernel.current = o.kernel.current := by
        rw [(loadFile_kernel hfile).1]
      cases hc : o.kernel.current with
      | idle => exact absurd hc hne
      | slot c =>
        have hslot : (o2.setVmm vmm3).kernel.current = .slot c := hcur.trans hc
        have hend := h2.replace (hcur.trans hc) entry h3
        have h4 := (osKfree_inv hfree).1
        dsimp only at h4 ⊢
        rw [hslot] at h4 ⊢
        rw [h4]
        exact hend.enterUser (hcur.trans hc)

theorem elfLoader_keeps (image : Image) (n : Word) (space : Nat) (m : Vmm) :
    KeepsRefs m (elfLoader image n space m).2 := by
  unfold elfLoader
  cases h : elf32Load image n space m with
  | error e => exact KeepsRefs.refl m
  | ok res => exact (elf32Load_outside h).1

end

section

variable {s s' : System} {o o' : Os}

theorem Forked.idle {k : Kernel} {res : Option Nat × Kernel} (h : Forked k res) :
    res.2.idle.addressSpace = k.idle.addressSpace := by
  cases h with
  | creation hc => rw [hc.idle]
  | ended hj ha hexit =>
    rw [(exit_marks hexit).keepsSpaces.idle, hj.idle]

def KernelOp.readsFile : KernelOp → Bool
  | .createFromPath _ => true
  | _ => false

theorem kernelStep_spaces {op : KernelOp} (hop : op.readsFile = false) (hinv : SpaceInv s.kernel)
    (h : kernelStep s op = some s') : SpaceInv s'.kernel := by
  have ht : TableInv s'.kernel := hinv.table.step (kernelStep_table hinv.table h)
  have hcreated {res : Option Nat × Kernel} (hf : Forked s.kernel res) (hrefs : res.2.RefsExact)
      (hs : s' = s.create res) : SpaceInv s'.kernel := by
    subst hs
    exact ⟨ht, hf.idle.trans hinv.idle, hrefs⟩
  cases op with
  | createEntry entry =>
    exact hcreated (.creation (createEntry_creation entry _))
      ((createEntry_spaces entry _).refsExact (newPcb_refs hinv.held)) (Option.some.inj h).symm
  | createThread entry =>
    exact hcreated (.creation (createThread_creation entry _))
      (createThread_refs hinv.table hinv.idle hinv.held entry) (Option.some.inj h).symm
  | createUser entry =>
    exact hcreated (.creation (createUser_creation entry _))
      ((createUser_spaces entry _).refsExact (newPcb_refs hinv.held)) (Option.some.inj h).symm
  | createFromPath image => cases hop
  | fork =>
    obtain ⟨res, hfork, rfl⟩ := Option.map_eq_some_iff.mp h
    have hf := toOption_eq_some hfork
    exact hcreated (fork_inv hf) (fork_refs hinv.held hf) rfl
  | timerTick r registers =>
    obtain ⟨⟨f, htick⟩, -⟩ := after_map_inv h
    have hframe : KeepsSpaces s.kernel (s.kernel.setFrame (.stack r) registers) :=
      keepsSpaces_of_eq rfl rfl (KeepsRefs.refl _)
    exact hinv.keeps ht (hframe.trans (tick_spaces htick))
  | blockCurrent r registers =>
    obtain ⟨⟨f, hblock⟩, -⟩ := after_map_inv h
    have hframe : KeepsSpaces s.kernel (s.kernel.setFrame (.stack r) registers) :=
      keepsSpaces_of_eq rfl rfl (KeepsRefs.refl _)
    exact hinv.keeps ht (hframe.trans (block_spaces hblock))
  | add | exitWithStatus | sendSignal | futexWait | futexWake | pollTimeouts | timerIrq | memory =>
    exact hinv.keeps ht (kernelStep_marks rfl h).keepsSpaces
  | wait child status =>
    obtain ⟨⟨rc, hwait⟩, -⟩ := after_map_inv h
    obtain ⟨hrefs, hidle⟩ := wait_refs hinv.table hinv.held hwait
    exact ⟨ht, hidle.trans hinv.idle, hrefs⟩

theorem createFromFile_inv {disk : Disk} {path : List Byte} {i : Option Nat} (hinv : SpaceInv o.kernel)
    (h : processCreateFromFile disk path o = .ok (i, o')) : SpaceInv o'.kernel := by
  obtain ⟨⟨file, o2⟩, hfile, h⟩ := bind_eq_ok.mp h
  have h2 : SpaceInv o2.kernel := loadFile_inv hinv hfile
  cases file with
  | error rc =>
    cases h
    exact h2
  | ok file =>
    obtain ⟨image, bytes, n⟩ := file
    obtain ⟨o4, hfree, h⟩ := bind_eq_ok.mp h
    cases h
    have hcreation := createFromPath_creation (some (elfLoader bytes n)) o2.kernel
    rw [(osKfree_inv hfree).1]
    exact ⟨h2.table.step hcreation.table, (congrArg Pcb.addressSpace hcreation.idle).trans h2.idle,
      createFromPath_refs (elfLoader_keeps bytes n) h2.held⟩

end

/-! ## Runs -/

inductive OsOp where
  | kernel (op : KernelOp) (h : op.readsFile = false)
  | createFromFile (disk : Disk) (path : List Byte)
  | exec (disk : Disk) (a : Word)
  | execPath (disk : Disk) (path : List Byte)
  | yield (cpu : CalleeSaved)
  /-- `process_enter_user`, or only `scheduler_set_current`, as at the end of `kmain`. -/
  | enter (user : Bool) (i : Nat)

abbrev OsOp.createEntry (entry : Word) : OsOp := .kernel (.createEntry entry) rfl
abbrev OsOp.createThread (entry : Word) : OsOp := .kernel (.createThread entry) rfl
abbrev OsOp.createUser (entry : Word) : OsOp := .kernel (.createUser entry) rfl
abbrev OsOp.add (i : Nat) : OsOp := .kernel (.add i) rfl
abbrev OsOp.timerTick (a : Word) (r : Registers) : OsOp := .kernel (.timerTick a r) rfl
abbrev OsOp.blockCurrent (a : Word) (r : Registers) : OsOp := .kernel (.blockCurrent a r) rfl
abbrev OsOp.exitWithStatus (pid status : Word) : OsOp := .kernel (.exitWithStatus pid status) rfl
abbrev OsOp.wait (child status : Word) : OsOp := .kernel (.wait child status) rfl
abbrev OsOp.sendSignal (pid signal : Word) : OsOp := .kernel (.sendSignal pid signal) rfl

def Kernel.canEnter (k : Kernel) (i : Nat) : Bool :=
  (k.processes i).allocated && (k.processes i).state != .zombie && k.mayEnter i

def osStep (o : Os) : OsOp → Option Os
  | .kernel op _ => (kernelStep (System.boot o.kernel) op).map fun s => { o with kernel := s.kernel }
  | .createFromFile disk path =>
    (processCreateFromFile disk path o).toOption.map Prod.snd
  | .exec disk a => (ee disk a o).toOption.map Prod.snd
  | .execPath disk path => (processExecPath disk path o).toOption.map Prod.snd
  | .yield cpu => (schedulerYield cpu o.kernel).toOption.map fun r => { o with kernel := r.2 }
  | .enter user i =>
    if o.kernel.canEnter i then
      some { o with
             kernel := if user then processEnterUser i o.kernel else schedulerSetCurrent i o.kernel }
    else none

structure Os.Booted (o : Os) : Prop where
  kernel : o.kernel.Booted
  idle : o.kernel.idle.addressSpace = none
  unused : ∀ sp, o.kernel.vmm.spaceUsed sp = false
  refs : ∀ sp, (o.kernel.vmm.spaces sp).refs = 0

/-- `process_exec_path` is left to the processes of the table. -/
def NotIdleExec (o : Os) (op : OsOp) : Prop :=
  ∀ disk path, op = .execPath disk path → o.kernel.current ≠ .idle

theorem osStep_enter {o o' : Os} {user : Bool} {i : Nat} (h : osStep o (.enter user i) = some o') :
    (o.kernel.processes i).allocated = true ∧ (o.kernel.processes i).state ≠ .zombie ∧
      (o' = o ∨ ∃ vmm, KeepsRefs o.kernel.vmm vmm ∧
        o' = { o with kernel := o.kernel.entered vmm i }) := by
  dsimp only [osStep] at h
  split at h
  · rename_i hmay
    simp only [Kernel.canEnter, Bool.and_eq_true, bne_iff_ne] at hmay
    refine ⟨hmay.1.1, hmay.1.2, ?_⟩
    cases h
    cases user with
    | false => exact .inr ⟨o.kernel.vmm, KeepsRefs.refl _, rfl⟩
    | true =>
      rcases enterUser_cases o.kernel i with ⟨-, he⟩ | ⟨vmm, hm, he⟩
      · exact .inl (by simp [he])
      · exact .inr ⟨vmm, hm, by simp [he]⟩
  · cases h

theorem osStep_inv {o o' : Os} {op : OsOp} (hinv : SpaceInv o.kernel) (hop : NotIdleExec o op)
    (h : osStep o op = some o') : SpaceInv o'.kernel := by
  cases op with
  | kernel op hreads =>
    obtain ⟨s, hs, rfl⟩ := Option.map_eq_some_iff.mp h
    exact kernelStep_spaces hreads (s := System.boot o.kernel) hinv hs
  | createFromFile disk path =>
    obtain ⟨⟨i, o1⟩, hcreate, rfl⟩ := Option.map_eq_some_iff.mp h
    exact createFromFile_inv hinv (toOption_eq_some hcreate)
  | exec disk a =>
    obtain ⟨⟨rc, o1⟩, hexec, rfl⟩ := Option.map_eq_some_iff.mp h
    exact ee_inv hinv (toOption_eq_some hexec)
  | execPath disk path =>
    obtain ⟨⟨rc, o1⟩, hexec, rfl⟩ := Option.map_eq_some_iff.mp h
    exact execPath_inv hinv (hop disk path rfl) (toOption_eq_some hexec)
  | yield cpu =>
    obtain ⟨⟨loaded, k⟩, hyield, rfl⟩ := Option.map_eq_some_iff.mp h
    have hy := toOption_eq_some hyield
    exact hinv.keeps (hinv.table.steps (yield_quiet hy)) (yield_spaces hy)
  | enter user i =>
    obtain ⟨ha, -, rfl | ⟨vmm, hm, rfl⟩⟩ := osStep_enter h
    · exact hinv
    · exact hinv.entered ha hm

theorem SpaceInv.of_booted {o : Os} (h : o.Booted) : SpaceInv o.kernel := by
  refine ⟨TableInv.of_booted h.kernel, h.idle, ?_⟩
  have hnone : o.kernel.spaceOf = fun _ => none := funext fun i => spaceOf_free (h.kernel.free i)
  have hzero : ∀ sp, count o.kernel.spaceOf sp = 0 := fun sp => by
    rw [hnone, count_eq_zero]
    intro i hi
    cases hi
  refine heldBy_iff.mpr fun sp => ?_
  rw [hzero, h.unused, h.refs]
  simp

/-- The counts are exact in every state of a run in which the idle process executes no program. -/
theorem space_refs_exact {o : Os} (h0 : o.Booted) {ops : List OsOp} {o' : Os}
    (hcalls : Along NotIdleExec osStep o ops) (hrun : runs osStep o ops = some o') :
    o'.kernel.RefsExact :=
  (runs_inv_along (fun o => SpaceInv o.kernel) (fun _ _ _ hinv hop hstep => osStep_inv hinv hop hstep)
    (SpaceInv.of_booted h0) hcalls hrun).held

def coldOs : Os where
  kernel := { coldKernel with vmm := { coldMachine with phys := fun _ i => filePath.getD i 0 } }
  mem := fun _ => 0
  heapHead := 0
  heapVirtTop := heapVirtStart
  heapArea := 0x200000
  vfs := { files := fun _ _ => { name := none, flags := 0, position := 0, kind := 0, fat := ⟨0, 0,
    0, false⟩ }, activePid := 1 }
  execPending := none

theorem coldOs_booted : coldOs.Booted :=
  ⟨⟨fun _ => rfl, fun _ => rfl, fun _ => rfl, fun _ => rfl, rfl, rfl, rfl, rfl, rfl⟩, rfl,
    fun _ => rfl, fun _ => rfl⟩

def notIdleExecTest (o : Os) : OsOp → Bool
  | .execPath _ _ => o.kernel.current ≠ .idle
  | _ => true

theorem notIdleExec_of_test {o : Os} {op : OsOp} (h : notIdleExecTest o op = true) :
    NotIdleExec o op := by
  rintro disk path rfl
  simpa [notIdleExecTest] using h

def execRun : List OsOp :=
  [.createUser 0x400000, .enter true 0,
    .exec (oneFile (shortProgram 0 4) 84) 0xbfe000,
    .createFromFile (oneFile (shortProgram 0 4) 84) filePath,
    .execPath (oneFile (shortProgram 0 4) 84) filePath]

theorem space_refs_exact_execRun : ∃ o, runs osStep coldOs execRun = some o ∧ o.kernel.RefsExact ∧
    ((o.kernel.processes 0).addressSpace, (o.kernel.processes 1).addressSpace) = (some 0, some 2) := by
  have hcalls : Along NotIdleExec osStep coldOs execRun :=
    along_of_check (fun _ _ => notIdleExec_of_test)
      (by decide +kernel : alongCheck notIdleExecTest osStep coldOs execRun = true)
  have hend : ((runs osStep coldOs execRun).map fun o =>
      ((o.kernel.processes 0).addressSpace, (o.kernel.processes 1).addressSpace)) =
        some (some 0, some 2) := by
    decide +kernel
  obtain ⟨o, ho, he⟩ := Option.map_eq_some_iff.mp hend
  exact ⟨o, ho, space_refs_exact coldOs_booted hcalls ho, he⟩

/-- The idle process executes a program: its space is in use, and no PCB of the table points to it. -/
theorem idle_space_uncounted : ∃ o, coldOs.Booted ∧
    runs osStep coldOs [.execPath (oneFile (shortProgram 0 4) 84) filePath] = some o ∧
    ¬o.kernel.RefsExact := by
  have hend : ((runs osStep coldOs [.execPath (oneFile (shortProgram 0 4) 84) filePath]).map fun o =>
      (o.kernel.vmm.spaceUsed 0, decide (∀ i : Fin maxProcesses, o.kernel.spaceOf i = none))) =
        some (true, true) := by
    decide +kernel
  obtain ⟨o, ho, he⟩ := Option.map_eq_some_iff.mp hend
  obtain ⟨hused, hnone⟩ := Prod.mk.inj he
  refine ⟨o, coldOs_booted, ho, fun hexact => ?_⟩
  obtain ⟨i, hi⟩ := (hexact 0).1.mp hused
  rw [of_decide_eq_true hnone i] at hi
  cases hi

end Ceblar
