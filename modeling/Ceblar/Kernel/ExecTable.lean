import Ceblar.Kernel.SpaceRun

/-! # The process table over runs with programs from files

What `SYS_EXEC`, `process_exec_path` and `process_create_from_path` do to the processes, and that
the table stays in order.
-/

namespace Ceblar

section

variable {disk : Disk} {path : List Byte} {o o' : Os} {k : Kernel}

/-! ## One inversion for each -/

theorem loadFile_pending {res : Except Int (Word × Image × Word)}
    (h : loadFile disk path o = .ok (res, o')) :
    o'.execPending = o.execPending ∧ ∀ rc, res = .error rc → rc ≠ 0 := by
  dsimp only [loadFile] at h
  split at h
  · cases h
    exact ⟨rfl, by rintro rc ⟨⟩; decide⟩
  · obtain ⟨⟨image, o1⟩, hk, h⟩ := bind_eq_ok.mp h
    have h1 := osKmalloc_pending hk
    dsimp only at h
    split at h
    · cases h
      exact ⟨h1, by rintro rc ⟨⟩; decide⟩
    · split at h
      · obtain ⟨o2, hfree, h⟩ := bind_eq_ok.mp h
        cases h
        exact ⟨(osKfree_pending hfree).trans h1, by rintro rc ⟨⟩; decide⟩
      · cases h
        exact ⟨h1, by rintro rc ⟨⟩⟩

theorem buildSpace_error {image : Image} {n : Word} {stackError rc : Int} {m m' : Vmm}
    (hne : stackError ≠ 0) (h : buildSpace image n stackError m = .ok (.error rc, m')) :
    rc ≠ 0 := by
  unfold buildSpace at h
  split at h
  · cases h
    decide
  · split at h
    · cases h
      exact hne
    · obtain ⟨⟨entry, m1⟩, -, h⟩ := bind_eq_ok.mp h
      cases entry with
      | none =>
        cases h
        decide
      | some entry => cases h

theorem modifyRef_vmm (k : Kernel) (f : Pcb → Pcb) (ref : PcbRef) (m : Vmm) :
    { k.modifyRef f ref with vmm := m } = ({ k with vmm := m } : Kernel).modifyRef f ref := by
  cases ref with
  | idle => rfl
  | slot i => rfl

theorem ee_cases {a : Word} {rc : Int} (h : ee disk a o = .ok (rc, o')) :
    (rc ≠ 0 ∧ (∃ vmm, o'.kernel = { o.kernel with vmm }) ∧ o'.execPending = o.execPending) ∨
    rc = 0 ∧ ∃ space entry, o'.execPending = some (o.kernel.current, entry) ∧ ∃ vmm,
      o'.kernel = ({ o.kernel with vmm } : Kernel).modifyRef
        (fun p => p.replace space entry) o.kernel.current := by
  obtain ⟨⟨path, vmm⟩, -, h⟩ := bind_eq_ok.mp h
  cases path with
  | none =>
    cases h
    exact .inl ⟨by decide, ⟨vmm, rfl⟩, rfl⟩
  | some path =>
    obtain ⟨⟨file, ⟨k2, mem2, head2, top2, area2, vfs2, pending2⟩⟩, hfile, h⟩ := bind_eq_ok.mp h
    obtain ⟨m2, rfl⟩ : ∃ m2, k2 = { o.kernel with vmm := m2 } := ⟨_, (loadFile_kernel hfile).1⟩
    obtain ⟨hpending, hrc⟩ := loadFile_pending hfile
    cases file with
    | error rc =>
      cases h
      exact .inl ⟨hrc _ rfl, ⟨m2, rfl⟩, hpending⟩
    | ok file =>
      obtain ⟨image, bytes, n⟩ := file
      obtain ⟨⟨built, vmm3⟩, hbuild, h⟩ := bind_eq_ok.mp h
      cases built with
      | error rc =>
        obtain ⟨o4, hfree, h⟩ := bind_eq_ok.mp h
        cases h
        exact .inl ⟨buildSpace_error (by decide) hbuild, ⟨vmm3, (osKfree_inv hfree).1⟩,
          (osKfree_pending hfree).trans hpending⟩
      | ok built =>
        obtain ⟨space, entry⟩ := built
        obtain ⟨o4, hfree, h⟩ := bind_eq_ok.mp h
        cases h
        refine .inr ⟨rfl, space, entry, osKfree_pending hfree, ?_⟩
        rw [(osKfree_inv hfree).1]
        exact ⟨_, modifyRef_vmm _ _ _ _⟩

theorem enterUserRef_cases (k : Kernel) (ref : PcbRef) :
    (((k.pcb ref).userMode = false ∨ (k.pcb ref).addressSpace = none) ∧ processEnterUserRef ref k = k) ∨
    ∃ vmm, processEnterUserRef ref k = ({ k with vmm, current := ref } : Kernel).modifyRef
      (fun p => { p with state := .running, interruptFrame := none }) ref := by
  cases ref with
  | idle =>
    dsimp only [processEnterUserRef]
    split
    · rename_i h
      exact .inl ⟨by simpa [Kernel.pcb] using h, rfl⟩
    · exact .inr ⟨_, rfl⟩
  | slot i =>
    rcases enterUser_cases k i with h | ⟨vmm, -, h⟩
    · exact .inl h
    · exact .inr ⟨vmm, h⟩

theorem execPath_cases {rc : Int} (h : processExecPath disk path o = .ok (rc, o')) :
    o'.execPending = o.execPending ∧
    ((∃ vmm, o'.kernel = { o.kernel with vmm }) ∨ ∃ space entry vmm,
      o'.kernel = processEnterUserRef o.kernel.current
        (({ o.kernel with vmm } : Kernel).modifyRef
          (fun p => p.replace space entry) o.kernel.current)) := by
  obtain ⟨⟨file, ⟨k2, mem2, head2, top2, area2, vfs2, pending2⟩⟩, hfile, h⟩ := bind_eq_ok.mp h
  obtain ⟨m2, rfl⟩ : ∃ m2, k2 = { o.kernel with vmm := m2 } := ⟨_, (loadFile_kernel hfile).1⟩
  have hpending := (loadFile_pending hfile).1
  cases file with
  | error rc =>
    cases h
    exact ⟨hpending, .inl ⟨m2, rfl⟩⟩
  | ok file =>
    obtain ⟨image, bytes, n⟩ := file
    obtain ⟨⟨built, vmm3⟩, hbuild, h⟩ := bind_eq_ok.mp h
    cases built with
    | error rc =>
      obtain ⟨o4, hfree, h⟩ := bind_eq_ok.mp h
      cases h
      exact ⟨(osKfree_pending hfree).trans hpending, .inl ⟨vmm3, (osKfree_inv hfree).1⟩⟩
    | ok built =>
      obtain ⟨space, entry⟩ := built
      obtain ⟨o4, hfree, h⟩ := bind_eq_ok.mp h
      cases h
      refine ⟨(osKfree_pending hfree).trans hpending, .inr ⟨space, entry, ?_⟩⟩
      dsimp only
      rw [(osKfree_inv hfree).1]
      exact ⟨_, congrArg _ (modifyRef_vmm _ _ _ _)⟩

theorem createFromFile_cases {i : Option Nat}
    (h : processCreateFromFile disk path o = .ok (i, o')) :
    o'.execPending = o.execPending ∧
      ∃ vmm, (i = none ∧ o'.kernel = { o.kernel with vmm }) ∨
      Creation { o.kernel with vmm } (i, o'.kernel) := by
  obtain ⟨⟨file, o2⟩, hfile, h⟩ := bind_eq_ok.mp h
  obtain ⟨hkernel, -⟩ := loadFile_kernel hfile
  obtain ⟨hpending, -⟩ := loadFile_pending hfile
  cases file with
  | error rc =>
    cases h
    exact ⟨hpending, _, .inl ⟨rfl, hkernel⟩⟩
  | ok file =>
    obtain ⟨image, bytes, n⟩ := file
    obtain ⟨o4, hfree, h⟩ := bind_eq_ok.mp h
    cases h
    refine ⟨(osKfree_pending hfree).trans hpending, o2.kernel.vmm, .inr ?_⟩
    rw [(osKfree_inv hfree).1, ← hkernel]
    exact createFromPath_creation (some (elfLoader bytes n)) o2.kernel

theorem osStep_file (h : osStep o (.createFromFile disk path) = some o') :
    o'.execPending = o.execPending ∧ ∃ vmm i, Creation { o.kernel with vmm } (i, o'.kernel) := by
  obtain ⟨⟨i, o1⟩, hcreate, rfl⟩ := Option.map_eq_some_iff.mp h
  obtain ⟨hpending, vmm, ⟨rfl, he⟩ | hc⟩ := createFromFile_cases (toOption_eq_some hcreate)
  · refine ⟨hpending, vmm, none, ?_⟩
    dsimp only
    rw [he]
    exact .refused vmm
  · exact ⟨hpending, vmm, i, hc⟩

theorem enterUserRef_table (h : TableInv k) {ref : PcbRef} (href : ref = k.current) :
    TableInv (processEnterUserRef ref k) := by
  rcases enterUserRef_cases k ref with ⟨-, he⟩ | ⟨vmm, he⟩
  · rwa [he]
  · rw [he, href]
    exact h.step (.blocked vmm fun _ => ⟨rfl, rfl, rfl, rfl, rfl⟩)

theorem TableInv.replaced (h : TableInv k) (vmm : Vmm) (space : Nat) (entry : Word) :
    TableInv (({ k with vmm } : Kernel).modifyRef (fun p => p.replace space entry) k.current) :=
  h.step (.blocked vmm fun _ => ⟨rfl, rfl, rfl, rfl, rfl⟩)

theorem osStep_table {op : OsOp} (hinv : TableInv o.kernel) (h : osStep o op = some o') :
    TableInv o'.kernel := by
  cases op with
  | kernel op hreads =>
    obtain ⟨s, hs, rfl⟩ := Option.map_eq_some_iff.mp h
    exact hinv.step (kernelStep_table (s := System.boot o.kernel) hinv hs)
  | createFromFile disk path =>
    obtain ⟨-, vmm, i, hc⟩ := osStep_file h
    exact (hinv.vmm vmm).step hc.table
  | exec disk a =>
    obtain ⟨⟨rc, o1⟩, hexec, rfl⟩ := Option.map_eq_some_iff.mp h
    rcases ee_cases (toOption_eq_some hexec) with ⟨-, ⟨vmm, he⟩, -⟩ | ⟨-, space, entry, -, vmm, he⟩
    · rw [he]
      exact hinv.vmm vmm
    · rw [he]
      exact hinv.replaced vmm space entry
  | execPath disk path =>
    obtain ⟨⟨rc, o1⟩, hexec, rfl⟩ := Option.map_eq_some_iff.mp h
    rcases execPath_cases (toOption_eq_some hexec) with ⟨-, ⟨vmm, he⟩ | ⟨space, entry, vmm, he⟩⟩
    · rw [he]
      exact hinv.vmm vmm
    · rw [he]
      exact enterUserRef_table (hinv.replaced vmm space entry)
        (modifyRef_current ({ o.kernel with vmm } : Kernel) _ _).symm
  | yield cpu =>
    obtain ⟨⟨loaded, k⟩, hyield, rfl⟩ := Option.map_eq_some_iff.mp h
    exact hinv.steps (yield_quiet (toOption_eq_some hyield))
  | enter user i =>
    obtain ⟨ha, -, rfl | ⟨vmm, -, rfl⟩⟩ := osStep_enter h
    · exact hinv
    · exact hinv.entered ha vmm

theorem osRun_table {ops : List OsOp} (h0 : o.kernel.Booted) (hrun : runs osStep o ops = some o') :
    TableInv o'.kernel :=
  runs_inv (fun o => TableInv o.kernel) (fun _ _ _ hinv hstep => osStep_table hinv hstep)
    (TableInv.of_booted h0) hrun

theorem table_inv {ops : List OsOp} (h0 : o.kernel.Booted) (hrun : runs osStep o ops = some o') :
    TableInv o'.kernel ∧ ∀ i j, (o'.kernel.processes i).allocated = true →
    (o'.kernel.processes j).allocated = true →
      (o'.kernel.processes i).pid = (o'.kernel.processes j).pid → i = j := by
  have hinv := osRun_table h0 hrun
  exact ⟨hinv, fun i j hi hj he => hinv.slot_unique hi hj he⟩

/-- A process forks, its child ends, and the next process takes over the child's slot. -/
def childReplaced : List OsOp :=
  [.createUser 0x400000, .enter true 0, .kernel .fork rfl, .exitWithStatus 0x102 7, .wait 0x102 0xbfe000,
    .createEntry 0x100000]

theorem table_inv_reused : ∃ o, runs osStep coldOs childReplaced = some o ∧
    (o.kernel.processes 1).allocated = true ∧ (o.kernel.processes 1).pid = 0x202 ∧ TableInv o.kernel := by
  have hview :
      ((runs osStep coldOs childReplaced).map fun o =>
        ((o.kernel.processes 1).allocated, (o.kernel.processes 1).pid)) =
      some (true, 0x202) := by
    decide +kernel
  obtain ⟨o, hrun, hone⟩ := Option.map_eq_some_iff.mp hview
  obtain ⟨ha, hpid⟩ := Prod.mk.inj hone
  exact ⟨o, hrun, ha, hpid, (table_inv coldOs_booted.kernel hrun).1⟩

end

end Ceblar
