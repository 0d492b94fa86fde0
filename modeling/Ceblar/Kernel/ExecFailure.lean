import Ceblar.Kernel.PathScan

/-! # What a failed `SYS_EXEC` leaves behind

Two things may stay: pages that were faulted in to read the path, and no active space at all if the
loader got to work.
-/

namespace Ceblar

open Function

theorem loadFile_open {disk : Disk} {path : List Byte} {o o' : Os}
    {res : Except Int (Word × Image × Word)} (h : loadFile disk path o = .ok (res, o')) :
    SameOpen o.vfs o'.vfs := by
  unfold loadFile at h
  cases hopen : vfsOpen disk path 0 o.vfs with
  | mk fd v =>
    rw [hopen] at h
    dsimp only at h
    split at h
    · rename_i hneg
      cases h
      rcases vfsOpen_inv hopen with ⟨-, hs⟩ | ⟨rfl, -⟩ | ⟨n, f, rfl, -⟩
      · exact hs
      · exact absurd hneg (by decide)
      · omega
    · rename_i hfd
      obtain ⟨⟨image, o1⟩, hk, hread⟩ := bind_eq_ok.mp h
      clear h
      obtain rfl : o1.vfs = v := (osKmalloc_inv hk).2.1
      dsimp only at hread
      split at hread
      · cases hread
        exact open_close hopen hfd (SameOpen.refl _)
      · have hclose := open_close hopen hfd (vfsRead_open disk o1.vfs fd
          (fun i => o1.mem (image + BitVec.ofNat 32 i)) execMaxImage)
        split at hread
        · obtain ⟨o2, hfree, hend⟩ := bind_eq_ok.mp hread
          cases hend
          rw [(osKfree_inv hfree).2]
          exact hclose
        · cases hread
          exact hclose

/-- There is room for a space with a stack, and the header of the program is accepted: the loader
switches to the new space. -/
def SwitchesTo (m : Vmm) (image : Image) (n : Word) : Prop :=
  ∃ sp m1 m2, vmmCreateAddressSpace m = some (sp, m1) ∧
    (vmmUserAllocPage m1 sp (userStackTop - 4096) pageWrite).1 = some m2 ∧ ¬n < 52 ∧
    image.header.valid n = true

def Creates (m : Vmm) (sp : Nat) : Prop := ∃ m1, vmmCreateAddressSpace m = some (sp, m1)

theorem create_inv {m m1 : Vmm} {sp : Nat} (h : vmmCreateAddressSpace m = some (sp, m1)) :
    m.spaceUsed sp = false ∧ m1.spaceUsed = update m.spaceUsed sp true ∧ (m1.spaces sp).refs = 1 ∧
      (∀ i, i ≠ sp → m1.spaces i = m.spaces i) ∧ m1.currentSpace = m.currentSpace := by
  unfold vmmCreateAddressSpace at h
  obtain ⟨d, hfind, hd⟩ := Option.map_eq_some_iff.mp h
  have hfree := List.find?_some hfind
  cases hd
  exact ⟨by simpa using hfree, rfl, by simp, fun i hi => by simp [hi], rfl⟩

theorem destroy_created {m m1 m2 : Vmm} {sp : Nat} (h : vmmCreateAddressSpace m = some (sp, m1))
    (hk : KeepsRefs m1 m2) (hothers : ∀ i, i ≠ sp → m2.spaces i = m1.spaces i) :
    (vmmDestroyAddressSpace m2 sp).spaceUsed = m.spaceUsed ∧
      (∀ i, m.spaceUsed i = true → (vmmDestroyAddressSpace m2 sp).spaces i = m.spaces i) ∧
      (vmmDestroyAddressSpace m2 sp).currentSpace = if m2.currentSpace = some sp then none
        else m2.currentSpace := by
  obtain ⟨hfree, hused, hrefs, hother, -⟩ := create_inv h
  have hrefs2 : (m2.spaces sp).refs = 1 := (hk.refs sp).trans hrefs
  have hused2 : m2.spaceUsed sp = true := by
    rw [hk.used, hused]
    simp
  unfold vmmDestroyAddressSpace
  simp only [hrefs2, Vmm.setSpace, hused2]
  rw [if_neg (by decide), if_neg (by decide)]
  refine ⟨?_, fun i hi => ?_, rfl⟩
  · simp only [if_true]
    rw [hk.used, hused, update_idem, ← hfree, update_eq_self]
  · have hne : i ≠ sp := by
      rintro rfl
      rw [hfree] at hi
      cases hi
    simp only [if_true, update_of_ne hne]
    rw [hothers i hne, hother i hne]

theorem userAllocPage_others (m : Vmm) (space : Nat) (virt flags : Word) :
    (∀ i, i ≠ space → (vmmUserAllocPage m space virt flags).2.spaces i = m.spaces i) ∧
      (vmmUserAllocPage m space virt flags).2.currentSpace = m.currentSpace := by
  unfold vmmUserAllocPage
  split
  · exact ⟨fun _ _ => rfl, rfl⟩
  · split
    · exact ⟨fun _ _ => rfl, rfl⟩
    · rename_i m1 hmap
      refine ⟨fun i hi => ?_, ?_⟩
      · have hother := mapUser_others hmap hi
        exact hother
      · have hcurrent := mapUser_current hmap
        exact hcurrent

theorem buildSpace_failed {m m' : Vmm} {image : Image} {n : Word} {e rc : Int}
    (h : buildSpace image n e m = .ok (.error rc, m')) :
    m'.spaceUsed = m.spaceUsed ∧ (∀ i, m.spaceUsed i = true → m'.spaces i = m.spaces i) ∧
      (m'.currentSpace = m.currentSpace ↔
        ∀ s, m.currentSpace = some s → ¬SwitchesTo m image n ∧ ¬Creates m s) := by
  unfold buildSpace at h
  cases hcreate : vmmCreateAddressSpace m with
  | none =>
    rw [hcreate] at h
    cases h
    refine ⟨rfl, fun _ _ => rfl, iff_of_true rfl fun s _ => ⟨?_, ?_⟩⟩
    · rintro ⟨sp, m1, m2, hc, -⟩
      rw [hcreate] at hc
      cases hc
    · rintro ⟨m1, hc⟩
      rw [hcreate] at hc
      cases hc
  | some created =>
    obtain ⟨space, m1⟩ := created
    rw [hcreate] at h
    dsimp only at h
    obtain ⟨hfree, -, -, -, hcur1⟩ := create_inv hcreate
    obtain ⟨hpage, hsome⟩ := userAllocPage_keeps m1 space (userStackTop - 4096) pageWrite
    obtain ⟨hothers, hcur2⟩ := userAllocPage_others m1 space (userStackTop - 4096) pageWrite
    have hcreates : ∀ s, Creates m s ↔ s = space := by
      intro s
      unfold Creates
      rw [hcreate]
      simp [eq_comm]
    have hswitches : SwitchesTo m image n ↔
        (vmmUserAllocPage m1 space (userStackTop - 4096) pageWrite).1 ≠ none ∧
        ¬(n < 52 ∨ image.header.valid n = false) := by
      unfold SwitchesTo
      rw [hcreate]
      simp only [Option.some.injEq, Prod.mk.injEq, not_or, Bool.not_eq_false, Option.ne_none_iff_exists']
      constructor
      · rintro ⟨sp, m1', m2, ⟨rfl, rfl⟩, h2, h3, h4⟩
        exact ⟨⟨m2, h2⟩, h3, h4⟩
      · rintro ⟨⟨m2, h2⟩, h3, h4⟩
        exact ⟨space, m1, m2, ⟨rfl, rfl⟩, h2, h3, h4⟩
    -- before the loader switches, only giving up the active space itself is noticed
    have hactive : ∀ m2 : Vmm, m2.currentSpace = m.currentSpace → ¬SwitchesTo m image n →
        ((if m2.currentSpace = some space then none else m2.currentSpace) = m.currentSpace ↔
          ∀ s, m.currentSpace = some s → ¬SwitchesTo m image n ∧ ¬Creates m s) := by
      intro m2 hcur hnot
      rw [hcur]
      constructor
      · intro he s hs
        refine ⟨hnot, fun hc => ?_⟩
        rw [(hcreates s).mp hc] at hs
        rw [hs, if_pos rfl] at he
        cases he
      · intro hall
        split
        · rename_i hs
          exact absurd ((hcreates space).mpr rfl) (hall space hs).2
        · rfl
    cases hstack : vmmUserAllocPage m1 space (userStackTop - 4096) pageWrite with
    | mk stack m2 =>
      rw [hstack] at h hpage hsome hothers hcur2 hswitches
      cases stack with
      | none =>
        cases h
        obtain ⟨h1, h2, h3⟩ := destroy_created hcreate hpage hothers
        rw [h3]
        exact ⟨h1, h2, hactive m2 (hcur2.trans hcur1) fun hs => (hswitches.mp hs).1 rfl⟩
      | some m2' =>
        obtain rfl : m2' = m2 := hsome m2' rfl
        obtain ⟨⟨entry, m3⟩, hload, h⟩ := bind_eq_ok.mp h
        cases entry with
        | some entry => cases h
        | none =>
          cases h
          obtain ⟨hrefs, hout, hend⟩ := elf32Load_outside hload
          obtain ⟨h1, h2, h3⟩ := destroy_created hcreate (hpage.trans hrefs)
            fun i hi => (hout i hi).trans (hothers i hi)
          refine ⟨h1, h2, ?_⟩
          rw [h3]
          rcases hend with ⟨hbad, rfl⟩ | ⟨hgood, hnone⟩
          · exact hactive m3 (hcur2.trans hcur1) fun hs => (hswitches.mp hs).2 hbad
          · rw [hnone, if_neg (Option.some_ne_none _).symm]
            constructor
            · intro he s hs
              rw [hs] at he
              cases he
            · intro hall
              cases hc : m.currentSpace with
              | none => rfl
              | some s => exact absurd (hswitches.mpr ⟨Option.some_ne_none _, hgood⟩) (hall s hc).1

/-! ## Failures -/

/-- What a failed call should leave as it was: the caller's PCB, the open descriptors, the spaces
in use, the frames they hold and the active space. -/
structure Unchanged (o o' : Os) : Prop where
  pcb : o'.kernel.current = o.kernel.current ∧
    o'.kernel.pcb o.kernel.current = o.kernel.pcb o.kernel.current
  descriptors : SameOpen o.vfs o'.vfs
  used : o'.kernel.vmm.spaceUsed = o.kernel.vmm.spaceUsed
  frames : ∀ sp v, o'.kernel.vmm.held sp v = o.kernel.vmm.held sp v
  active : o'.kernel.vmm.currentSpace = o.kernel.vmm.currentSpace

/-- The path names a file that fits into the heap: these are its bytes, and this is the memory in
which its space is built. -/
def FileLoaded (disk : Disk) (a : Word) (o : Os) (image : Image) (n : Word) (m : Vmm) : Prop :=
  ∃ path vmm block o1, userString a o.kernel = .ok (some path, vmm) ∧
    loadFile disk path (o.setVmm vmm) = .ok (.ok (block, image, n), o1) ∧ o1.kernel.vmm = m

/-- The path needs no page that is not there, or the active space is not in use. If a space is
active, no file is loaded whose header is accepted, and the space for it is not the active one. -/
structure FailsClean (disk : Disk) (a : Word) (o : Os) : Prop where
  resident : pathResident a o.kernel = true ∨
    ∀ s, o.kernel.vmm.currentSpace = some s → o.kernel.vmm.spaceUsed s = false
  apart : ∀ s, o.kernel.vmm.currentSpace = some s → ∀ image n m, FileLoaded disk a o image n m →
    ¬SwitchesTo m image n ∧ ¬Creates m s

section

variable {disk : Disk} {a : Word} {o o' : Os} {rc : Int}

theorem ee_failed (h : ee disk a o = .ok (rc, o')) (hneg : rc < 0) :
    ∃ path vmm, userString a o.kernel = .ok (path, vmm) ∧
      ((path = none ∧ o' = o.setVmm vmm) ∨
      ∃ name file o1, path = some name ∧ loadFile disk name (o.setVmm vmm) = .ok (file, o1) ∧
        ((file.toOption = none ∧ o' = o1) ∨
        ∃ block image n e m, file = .ok (block, image, n) ∧
        buildSpace image n (-12) o1.kernel.vmm = .ok (.error e, m) ∧
          o'.kernel = { o1.kernel with vmm := m } ∧ o'.vfs = o1.vfs)) := by
  obtain ⟨⟨path, vmm⟩, hstring, h⟩ := bind_eq_ok.mp h
  refine ⟨path, vmm, hstring, ?_⟩
  cases path with
  | none =>
    cases h
    exact .inl ⟨rfl, rfl⟩
  | some name =>
    obtain ⟨⟨file, o1⟩, hfile, h⟩ := bind_eq_ok.mp h
    refine .inr ⟨name, file, o1, rfl, hfile, ?_⟩
    cases file with
    | error e =>
      cases h
      exact .inl ⟨rfl, rfl⟩
    | ok file =>
      obtain ⟨block, image, n⟩ := file
      obtain ⟨⟨built, m⟩, hbuild, h⟩ := bind_eq_ok.mp h
      cases built with
      | error e =>
        obtain ⟨o2, hfree, h⟩ := bind_eq_ok.mp h
        cases h
        exact .inr ⟨block, image, n, _, m, rfl, hbuild, (osKfree_inv hfree).1, (osKfree_inv hfree).2⟩
      | ok built =>
        obtain ⟨space, entry⟩ := built
        obtain ⟨o2, hfree, h⟩ := bind_eq_ok.mp h
        cases h
        exact absurd hneg (by decide)

theorem held_congr {m m' : Vmm} (hused : m'.spaceUsed = m.spaceUsed)
    (hspaces : ∀ i, m.spaceUsed i = true → m'.spaces i = m.spaces i) (sp : Nat) (v : Word) :
    m'.held sp v = m.held sp v := by
  unfold Vmm.held
  rw [hused]
  split
  · rename_i hu
    rw [hspaces sp hu]
  · rfl

theorem ee_failed_state (h : ee disk a o = .ok (rc, o')) (hneg : rc < 0) :
    ∃ path vmm, userString a o.kernel = .ok (path, vmm) ∧
      (o'.kernel.current = o.kernel.current ∧
        o'.kernel.pcb o.kernel.current = o.kernel.pcb o.kernel.current) ∧
      SameOpen o.vfs o'.vfs ∧ o'.kernel.vmm.spaceUsed = o.kernel.vmm.spaceUsed ∧
      (∀ sp v, o'.kernel.vmm.held sp v = vmm.held sp v) ∧
      (o'.kernel.vmm.currentSpace = o.kernel.vmm.currentSpace ↔ ∀ s, o.kernel.vmm.currentSpace = some s →
        ∀ image n m, FileLoaded disk a o image n m → ¬SwitchesTo m image n ∧ ¬Creates m s) := by
  obtain ⟨path, vmm, hstring, hexit⟩ := ee_failed h hneg
  have hin := (userString_inv hstring).1
  refine ⟨path, vmm, hstring, ?_⟩
  rcases hexit with ⟨rfl, rfl⟩ | ⟨name, file, o1, rfl, hfile, hexit⟩
  · refine ⟨⟨rfl, rfl⟩, SameOpen.refl _, hin.used, fun _ _ => rfl, iff_of_true hin.current ?_⟩
    rintro s - image n m ⟨name, vmm', block, o2, hstring', -⟩
    rw [hstring] at hstring'
    cases hstring'
  · obtain ⟨hkernel, hsame⟩ := loadFile_kernel hfile
    have hpcb : o1.kernel.current = o.kernel.current ∧
        o1.kernel.pcb o.kernel.current = o.kernel.pcb o.kernel.current := by
      rw [hkernel]
      exact ⟨rfl, rfl⟩
    have hopen : SameOpen (o.setVmm vmm).vfs o1.vfs := loadFile_open hfile
    have hused : o1.kernel.vmm.spaceUsed = o.kernel.vmm.spaceUsed := hsame.used.trans hin.used
    have hcur : o1.kernel.vmm.currentSpace = o.kernel.vmm.currentSpace := hsame.current.trans hin.current
    have hheld : ∀ sp v, o1.kernel.vmm.held sp v = vmm.held sp v :=
      held_congr hsame.used fun i _ => congrFun hsame.spaces i
    have hloaded : ∀ {image n m}, FileLoaded disk a o image n m → m = o1.kernel.vmm ∧
        ∃ block, file = .ok (block, image, n) := by
      rintro image n m ⟨name', vmm', block, o2, hstring', hfile', rfl⟩
      rw [hstring] at hstring'
      cases hstring'
      rw [hfile] at hfile'
      cases hfile'
      exact ⟨rfl, block, rfl⟩
    rcases hexit with ⟨hnone, rfl⟩ | ⟨block, image, n, e, m, rfl, hbuild, hk, hv⟩
    · refine ⟨hpcb, hopen, hused, hheld, iff_of_true hcur ?_⟩
      intro s _ image n m hl
      obtain ⟨-, block, rfl⟩ := hloaded hl
      cases hnone
    · obtain ⟨hused', hspaces', hcur'⟩ := buildSpace_failed hbuild
      rw [hk, hv]
      refine ⟨hpcb, hopen, hused'.trans hused,
        fun sp v => (held_congr hused' hspaces' sp v).trans (hheld sp v), ?_⟩
      dsimp only
      rw [hcur] at hcur'
      rw [hcur']
      constructor
      · intro hall s hs image' n' m' hl
        obtain ⟨rfl, block', hb⟩ := hloaded hl
        cases hb
        exact hall s hs
      · intro hall s hs
        exact hall s hs image n _ ⟨name, vmm, block, o1, hstring, hfile, rfl⟩

/-- A failed `SYS_EXEC` changes nothing exactly if it is clean. -/
theorem exec_failure_unchanged_iff (disk : Disk) (a : Word) (o o' : Os) (rc : Int)
    (h : ee disk a o = .ok (rc, o')) (hneg : rc < 0) : Unchanged o o' ↔ FailsClean disk a o := by
  obtain ⟨path, vmm, hstring, hpcb, hopen, hused, hheld, hactive⟩ := ee_failed_state h hneg
  have hpath := userString_held hstring
  constructor
  · intro hu
    refine ⟨hpath.mp fun sp v => ?_, hactive.mp hu.active⟩
    rw [← hheld]
    exact hu.frames sp v
  · intro hc
    refine ⟨hpcb, hopen, hused, fun sp v => ?_, hactive.mpr hc.apart⟩
    rw [hheld]
    exact hpath.mpr hc.resident sp v

end

def callerRun : List OsOp := [.createUser 0x400000, .enter true 0]

def noDisk : Disk := { oneFile (shortProgram 0 4) 84 with mounted := false }

theorem exec_failure_unchanged_unmounted : ∃ o o', runs osStep coldOs callerRun = some o ∧
    ee noDisk 0xbfe000 o = .ok (-8, o') ∧ Unchanged o o' := by
  have hrun : ((runs osStep coldOs callerRun).map fun o => (pathResident 0xbfe000 o.kernel,
      (ee noDisk 0xbfe000 o).toOption.map Prod.fst)) =
        some (true, some (-8)) := by
    decide +kernel
  have hfile :
      ((runs osStep coldOs callerRun).map fun o => (userString 0xbfe000 o.kernel).toOption.map fun r =>
      r.1.map fun path => (loadFile noDisk path (o.setVmm r.2)).toOption.map
        fun r => r.1.toOption.isSome) = some (some (some (some false))) := by
    decide +kernel
  obtain ⟨o, ho, he⟩ := Option.map_eq_some_iff.mp hrun
  rw [ho, Option.map_some, Option.some.injEq] at hfile
  obtain ⟨hres, hee⟩ := Prod.mk.inj he
  obtain ⟨⟨rc, o'⟩, hee, rfl⟩ := Option.map_eq_some_iff.mp hee
  have hcall := toOption_eq_some hee
  refine ⟨o, o', ho, hcall, (exec_failure_unchanged_iff _ _ o o' _ hcall (by decide)).mpr ⟨.inl hres, ?_⟩⟩
  rintro s - image n m ⟨path, vmm, block, o1, hstring, hload, -⟩
  rw [hstring] at hfile
  dsimp only [Except.toOption, Option.map] at hfile
  rw [hload] at hfile
  cases hfile

/-- A program whose only segment is refused: the loader has switched by then. -/
theorem exec_failure_deactivates : ∃ o o', runs osStep coldOs callerRun = some o ∧
    ee (oneFile (shortProgram 1 6) 84) 0xbfe000 o = .ok (-8, o') ∧ ¬Unchanged o o' := by
  have hrun : ((runs osStep coldOs callerRun).map fun o => (o.kernel.vmm.currentSpace,
      (ee (oneFile (shortProgram 1 6) 84) 0xbfe000 o).toOption.map fun r =>
        (r.1, r.2.kernel.vmm.currentSpace))) = some (some 0, some (-8, none)) := by
    decide +kernel
  obtain ⟨o, ho, he⟩ := Option.map_eq_some_iff.mp hrun
  obtain ⟨hbefore, hee⟩ := Prod.mk.inj he
  obtain ⟨⟨rc, o'⟩, hee, hafter⟩ := Option.map_eq_some_iff.mp hee
  obtain ⟨rfl, hnone⟩ := Prod.mk.inj hafter
  refine ⟨o, o', ho, toOption_eq_some hee, fun hu => ?_⟩
  have hactive := hu.active
  rw [hbefore, hnone] at hactive
  cases hactive

end Ceblar
