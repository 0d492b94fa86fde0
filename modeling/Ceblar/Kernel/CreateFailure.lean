import Ceblar.Kernel.ElfFrames
import Ceblar.Kernel.Marks
import Ceblar.Kernel.SpaceRun
import Ceblar.Mm.Kmalloc
import Ceblar.Mm.PmmInit

/-! # Creations that fail

As soon as a creation has a slot, every failure leaves the slot taken, with its space.
-/

namespace Ceblar

def Kernel.Full (k : Kernel) : Prop :=
  (∀ i < maxProcesses, (k.processes i).allocated = true) ∨ ∀ s < 32, k.vmm.spaceUsed s = true

/-- The same PCBs are allocated, the same spaces used and the same frames counted. -/
structure NoTrace (k k' : Kernel) : Prop where
  pcbs : ∀ i < maxProcesses, (k'.processes i).allocated = (k.processes i).allocated
  spaces : ∀ s < 32, k'.vmm.spaceUsed s = k.vmm.spaceUsed s
  frames : SameFrames k.vmm.pmm k'.vmm.pmm

inductive CreateFailed (k k' : Kernel) : Prop
  | full (h : k.Full) (hpcbs : ∀ i, (k'.processes i).allocated = (k.processes i).allocated)
    (hvmm : k'.vmm = k.vmm)
  | left {i : Nat} (h : ¬k.Full) (hi : i < maxProcesses) (hfree : (k.processes i).allocated = false)
      (htaken : (k'.processes i).allocated = true)

section

variable {k k1 k' : Kernel} {i : Nat} {entry : Word}

theorem NoTrace.not_taken (h : NoTrace k k') (hi : i < maxProcesses)
    (hfree : (k.processes i).allocated = false) (htaken : (k'.processes i).allocated = true) :
    False := by
  rw [h.pcbs i hi, hfree] at htaken
  cases htaken

theorem CreateFailed.noTrace_iff (h : CreateFailed k k') : NoTrace k k' ↔ k.Full := by
  cases h with
  | full hfull hpcbs hvmm =>
    refine iff_of_true ⟨fun i _ => hpcbs i, fun s _ => ?_, ?_⟩ hfull
    · rw [hvmm]
    · rw [hvmm]
      exact ⟨rfl, rfl, rfl⟩
  | left hfull hi hfree htaken =>
    exact iff_of_false (fun hno => hno.not_taken hi hfree htaken) hfull

theorem createSpace_none (m : Vmm) : vmmCreateAddressSpace m = none ↔ ∀ s < 32, m.spaceUsed s = true := by
  unfold vmmCreateAddressSpace
  rw [Option.map_eq_none_iff, List.find?_eq_none]
  simp

theorem newPcb_failed (h : newPcb k = (none, k')) : CreateFailed k k' := by
  unfold newPcb at h
  split at h
  · rename_i hnone
    cases h
    rw [List.find?_eq_none] at hnone
    refine .full (.inl fun i hi => ?_) (fun _ => rfl) rfl
    simpa using hnone i (List.mem_range.mpr hi)
  · rename_i j hj
    obtain ⟨-, hfree, -⟩ := find_free hj
    dsimp only at h
    split at h
    · rename_i hspace
      cases h
      refine .full (.inr ((createSpace_none k.vmm).mp hspace)) (fun i => ?_) rfl
      by_cases hij : i = j
      · rw [hij, modify_self, hfree]
      · rw [modify_ne _ _ hij]
        dsimp only
        rw [modify_ne _ _ hij]
    · cases h

theorem newPcb_taken (h : newPcb k = (some i, k1)) :
    ¬k.Full ∧ i < maxProcesses ∧ (k.processes i).allocated = false ∧
    (k1.processes i).allocated = true := by
  have hnew := newPcb_creation k
  rw [h] at hnew
  obtain ⟨hclaim, htaken⟩ := hnew.slot
  refine ⟨?_, hclaim.bound, hclaim.free, htaken⟩
  rintro (hslots | hspaces)
  · have hused := hslots i hclaim.bound
    rw [hclaim.free] at hused
    cases hused
  · unfold newPcb at h
    split at h
    · cases h
    · dsimp only at h
      rw [(createSpace_none k.vmm).mpr hspaces] at h
      cases h

theorem createUser_failed (h : processCreateUser entry k = (none, k')) : CreateFailed k k' := by
  unfold processCreateUser at h
  split at h
  · rename_i k1 hnew
    cases h
    exact newPcb_failed hnew
  · rename_i i k1 hnew
    obtain ⟨hfull, hi, hfree, htaken⟩ := newPcb_taken hnew
    split at h
    · cases h
      exact .left hfull hi hfree htaken
    · cases h
      exact .left hfull hi hfree htaken
    · split at h
      · cases h
        exact .left hfull hi hfree htaken
      · cases h

theorem createUser_taken (h : processCreateUser entry k = (some i, k1)) :
    ¬k.Full ∧ i < maxProcesses ∧ (k.processes i).allocated = false ∧
    (k1.processes i).allocated = true := by
  have huser := createUser_creation entry k
  rw [h] at huser
  obtain ⟨hclaim, htaken⟩ := huser.slot
  refine ⟨?_, hclaim.bound, hclaim.free, htaken⟩
  unfold processCreateUser at h
  split at h
  · cases h
  · rename_i hnew
    exact (newPcb_taken hnew).1

theorem createFromPath_failed {load : Loader}
    (h : processCreateFromPath (some load) k = (none, k')) : CreateFailed k k' := by
  unfold processCreateFromPath at h
  dsimp only at h
  split at h
  · rename_i huser
    cases h
    exact createUser_failed huser
  · rename_i i k1 huser
    obtain ⟨hfull, hi, hfree, htaken⟩ := createUser_taken huser
    split at h
    · cases h
      exact .left hfull hi hfree htaken
    · split at h
      · cases h
        exact .left hfull hi hfree htaken
      · split at h
        · cases h
          exact .left hfull hi hfree htaken
        · cases h

theorem fork_failed (h : processFork k = .ok (none, k')) : CreateFailed k k' := by
  unfold processFork at h
  split at h
  · rename_i hnew
    cases h
    exact newPcb_failed hnew
  · rename_i i k1 hnew
    obtain ⟨hfull, hi, hfree, htaken⟩ := newPcb_taken hnew
    -- with a space or without one to copy, all that fails is the copy
    have hframe : ∀ {userMode : Bool} {entry : Word} {k2 k3 k4 : Kernel},
        (if userMode then (.ok (some i, k2) : Except Halt (Option Nat × Kernel))
        else if entry = 0 then .ok (some i, k3) else .ok (some i, k4)) ≠ .ok (none, k') := by
      intro userMode entry k2 k3 k4 hend
      split at hend
      · cases hend
      · split at hend
        · cases hend
        · cases hend
    dsimp only at h
    split at h
    · exact absurd h hframe
    · split at h
      · obtain ⟨⟨rc, k3⟩, hexit, h⟩ := bind_eq_ok.mp h
        cases h
        have hkept : (k3.processes i).allocated = _ := (exit_marks hexit).kept (fun _ _ => rfl) i
        rw [modify_self] at hkept
        exact .left hfull hi hfree (hkept.trans htaken)
      · exact absurd h hframe

end

/-! ## The file -/

def Os.heapReady (o : Os) : Heap := if o.heapHead = 0 then heapInit o.heapArea o.heap else o.heap

def Os.imageBlock (o : Os) : Except Halt (Option Word) :=
  findFit (roundUp execMaxImage) (2 ^ 32) o.heapReady.head o.heapReady.mem

/-- With its image in block `b`, the file at `path` is not a program: it cannot be read, or it is
too long. -/
def Unusable (disk : Disk) (path : List Byte) (b : Word) (o : Os) : Prop :=
  let mem := setField (split o.heapReady.mem b (roundUp execMaxImage)) b .free 0
  let opened := vfsOpen disk path 0 o.vfs
  let n := (vfsRead disk opened.1
    (fun i => mem (b + headerSize + BitVec.ofNat 32 i)) execMaxImage opened.2).1
  b + headerSize = 0 ∨ n ≤ 0 ∨ n = execMaxImage.toInt

/-- What stops `process_create_from_path` before it has taken anything that it does not give back. -/
inductive StopsEarly (disk : Disk) (path : List Byte) (o : Os) : Prop
  | missing (h : (vfsOpen disk path 0 o.vfs).1 < 0)
  | noMemory (h : o.imageBlock = .ok none) (hfree : o.kernel.vmm.pmm.firstFree = none)
  | unusable {b : Word} (h : o.imageBlock = .ok (some b)) (huse : Unusable disk path b o)
  | full {b : Word} (h : o.imageBlock = .ok (some b)) (hfull : o.kernel.Full)

section

variable {disk : Disk} {path : List Byte} {o o' : Os}

@[simp] theorem heapReady_vmm (o : Os) : o.heapReady.vmm = o.kernel.vmm := by
  unfold Os.heapReady
  split
  · rfl
  · rfl

theorem osKmalloc_cases {p : Word} (hk : o.kmalloc execMaxImage = .ok (p, o')) :
    (∃ b, o.imageBlock = .ok (some b) ∧ p = b + headerSize ∧ o'.kernel = o.kernel ∧
      o'.mem = setField (split o.heapReady.mem b (roundUp execMaxImage)) b .free 0) ∨
    o.imageBlock = .ok none ∧
      ((o.kernel.vmm.pmm.firstFree = none ∧ p = 0 ∧ o'.kernel = o.kernel) ∨
        o.kernel.vmm.pmm.firstFree ≠ none ∧ o.kernel.vmm.pmm.used < o'.kernel.vmm.pmm.used) := by
  obtain ⟨⟨p1, h1⟩, hmalloc, hend⟩ := bind_eq_ok.mp hk
  cases hend
  have hsize : execMaxImage ≠ 0 := by decide
  have hloop : kmallocLoop (roundUp execMaxImage) (2 ^ 20) o.heapReady = .ok (p, h1) := by
    unfold Ceblar.kmalloc at hmalloc
    rw [if_neg hsize] at hmalloc
    exact hmalloc
  have hvmm := heapReady_vmm o
  rcases @kmallocLoop_round o.heapReady h1 _ p (2 ^ 20 - 1) hloop with
    ⟨b, hfit, rfl, rfl⟩ | ⟨hfit, ⟨hnone, rfl, rfl⟩ | ⟨h2, hgrow, hrest⟩⟩
  · refine .inl ⟨b, hfit, rfl, ?_, rfl⟩
    simp only [Os.setHeap, Os.setVmm, hvmm]
  · rw [hvmm] at hnone
    refine .inr ⟨hfit, .inl ⟨hnone, rfl, ?_⟩⟩
    simp only [Os.setHeap, Os.setVmm, hvmm]
  · have hmore := kmallocLoop_used hrest
    obtain ⟨hsome, -, hused⟩ := (grow_used hgrow).resolve_left fun hfailed => hfailed.2.1 rfl
    rw [hvmm] at hsome hused
    refine .inr ⟨hfit, .inr ⟨hsome, ?_⟩⟩
    show o.kernel.vmm.pmm.used < h1.vmm.pmm.used
    omega

theorem loadFile_cases {res : Except Int (Word × Image × Word)}
    (h : loadFile disk path o = .ok (res, o')) :
    ((vfsOpen disk path 0 o.vfs).1 < 0 ∧ o'.kernel = o.kernel ∧ res.toOption = none) ∨
    ¬(vfsOpen disk path 0 o.vfs).1 < 0 ∧
      ((∃ b, o.imageBlock = .ok (some b) ∧ o'.kernel = o.kernel ∧
      (res.toOption = none ↔ Unusable disk path b o)) ∨ o.imageBlock = .ok none ∧
        ((o.kernel.vmm.pmm.firstFree = none ∧ o'.kernel = o.kernel ∧ res.toOption = none) ∨
          o.kernel.vmm.pmm.firstFree ≠ none ∧ o.kernel.vmm.pmm.used < o'.kernel.vmm.pmm.used)) := by
  dsimp only [loadFile] at h
  split at h
  · rename_i hfd
    cases h
    exact .inl ⟨hfd, rfl, rfl⟩
  · rename_i hfd
    obtain ⟨⟨image, o1⟩, hk, h⟩ := bind_eq_ok.mp h
    refine .inr ⟨hfd, ?_⟩
    have hvfs : o1.vfs = (vfsOpen disk path 0 o.vfs).2 := (osKmalloc_inv hk).2.1
    have hkept : o'.kernel = o1.kernel ∧ (image = 0 → res.toOption = none) := by
      dsimp only at h
      split at h
      · cases h
        exact ⟨rfl, fun _ => rfl⟩
      · rename_i himage
        refine ⟨?_, fun hzero => absurd hzero himage⟩
        split at h
        · obtain ⟨o2, hfree, hend⟩ := bind_eq_ok.mp h
          cases hend
          exact (osKfree_inv hfree).1
        · cases h
          rfl
    rcases osKmalloc_cases hk with
      ⟨b, hfit, rfl, hsame, hmem⟩ | ⟨hfit, ⟨hnone, hzero, hsame⟩ | ⟨hsome, hused⟩⟩
    · refine .inl ⟨b, hfit, hkept.1.trans hsame, ?_⟩
      dsimp only at h
      rw [hvfs, hmem] at h
      unfold Unusable
      split at h
      · rename_i hzero
        cases h
        exact iff_of_true rfl (.inl hzero)
      · rename_i hzero
        split at h
        · rename_i hn
          obtain ⟨o2, -, hend⟩ := bind_eq_ok.mp h
          cases hend
          exact iff_of_true rfl (.inr hn)
        · rename_i hn
          cases h
          exact iff_of_false (Option.some_ne_none _) (not_or.mpr ⟨hzero, hn⟩)
    · exact .inr ⟨hfit, .inl ⟨hnone, hkept.1.trans hsame, hkept.2 hzero⟩⟩
    · rw [← hkept.1] at hused
      exact .inr ⟨hfit, .inr ⟨hsome, hused⟩⟩

theorem createFromFile_failed (h : processCreateFromFile disk path o = .ok (none, o')) :
    ∃ res o1, loadFile disk path o = .ok (res, o1) ∧
      ((res.toOption = none ∧ o'.kernel = o1.kernel) ∨
        (res.toOption ≠ none ∧ CreateFailed o1.kernel o'.kernel)) := by
  unfold processCreateFromFile at h
  obtain ⟨⟨res, o1⟩, hload, h⟩ := bind_eq_ok.mp h
  refine ⟨res, o1, hload, ?_⟩
  cases res with
  | error rc =>
    cases h
    exact .inl ⟨rfl, rfl⟩
  | ok file =>
    obtain ⟨image, bytes, n⟩ := file
    obtain ⟨o2, hfree, hend⟩ := bind_eq_ok.mp h
    obtain ⟨hnone, rfl⟩ := Prod.mk.inj (Except.ok.inj hend)
    refine .inr ⟨Option.some_ne_none _, ?_⟩
    rw [(osKfree_inv hfree).1]
    exact createFromPath_failed (Prod.ext hnone rfl)

theorem NoTrace.refl (k : Kernel) : NoTrace k k := ⟨fun _ _ => rfl, fun _ _ => rfl, rfl, rfl, rfl⟩

theorem createFromFile_noTrace (h : processCreateFromFile disk path o = .ok (none, o')) :
    NoTrace o.kernel o'.kernel ↔ StopsEarly disk path o := by
  obtain ⟨res, o1, hload, hend⟩ := createFromFile_failed h
  have hstops : res.toOption = none → o'.kernel = o1.kernel := fun hres =>
    (hend.resolve_right fun hleft => hleft.1 hres).2
  rcases loadFile_cases hload with ⟨hfd, hsame, hres⟩ | ⟨hfd, ⟨b, hfit, hsame, hres⟩ |
    ⟨hfit, ⟨hnone, hsame, hres⟩ | ⟨hsome, hused⟩⟩⟩
  · rw [hstops hres, hsame]
    exact iff_of_true (NoTrace.refl _) (.missing hfd)
  · rw [hsame] at hend
    rcases hend with ⟨hnone, hend⟩ | ⟨hne, hend⟩
    · rw [hend]
      exact iff_of_true (NoTrace.refl _) (.unusable hfit (hres.mp hnone))
    · rw [hend.noTrace_iff]
      refine ⟨.full hfit, fun hstop => ?_⟩
      cases hstop with
      | missing hneg => exact absurd hneg hfd
      | noMemory hno => cases hfit.symm.trans hno
      | unusable hfit' huse =>
        cases hfit.symm.trans hfit'
        exact absurd (hres.mpr huse) hne
      | full _ hfull => exact hfull
  · rw [hstops hres, hsame]
    exact iff_of_true (NoTrace.refl _) (.noMemory hfit hnone)
  · refine iff_of_false (fun hno => ?_) (fun hstop => ?_)
    · have hslots : o1.kernel.processes = o.kernel.processes := by rw [(loadFile_kernel hload).1]
      have hcount := hno.frames.2.2
      rcases hend with ⟨-, hend⟩ | ⟨-, hend⟩
      · rw [hend] at hcount
        omega
      · cases hend with
        | full _ _ hvmm =>
          rw [hvmm] at hcount
          omega
        | left _ hi hfree htaken =>
          rw [hslots] at hfree
          exact hno.not_taken hi hfree htaken
    · cases hstop with
      | missing hneg => exact hfd hneg
      | noMemory _ hnone => exact hsome hnone
      | unusable hfit' _ => cases hfit.symm.trans hfit'
      | full hfit' _ => cases hfit.symm.trans hfit'

end

/-- A creation that fails leaves no trace just if it failed before it had a slot. -/
theorem failed_creation_iff (entry : Word) (k : Kernel) (disk : Disk) (path : List Byte) (o : Os) :
    (∀ k' : Kernel, processCreateUser entry k = (none, k') → (NoTrace k k' ↔ k.Full)) ∧
    (∀ k' : Kernel, processFork k = .ok (none, k') → (NoTrace k k' ↔ k.Full)) ∧
    ∀ o' : Os, processCreateFromFile disk path o = .ok (none, o') →
      (NoTrace o.kernel o'.kernel ↔ StopsEarly disk path o) :=
  ⟨fun _ h => (createUser_failed h).noTrace_iff, fun _ h => (fork_failed h).noTrace_iff,
    fun _ h => createFromFile_noTrace h⟩

def spacesKernel (free : Nat → Bool) : Kernel :=
  { coldKernel with vmm := { coldMachine with spaceUsed := fun s => !free s } }

theorem failed_creation_full : ∃ (k1 k2 : Kernel) (o : Os),
    (processCreateUser 0x400000 (spacesKernel fun _ => false) = (none, k1) ∧
      NoTrace (spacesKernel fun _ => false) k1) ∧
    (processFork (spacesKernel fun _ => false) = .ok (none, k2) ∧
      NoTrace (spacesKernel fun _ => false) k2) ∧
    processCreateFromFile (oneFile (shortProgram 0 4) 0) filePath coldOs = .ok (none, o) ∧
      NoTrace coldOs.kernel o.kernel := by
  have hfull : (spacesKernel fun _ => false).Full := .inr fun _ _ => rfl
  have huser : (processCreateUser 0x400000 (spacesKernel fun _ => false)).1 = none := by decide +kernel
  have hfork : (processFork (spacesKernel fun _ => false)).toOption.map Prod.fst = some none := by
    decide +kernel
  have hfile :
      (processCreateFromFile (oneFile (shortProgram 0 4) 0) filePath coldOs).toOption.map Prod.fst =
        some none := by
    decide +kernel
  obtain ⟨⟨_, k2⟩, hfork, rfl⟩ := Option.map_eq_some_iff.mp hfork
  obtain ⟨⟨_, o⟩, hfile, rfl⟩ := Option.map_eq_some_iff.mp hfile
  replace hfork := toOption_eq_some hfork
  replace hfile := toOption_eq_some hfile
  obtain ⟨hcreate, hforked, hloaded⟩ := failed_creation_iff 0x400000 (spacesKernel fun _ => false)
    (oneFile (shortProgram 0 4) 0) filePath coldOs
  refine ⟨_, k2, o, ⟨Prod.ext huser rfl, ?_⟩, ⟨hfork, ?_⟩, hfile, ?_⟩
  · exact (hcreate _ (Prod.ext huser rfl)).mpr hfull
  · exact (hforked _ hfork).mpr hfull
  · refine (hloaded _ hfile).mpr ?_
    have hblock : (coldOs.imageBlock.toOption).bind id = some 0x200000 := by decide +kernel
    obtain ⟨_, hblock, rfl⟩ := Option.bind_eq_some_iff.mp hblock
    refine .unusable (toOption_eq_some hblock) (.inr (.inl ?_))
    decide +kernel

/-- 3.6 MiB with the hole below 1 MiB. -/
def smallRegions : List Region := [⟨0, 0x9fc00⟩, ⟨0x100000, 0x2a0000⟩]

/-- What is free lies behind the 831 frames that are counted, so that no frame is found. -/
def smallStart : Pmm where
  bitmap := fun f => decide (f < 891 ∨ 928 ≤ f)
  refs := fun _ => 0
  total := 831
  total_le := by decide
  used := 794
  handed := []

theorem smallRegions_start :
    pmmInit (infoBlock 0x10000 smallRegions) 0x10000 0x37b000 20 = some smallStart := by
  have hrs : mbiRegions (infoBlock 0x10000 smallRegions) 0x10000
      (load32 (infoBlock 0x10000 smallRegions) 0x10000) 20 8 = some smallRegions := by
    decide +kernel
  refine pmmInit_block (a := 891) (b := 928) hrs (by decide) (by decide) (by decide) rfl (fun f => ?_)
    (by decide) rfl rfl rfl
  have h1 : Region.stop ⟨0, 0x9fc00⟩ = 159 := by decide
  have h2 : Region.stop ⟨0x100000, 0x2a0000⟩ = 928 := by decide
  have hfirst : Region.first ⟨0x100000, 0x2a0000⟩ = 256 := by decide
  rw [show kernelPages 0x37b000 = 891 by decide]
  simp only [Released, smallRegions, Region.Holds, List.exists_mem_cons_iff, List.forall_mem_cons,
    h1, h2, hfirst]
  simp [Region.first]
  omega

def smallKernel : Kernel := { coldKernel with vmm := { coldMachine with pmm := smallStart } }

/-- 31 processes, the first of which runs: one more slot, and one more space. -/
def crowdedRun : List OsOp := List.replicate 31 (.createEntry 0x100000) ++ [.enter false 0]

/-- No frame for the stack, no space for the child's copy, and a file that is no program: each time
a slot that was free is taken afterwards. -/
theorem creation_leaves_slot :
    (pmmInit (infoBlock 0x10000 smallRegions) 0x10000 0x37b000 20 = some smallKernel.vmm.pmm ∧
      smallKernel.Booted ∧
      ∃ k', processCreateUser 0x400000 smallKernel = (none, k') ∧ ¬NoTrace smallKernel k') ∧
    (∃ o k', runs osStep coldOs crowdedRun = some o ∧ processFork o.kernel = .ok (none, k') ∧
      ¬NoTrace o.kernel k') ∧
    ∃ o', processCreateFromFile (oneFile (fun _ => 0) 84) filePath coldOs = .ok (none, o') ∧
      ¬NoTrace coldOs.kernel o'.kernel := by
  have huser : ((processCreateUser 0x400000 smallKernel).1,
      ((processCreateUser 0x400000 smallKernel).2.processes 0).allocated) = (none, true) := by
    decide +kernel
  have hfork : ((runs osStep coldOs crowdedRun).bind fun o => (processFork o.kernel).toOption.map fun r =>
      (r.1, (o.kernel.processes 31).allocated, (r.2.processes 31).allocated)) =
        some (none, false, true) := by
    decide +kernel
  have hfile : ((processCreateFromFile (oneFile (fun _ => 0) 84) filePath coldOs).toOption.map fun r =>
      (r.1, (r.2.kernel.processes 0).allocated)) = some (none, true) := by
    decide +kernel
  obtain ⟨oc, hcrowded, hfork⟩ := Option.bind_eq_some_iff.mp hfork
  obtain ⟨⟨_, k2⟩, hfork, he2⟩ := Option.map_eq_some_iff.mp hfork
  obtain ⟨⟨_, o⟩, hfile, he⟩ := Option.map_eq_some_iff.mp hfile
  simp only [Prod.mk.injEq] at he2
  obtain ⟨rfl, hfree2, htaken2⟩ := he2
  rcases hcreated : processCreateUser 0x400000 smallKernel with ⟨_, k1⟩
  rw [hcreated] at huser
  obtain ⟨rfl, htaken1⟩ := Prod.mk.inj huser
  obtain ⟨rfl, htaken⟩ := Prod.mk.inj he
  have hbooted : smallKernel.Booted :=
    ⟨fun _ => rfl, fun _ => rfl, fun _ => rfl, fun _ => rfl, rfl, rfl, rfl, rfl, rfl⟩
  refine ⟨⟨smallRegions_start, hbooted, k1, rfl, fun hno => ?_⟩,
    ⟨oc, k2, hcrowded, toOption_eq_some hfork, fun hno => ?_⟩, o, toOption_eq_some hfile, fun hno => ?_⟩
  · exact hno.not_taken (i := 0) (by decide) rfl htaken1
  · exact hno.not_taken (i := 31) (by decide) hfree2 htaken2
  · exact hno.not_taken (i := 0) (by decide) rfl htaken

end Ceblar
