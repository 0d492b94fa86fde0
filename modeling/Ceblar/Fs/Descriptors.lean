import Ceblar.Fs.Enumeration
import Ceblar.Fs.Vfs

/-! # Descriptors across processes

A slot of the descriptor table outlives the process that used it. What a new process can see of it
is a view.
-/

namespace Ceblar

/-! ## Calls and histories -/

inductive VfsCall where
  | openPath (path : List Byte) (flags : Word)
  | read (fd : Int) (out : Nat → Byte) (n : Word)
  | write (fd : Int) (data : Nat → Byte) (n : Word) (accepts : Word → Bool)
  | close (fd : Int)

structure VfsState where
  vfs : Vfs
  block : Block

abbrev VfsResult := Int × (Nat → Byte)

def vfsCall (disk : Block → Disk) (s : VfsState) : VfsCall → VfsResult × VfsState
  | .openPath path flags =>
    let (rc, vfs) := vfsOpen (disk s.block) path flags s.vfs
    ((rc, fun _ => 0), { s with vfs })
  | .read fd out n =>
    let (rc, out, vfs) := vfsRead (disk s.block) fd out n s.vfs
    ((rc, out), { s with vfs })
  | .write fd data n accepts =>
    let (rc, vfs, block) := vfsWrite disk accepts fd data n s.vfs s.block
    ((rc, fun _ => 0), ⟨vfs, block⟩)
  | .close fd =>
    let (rc, vfs) := vfsClose fd s.vfs
    ((rc, fun _ => 0), { s with vfs })

/-- What happens to the descriptors: a process makes a call when it runs, forks, or goes. -/
inductive VfsEvent where
  | call (pid : Word) (c : VfsCall)
  | fork (parent child : Word)
  /-- `process_exit_with_status` and, once more, `process_wait`. -/
  | release (pid : Word)

def VfsState.setProcess (s : VfsState) (pid : Word) : VfsState :=
  { s with vfs := vfsSetProcess pid s.vfs }

def vfsEvent (disk : Block → Disk) (s : VfsState) : VfsEvent → VfsState
  | .call pid c => (vfsCall disk (s.setProcess pid) c).2
  | .fork parent child => { s with vfs := vfsInheritProcess parent child s.vfs }
  | .release pid => { s with vfs := vfsReleaseProcess pid s.vfs }

def VfsEvent.slot : VfsEvent → Nat
  | .call pid _ => slotForPid pid
  | .fork _ child => slotForPid child
  | .release pid => slotForPid pid

def vfsHistory (disk : Block → Disk) (s : VfsState) (events : List VfsEvent) : VfsState :=
  events.foldl (vfsEvent disk) s

def vfsBoot (b : Block) : VfsState := ⟨vfsInit b, b⟩

def observe (disk : Block → Disk) (pid : Word) : VfsState → List VfsCall → List VfsResult
  | _, [] => []
  | s, c :: cs =>
    (vfsCall disk (s.setProcess pid) c).1 :: observe disk pid (vfsCall disk (s.setProcess pid) c).2 cs

/-! ## Views -/

structure SameView (t u : Nat → VfsFile) : Prop where
  rawOpen : (t 3).name.isSome = (u 3).name.isSome
  rawPosition : (t 3).position = (u 3).position
  isOpen : ∀ fd, 4 ≤ fd → fd < 8 → (t fd).name.isSome = (u fd).name.isSome
  kind : ∀ fd, 4 ≤ fd → fd < 8 → (t fd).kind = (u fd).kind
  fat : ∀ fd, 4 ≤ fd → fd < 8 → (t fd).fat = (u fd).fat

structure SameVfs (v v' : Vfs) : Prop where
  pid : v'.activePid = v.activePid
  view : SameView v.file v'.file

section

variable {disk : Block → Disk} {s s' : VfsState} {v v' : Vfs} {f f' : VfsFile} {k : Nat} {b : Bool}

theorem file_setFile (v : Vfs) (fd : Nat) (f : VfsFile) :
    (v.setFile fd f).file = Function.update v.file fd f := by
  unfold Vfs.file Vfs.setFile
  simp

theorem SameView.update {t u : Nat → VfsFile} (h : SameView t u) (fd : Nat)
    (hname : f.name.isSome = f'.name.isSome) (hpos : fd = 3 → f.position = f'.position)
    (hkind : 4 ≤ fd → f.kind = f'.kind) (hfat : 4 ≤ fd → f.fat = f'.fat) :
    SameView (Function.update t fd f) (Function.update u fd f') where
  rawOpen := by
    by_cases hf : 3 = fd
    · subst hf; simpa using hname
    · simpa [hf] using h.rawOpen
  rawPosition := by
    by_cases hf : 3 = fd
    · subst hf; simpa using hpos rfl
    · simpa [hf] using h.rawPosition
  isOpen n h4 h8 := by
    by_cases hf : n = fd
    · subst hf; simpa using hname
    · simpa [hf] using h.isOpen n h4 h8
  kind n h4 h8 := by
    by_cases hf : n = fd
    · subst hf; simpa using hkind h4
    · simpa [hf] using h.kind n h4 h8
  fat n h4 h8 := by
    by_cases hf : n = fd
    · subst hf; simpa using hfat h4
    · simpa [hf] using h.fat n h4 h8

theorem freeFd_congr (h : SameVfs v v') : v'.freeFd = v.freeFd := by
  have h := h.view
  unfold Vfs.freeFd
  simp only [List.find?_cons, ← Option.not_isSome, h.isOpen 4 (by decide) (by decide),
    h.isOpen 5 (by decide) (by decide),
    h.isOpen 6 (by decide) (by decide), h.isOpen 7 (by decide) (by decide),
    List.find?_nil]

theorem SameVfs.setFile (h : SameVfs v v') (fd : Nat) (hname : f.name.isSome = f'.name.isSome)
    (hpos : fd = 3 → f.position = f'.position) (hkind : 4 ≤ fd → f.kind = f'.kind)
    (hfat : 4 ≤ fd → f.fat = f'.fat) :
    SameVfs (v.setFile fd f) (v'.setFile fd f') := by
  refine ⟨h.pid, ?_⟩
  rw [file_setFile, file_setFile]
  exact h.view.update fd hname hpos hkind hfat

theorem vfsOpenName_view (h : SameVfs v v') (flags : Word) :
    (vfsOpenName flags v').1 = (vfsOpenName flags v).1 ∧
      SameVfs (vfsOpenName flags v).2 (vfsOpenName flags v').2 := by
  unfold vfsOpenName
  rw [freeFd_congr h]
  split
  next => exact ⟨rfl, h⟩
  next fd hfree =>
    obtain ⟨h4, h8, -⟩ := freeFd_inv hfree
    exact ⟨rfl, h.setFile fd rfl (fun _ => rfl) (fun _ => rfl) fun _ => h.view.fat fd h4 h8⟩

theorem vfsOpen_view (d : Disk) (h : SameVfs v v') (path : List Byte) (flags : Word) :
    (vfsOpen d path flags v').1 = (vfsOpen d path flags v).1 ∧
      SameVfs (vfsOpen d path flags v).2 (vfsOpen d path flags v').2 := by
  unfold vfsOpen
  rw [freeFd_congr h]
  split
  next =>
    split
    next fd _ hfree =>
      obtain ⟨h4, h8, -⟩ := freeFd_inv hfree
      rw [← h.view.fat fd h4 h8]
      dsimp only
      split
      · exact ⟨rfl, h.setFile fd rfl (fun _ => rfl) (fun _ => rfl) fun _ => rfl⟩
      · exact ⟨rfl, h.setFile fd rfl (fun _ => rfl) (fun _ => rfl) fun _ => rfl⟩
    next => exact vfsOpenName_view h flags
  next =>
    rw [h.view.rawOpen]
    exact ⟨rfl, h⟩
  next => exact vfsOpenName_view h flags

theorem vfsClose_view (h : SameVfs v v') (fd : Int) :
    (vfsClose fd v').1 = (vfsClose fd v).1 ∧ SameVfs (vfsClose fd v).2 (vfsClose fd v').2 := by
  unfold vfsClose
  by_cases hfd : 4 ≤ fd ∧ fd < 8
  · have hopen := h.view.isOpen fd.toNat (by omega) (by omega)
    rw [← Option.not_isSome, ← Option.not_isSome, hopen]
    split
    · exact ⟨rfl, h⟩
    · exact ⟨rfl,
        h.setFile _ rfl (fun h3 => by omega) (fun _ => rfl) fun h4 => h.view.fat _ h4 (by omega)⟩
  · rw [if_pos (by omega), if_pos (by omega)]
    exact ⟨rfl, h⟩

theorem vfsRead_view (d : Disk) (h : SameVfs v v') (fd : Int) (out : Nat → Byte) (n : Word) :
    (vfsRead d fd out n v').1 = (vfsRead d fd out n v).1 ∧
    (vfsRead d fd out n v').2.1 = (vfsRead d fd out n v).2.1 ∧
      SameVfs (vfsRead d fd out n v).2.2 (vfsRead d fd out n v').2.2 := by
  unfold vfsRead
  split
  next =>
    split
    · exact ⟨rfl, rfl, h⟩
    · exact ⟨rfl, rfl, h⟩
  next =>
    rw [← h.view.rawOpen, ← h.view.rawPosition]
    split
    next =>
      exact ⟨rfl, rfl, h.setFile 3 h.view.rawOpen (fun _ => rfl) (fun h4 => by omega) fun h4 => by omega⟩
    next =>
      by_cases hfd : 4 ≤ fd ∧ fd < 8
      · rw [← h.view.kind fd.toNat (by omega) (by omega), ← h.view.fat fd.toNat (by omega) (by omega)]
        split
        · exact ⟨rfl, rfl, h.setFile _ (h.view.isOpen _ (by omega) (by omega)) (fun h3 => by omega)
            (fun h4 => h.view.kind _ h4 (by omega)) fun _ => rfl⟩
        · exact ⟨rfl, rfl, h⟩
      · rw [if_neg (by omega), if_neg (by omega)]
        exact ⟨rfl, rfl, h⟩

theorem vfsWrite_view (disk : Block → Disk) (h : SameVfs v v') (accepts : Word → Bool) (fd : Int)
    (data : Nat → Byte) (n : Word) (b : Block) :
    (vfsWrite disk accepts fd data n v' b).1 = (vfsWrite disk accepts fd data n v b).1 ∧
      (vfsWrite disk accepts fd data n v' b).2.2 = (vfsWrite disk accepts fd data n v b).2.2 ∧
      SameVfs (vfsWrite disk accepts fd data n v b).2.1 (vfsWrite disk accepts fd data n v' b).2.1 := by
  unfold vfsWrite
  split
  next => exact ⟨rfl, rfl, h⟩
  next =>
    rw [← h.view.rawOpen, ← h.view.rawPosition]
    split
    · exact ⟨rfl, rfl, h.setFile 3 h.view.rawOpen (fun _ => rfl) (fun h4 => by omega) fun h4 => by omega⟩
    · exact ⟨rfl, rfl, h⟩

theorem vfsCall_view (hb : s'.block = s.block) (h : SameVfs s.vfs s'.vfs) (c : VfsCall) :
    (vfsCall disk s' c).1 = (vfsCall disk s c).1 ∧
    (vfsCall disk s' c).2.block = (vfsCall disk s c).2.block ∧
      SameVfs (vfsCall disk s c).2.vfs (vfsCall disk s' c).2.vfs := by
  cases c with
  | openPath path flags =>
    obtain ⟨hrc, hsame⟩ := vfsOpen_view (disk s.block) h path flags
    simp only [vfsCall, hb]
    exact ⟨by rw [hrc], trivial, hsame⟩
  | read fd out n =>
    obtain ⟨hrc, hout, hsame⟩ := vfsRead_view (disk s.block) h fd out n
    simp only [vfsCall, hb]
    exact ⟨by rw [hrc, hout], trivial, hsame⟩
  | write fd data n accepts =>
    obtain ⟨hrc, hblock, hsame⟩ := vfsWrite_view disk h accepts fd data n s.block
    simp only [vfsCall, hb]
    exact ⟨by rw [hrc], hblock, hsame⟩
  | close fd =>
    obtain ⟨hrc, hsame⟩ := vfsClose_view h fd
    simp only [vfsCall]
    exact ⟨by rw [hrc], hb, hsame⟩

/-! ## Slots -/

structure OwnSlot (v v' : Vfs) : Prop where
  pid : v'.activePid = v.activePid
  other : ∀ k, k ≠ slotForPid v.activePid → v'.files k = v.files k
  raw : ∀ k, (v'.files k 3).name = (v.files k 3).name

theorem OwnSlot.refl (v : Vfs) : OwnSlot v v := ⟨rfl, fun _ _ => rfl, fun _ => rfl⟩

theorem ownSlot_setFile (v : Vfs) (fd : Nat) (h : fd = 3 → f.name = (v.file 3).name) :
    OwnSlot v (v.setFile fd f) := by
  refine ⟨rfl, fun k hk => by simp [Vfs.setFile, hk], fun k => ?_⟩
  by_cases hk : k = slotForPid v.activePid
  · subst hk
    by_cases hfd : 3 = fd
    · subst hfd
      simpa [Vfs.setFile, Vfs.file] using h rfl
    · simp [Vfs.setFile, hfd]
  · simp [Vfs.setFile, hk]

theorem vfsOpenName_own (v : Vfs) (flags : Word) : OwnSlot v (vfsOpenName flags v).2 := by
  unfold vfsOpenName
  split
  next => exact .refl v
  next fd hfree =>
    have := freeFd_inv hfree
    exact ownSlot_setFile v fd fun h3 => by omega

theorem vfsOpen_own (d : Disk) (path : List Byte) (flags : Word) (v : Vfs) :
    OwnSlot v (vfsOpen d path flags v).2 := by
  unfold vfsOpen
  split
  next =>
    split
    next fd _ hfree =>
      have := freeFd_inv hfree
      dsimp only
      split
      · exact ownSlot_setFile v fd fun h3 => by omega
      · exact ownSlot_setFile v fd fun h3 => by omega
    next => exact vfsOpenName_own v flags
  next => exact .refl v
  next => exact vfsOpenName_own v flags

theorem vfsCall_own (disk : Block → Disk) (s : VfsState) (c : VfsCall) :
    OwnSlot s.vfs (vfsCall disk s c).2.vfs := by
  cases c with
  | openPath path flags => exact vfsOpen_own (disk s.block) path flags s.vfs
  | read fd out n =>
    simp only [vfsCall, vfsRead]
    split
    · split
      · exact .refl _
      · exact .refl _
    · split
      · exact ownSlot_setFile _ 3 fun _ => rfl
      · split
        · exact ownSlot_setFile _ _ fun h3 => by omega
        · exact .refl _
  | write fd data n accepts =>
    simp only [vfsCall, vfsWrite]
    split
    · exact .refl _
    · split
      · exact ownSlot_setFile _ 3 fun _ => rfl
      · exact .refl _
  | close fd =>
    simp only [vfsCall, vfsClose]
    split
    · exact .refl _
    · exact ownSlot_setFile _ _ fun h3 => by omega

theorem slotForPid_setProcess (v : Vfs) (pid : Word) :
    slotForPid (vfsSetProcess pid v).activePid = slotForPid pid := by
  unfold vfsSetProcess
  dsimp only
  split
  next h =>
    subst h
    rfl
  next => rfl

theorem vfsEvent_other {e : VfsEvent} (hk : e.slot ≠ k) :
    (vfsEvent disk s e).vfs.files k = s.vfs.files k := by
  cases e with
  | call pid c =>
    refine (vfsCall_own disk (s.setProcess pid) c).other k ?_
    rw [VfsState.setProcess, slotForPid_setProcess]
    exact hk.symm
  | fork parent child => exact Function.update_of_ne hk.symm _ _
  | release pid => exact Function.update_of_ne hk.symm _ _

theorem vfsHistory_other {events : List VfsEvent} (hk : ∀ e ∈ events, e.slot ≠ k) :
    (vfsHistory disk s events).vfs.files k = s.vfs.files k := by
  induction events generalizing s with
  | nil => rfl
  | cons e es ih =>
    have hrest := ih (s := vfsEvent disk s e) fun e' he' => hk e' (List.mem_cons_of_mem _ he')
    exact hrest.trans (vfsEvent_other (hk e List.mem_cons_self))

theorem vfsEvent_raw (h : ∀ k, (s.vfs.files k 3).name.isSome = b) (e : VfsEvent) (k : Nat) :
    ((vfsEvent disk s e).vfs.files k 3).name.isSome = b := by
  cases e with
  | call pid c =>
    change ((vfsCall disk (s.setProcess pid) c).2.vfs.files k 3).name.isSome = b
    rw [(vfsCall_own disk (s.setProcess pid) c).raw k]
    exact h k
  | fork parent child =>
    simp only [vfsEvent, vfsInheritProcess]
    by_cases hk : k = slotForPid child
    · subst hk
      rw [Function.update_self]
      exact h _
    · rw [Function.update_of_ne hk]
      exact h k
  | release pid =>
    simp only [vfsEvent, vfsReleaseProcess]
    by_cases hk : k = slotForPid pid
    · subst hk
      rw [Function.update_self]
      exact h _
    · rw [Function.update_of_ne hk]
      exact h k

theorem vfsHistory_raw (h : ∀ k, (s.vfs.files k 3).name.isSome = b) (events : List VfsEvent) :
    ∀ k, ((vfsHistory disk s events).vfs.files k 3).name.isSome = b := by
  induction events generalizing s with
  | nil => exact h
  | cons e es ih => exact ih (vfsEvent_raw h e)

theorem observe_congr {pid : Word} (hb : s'.block = s.block)
    (h : SameView (s.vfs.files (slotForPid pid)) (s'.vfs.files (slotForPid pid))) (calls : List VfsCall) :
    observe disk pid s' calls = observe disk pid s calls := by
  induction calls generalizing s s' with
  | nil => rfl
  | cons c cs ih =>
    have hsame : SameVfs (s.setProcess pid).vfs (s'.setProcess pid).vfs := by
      refine ⟨rfl, ?_⟩
      unfold Vfs.file VfsState.setProcess
      dsimp only
      rw [slotForPid_setProcess, slotForPid_setProcess]
      exact h
    have hb' : (s'.setProcess pid).block = (s.setProcess pid).block := hb
    obtain ⟨hres, hblock, hview⟩ := vfsCall_view hb' hsame c
    rw [observe, observe, hres, ih hblock]
    have hv := hview.view
    unfold Vfs.file at hv
    rw [(vfsCall_own disk (s.setProcess pid) c).pid, (vfsCall_own disk (s'.setProcess pid) c).pid] at hv
    unfold VfsState.setProcess at hv
    dsimp only at hv
    rw [slotForPid_setProcess, slotForPid_setProcess] at hv
    exact hv

end

/-- The slot of `pid` after `h`, where `pid` exits and is reaped, and after what other slots do then. -/
def afterReap (disk : Block → Disk) (b : Block) (h : List VfsEvent) (pid : Word)
    (later : List VfsEvent) : VfsState :=
  vfsHistory disk (vfsBoot b) (h ++ .release pid :: .release pid :: later)

def leftIn (disk : Block → Disk) (b : Block) (h : List VfsEvent) (pid : Word) (fd : Nat) : VfsFile :=
  (vfsHistory disk (vfsBoot b) h).vfs.files (slotForPid pid) fd

/-- The new process gets the same for its calls after both histories, and its raw device starts at 0. -/
def NotInherited (disk : Block → Disk) (pid : Word) (s s' : VfsState) : Prop :=
  (∀ calls, observe disk pid s' calls = observe disk pid s calls) ∧
    (s.vfs.files (slotForPid pid) 3).position = 0 ∧ (s'.vfs.files (slotForPid pid) 3).position = 0

section

variable {disk : Block → Disk} {b : Block} {h later : List VfsEvent} {pid : Word}

theorem afterReap_files (hlater : ∀ e ∈ later, e.slot ≠ slotForPid pid) (fd : Nat) :
    (afterReap disk b h pid later).vfs.files (slotForPid pid) fd =
      if 4 ≤ fd ∧ fd < 8 then { leftIn disk b h pid fd with name := none, kind := 0, position := 0 }
      else leftIn disk b h pid fd := by
  unfold afterReap vfsHistory
  rw [List.foldl_append, List.foldl_cons, List.foldl_cons]
  refine (congrFun (vfsHistory_other hlater) fd).trans ?_
  simp only [vfsEvent, vfsReleaseProcess, Function.update_self]
  split <;> rfl

theorem vfsBoot_raw (b : Block) (k : Nat) : ((vfsBoot b).vfs.files k 3).name.isSome = b.present := by
  cases hb : b.present <;> simp [vfsBoot, vfsInit, hb]

end

/-- Two histories after which the disk is the same show the same to a new process in the slot, if in both
its earlier process left the raw device at position 0 and the same handles in the descriptors 4 to 7. -/
theorem descriptors_not_inherited (disk : Block → Disk) (b : Block) {h₁ h₂ later₁ later₂ : List VfsEvent}
    {pid pid' : Word} (hslot : slotForPid pid' = slotForPid pid)
    (hlater₁ : ∀ e ∈ later₁, e.slot ≠ slotForPid pid) (hlater₂ : ∀ e ∈ later₂, e.slot ≠ slotForPid pid)
    (hblock : (afterReap disk b h₂ pid later₂).block = (afterReap disk b h₁ pid later₁).block)
    (hraw₁ : (leftIn disk b h₁ pid 3).position = 0) (hraw₂ : (leftIn disk b h₂ pid 3).position = 0)
    (hfat : ∀ fd, 4 ≤ fd → fd < 8 → (leftIn disk b h₁ pid fd).fat = (leftIn disk b h₂ pid fd).fat) :
    NotInherited disk pid' (afterReap disk b h₁ pid later₁) (afterReap disk b h₂ pid later₂) := by
  have hfiles₁ := @afterReap_files disk b h₁ later₁ pid hlater₁
  have hfiles₂ := @afterReap_files disk b h₂ later₂ pid hlater₂
  have hname : ∀ h, (leftIn disk b h pid 3).name.isSome = b.present := fun h =>
    vfsHistory_raw (vfsBoot_raw b) h (slotForPid pid)
  refine ⟨observe_congr hblock ?_, ?_, ?_⟩
  · rw [hslot]
    constructor
    · rw [hfiles₁, hfiles₂, if_neg (by decide), if_neg (by decide)]
      exact (hname h₁).trans (hname h₂).symm
    · rw [hfiles₁, hfiles₂, if_neg (by decide), if_neg (by decide), hraw₁, hraw₂]
    · intro fd h4 h8
      rw [hfiles₁, hfiles₂, if_pos ⟨h4, h8⟩, if_pos ⟨h4, h8⟩]
    · intro fd h4 h8
      rw [hfiles₁, hfiles₂, if_pos ⟨h4, h8⟩, if_pos ⟨h4, h8⟩]
    · intro fd h4 h8
      rw [hfiles₁, hfiles₂, if_pos ⟨h4, h8⟩, if_pos ⟨h4, h8⟩]
      exact hfat fd h4 h8
  · rw [hslot, hfiles₁, if_neg (by decide), hraw₁]
  · rw [hslot, hfiles₂, if_neg (by decide), hraw₂]

def fatDisk (fuel : Nat) (g : Fat32) (d : Dev) : Disk where
  mounted := g.mounted
  openFile := fun path f =>
    match fat32Open fuel g path d with
    | some (.found f', _) => (true, f')
    | _ => (false, f)
  readFile := fun f out n =>
    let r := fat32ReadFile g f out n d
    (r.rc, r.out, r.file)
  sector := fun lba => (blockReadSector (d.ok d.reads.length) d.block lba).map byteAt
  serial := none

def secretDisk : Word → Sector := fun lba i =>
  if lba = 2 ∧ i = 26 then 3 else if lba = 4 then 0x58 else letterDisk lba i

def secretDev : Dev := ⟨⟨true, true, secretDisk⟩, fun _ => true, []⟩

def volumeOn (b : Block) : Disk := fatDisk 2 twoClusterVolume ⟨b, fun _ => true, []⟩

/-- The first process of slot 0 opens and closes a name, or does nothing. -/
theorem descriptors_not_inherited_name : NotInherited volumeOn 0x201
    (afterReap volumeOn secretDev.block
      [.call 0x101 (.openPath [0x78] 0), .call 0x101 (.close 4)] 0x101 [])
    (afterReap volumeOn secretDev.block [] 0x101 []) := by
  refine descriptors_not_inherited volumeOn _ (by decide) (by simp)
    (by simp) rfl rfl rfl fun fd h4 h8 => ?_
  obtain rfl | rfl | rfl | rfl : fd = 4 ∨ fd = 5 ∨ fd = 6 ∨ fd = 7 := by omega
  all_goals rfl

def tookOver (calls : List VfsCall) : VfsState :=
  afterReap volumeOn secretDev.block (calls.map (.call 0x101)) 0x101 []

def seen (s : VfsState) (calls : List VfsCall) : List (Int × Byte) :=
  (observe volumeOn 0x201 s calls).map fun r => (r.1, r.2 0)

def hdaPath (x : Byte) : List Byte := [0x68, 0x64, 0x61, 0x2f, x]

/-- The first process reads two sectors of the raw device, and the second one goes on from there; or the
first one opens the file `A`, and the second one fails to open `B` and reads `A`. -/
theorem descriptors_leak :
    seen (tookOver [.read 3 (fun _ => 0) 1024]) [.read 3 (fun _ => 0) 1] = [(1, 0x41)] ∧
      seen (tookOver []) [.read 3 (fun _ => 0) 1] = [(1, 0)] ∧
      ¬ NotInherited volumeOn 0x201 (tookOver [.read 3 (fun _ => 0) 1024]) (tookOver []) ∧
      seen (tookOver [.openPath (hdaPath 0x41) 0]) [.openPath (hdaPath 0x42) 0, .read 4 (fun _ => 0) 1] =
        [(-1, 0), (1, 0x58)] ∧
      seen (tookOver []) [.openPath (hdaPath 0x42) 0, .read 4 (fun _ => 0) 1] = [(-1, 0), (0, 0)] ∧
      ¬ NotInherited volumeOn 0x201 (tookOver [.openPath (hdaPath 0x41) 0]) (tookOver []) := by
  have hleak : ∀ s s' calls, seen s' calls ≠ seen s calls → ¬ NotInherited volumeOn 0x201 s s' := by
    intro s s' calls hne h
    exact hne (congrArg (List.map fun r : VfsResult => (r.1, r.2 0)) (h.1 calls))
  refine ⟨by decide +kernel, by decide +kernel, hleak _ _ [.read 3 (fun _ => 0) 1] (by decide +kernel),
    by decide +kernel,
    by decide +kernel, hleak _ _ [.openPath (hdaPath 0x42) 0, .read 4 (fun _ => 0) 1] (by decide +kernel)⟩

end Ceblar
