import Ceblar.Fs.Descriptors
import Ceblar.Fs.Lookup

/-! # Descriptors that are not open

A descriptor whose `fat32_open` failed has lost the name that it was given and kept the kind.
-/

namespace Ceblar

open Function

def vfsReset (b : Block) (v : Vfs) : Vfs :=
  { v with
    files := fun slot fd =>
      { v.files slot fd with
        name := if fd = 3 ∧ b.present then some .hda else none
        kind := if fd = 3 ∧ b.present then 1 else 0
        position := 0 } }

def vfsStatic : Vfs := ⟨fun _ _ => ⟨none, 0, 0, 0, ⟨0, 0, 0, false⟩⟩, 1⟩

example (b : Block) : vfsReset b vfsStatic = vfsInit b := rfl

/-- A null pointer is `none`. Every call finds the file system in a state of its own. -/
inductive VfsOp where
  | init (b : Block)
  | setProcess (pid : Word)
  | openName (disk : Disk) (name : Option (List Byte)) (flags : Word)
  | close (fd : Int)
  | read (disk : Disk) (fd : Int) (buffer : Option (Nat → Byte)) (n : Word)
  | inherit (parent child : Word)
  | release (pid : Word)

def vfsStep (v : Vfs) : VfsOp → Int × Vfs
  | .init b => (0, vfsReset b v)
  | .setProcess pid => (0, vfsSetProcess pid v)
  | .openName disk name flags =>
    match name with
    | none => (-1, v)
    | some path => vfsOpen disk path flags v
  | .close fd => vfsClose fd v
  | .read disk fd buffer n =>
    match buffer with
    | none => (-1, v)
    | some out =>
      let (rc, _, v) := vfsRead disk fd out n v
      (rc, v)
  | .inherit parent child => (0, vfsInheritProcess parent child v)
  | .release pid => (0, vfsReleaseProcess pid v)

/-! ## The ledger -/

inductive Standing where
  /-- There was no open yet, or the last one was closed. -/
  | closed
  | outstanding
  /-- The last call for it was an open of a file on the volume that failed. -/
  | failed
  deriving DecidableEq

abbrev Ledger := Nat → Nat → Standing

def Ledger.set (l : Ledger) (slot fd : Nat) (s : Standing) : Ledger :=
  update l slot (update (l slot) fd s)

def Ledger.lowest (l : Ledger) (slot : Nat) : Option Nat :=
  [4, 5, 6, 7].find? fun fd => l slot fd ≠ .outstanding

def onVolume : Option (List Byte) → Bool
  | some (0x68 :: 0x64 :: 0x61 :: 0x2f :: _) => true
  | _ => false

def Ledger.note (l : Ledger) (pid : Word) (rc : Int) : VfsOp → Ledger
  | .init _ => fun _ _ => .closed
  | .openName disk name _ =>
    if 4 ≤ rc then l.set (slotForPid pid) rc.toNat .outstanding
    else if rc = -1 ∧ onVolume name ∧ disk.mounted then
      match l.lowest (slotForPid pid) with
      | some fd => l.set (slotForPid pid) fd .failed
      | none => l
    else l
  | .close fd => if rc = 0 then l.set (slotForPid pid) fd.toNat .closed else l
  | .inherit parent child => update l (slotForPid child) (l (slotForPid parent))
  | .release pid => update l (slotForPid pid) fun _ => .closed
  | .setProcess _ | .read .. => l

def noteStep (s : Vfs × Ledger) (op : VfsOp) : Vfs × Ledger :=
  ((vfsStep s.1 op).2, s.2.note s.1.activePid (vfsStep s.1 op).1 op)

def noted (ops : List VfsOp) : Vfs × Ledger := ops.foldl noteStep (vfsStatic, fun _ _ => .closed)

/-! ## The table agrees -/

def VfsFile.standing (f : VfsFile) : Standing :=
  if f.name.isSome then .outstanding else if f.kind = 2 then .failed else .closed

def Agrees (v : Vfs) (l : Ledger) : Prop :=
  ∀ slot fd, 4 ≤ fd → fd < 8 → l slot fd = (v.files slot fd).standing

section

variable {v : Vfs} {l : Ledger} {disk : Disk}

theorem standing_eq_outstanding {f : VfsFile} : f.standing = .outstanding ↔ f.name.isSome = true := by
  unfold VfsFile.standing
  split
  · simp [*]
  · split <;> simp [*]

theorem standing_eq_failed {f : VfsFile} : f.standing = .failed ↔ f.name = none ∧ f.kind = 2 := by
  unfold VfsFile.standing
  cases hname : f.name with
  | some p => simp
  | none => simp

theorem Agrees.set (h : Agrees v l) (fd : Nat) (f : VfsFile) :
    Agrees (v.setFile fd f) (l.set (slotForPid v.activePid) fd f.standing) := by
  intro slot n h4 h8
  unfold Ledger.set Vfs.setFile
  dsimp only
  by_cases hs : slot = slotForPid v.activePid
  · subst hs
    by_cases hn : n = fd
    · subst hn
      simp
    · simpa [hn] using h _ n h4 h8
  · simpa [hs] using h slot n h4 h8

theorem Agrees.setFile (h : Agrees v l) {fd : Nat} {f : VfsFile}
    (hf : 4 ≤ fd → fd < 8 → f.standing = (v.file fd).standing) : Agrees (v.setFile fd f) l := by
  intro slot n h4 h8
  rw [h slot n h4 h8]
  unfold Vfs.setFile
  dsimp only
  by_cases hs : slot = slotForPid v.activePid
  · subst hs
    by_cases hn : n = fd
    · subst hn
      simpa [Vfs.file] using (hf h4 h8).symm
    · simp [hn]
  · simp [hs]

theorem Agrees.slot {t : Nat → VfsFile} {u : Nat → Standing} (h : Agrees v l) (k : Nat)
    (hk : ∀ fd, 4 ≤ fd → fd < 8 → u fd = (t fd).standing) :
    Agrees { v with files := update v.files k t } (update l k u) := by
  intro slot fd h4 h8
  by_cases hs : slot = k
  · subst hs
    simpa using hk fd h4 h8
  · simpa [hs] using h slot fd h4 h8

theorem Agrees.lowest (h : Agrees v l) : l.lowest (slotForPid v.activePid) = v.freeFd := by
  unfold Ledger.lowest Vfs.freeFd
  have hfree : ∀ fd, 4 ≤ fd → fd < 8 →
      decide (l (slotForPid v.activePid) fd ≠ .outstanding) = (v.file fd).name.isNone := by
    intro fd h4 h8
    rw [h _ fd h4 h8, Bool.eq_iff_iff]
    simp only [ne_eq, decide_eq_true_eq, standing_eq_outstanding, Bool.not_eq_true,
      Option.isSome_eq_false_iff]
    rfl
  simp only [List.find?_cons, hfree 4 (by decide) (by decide), hfree 5 (by decide) (by decide),
    hfree 6 (by decide) (by decide), hfree 7 (by decide) (by decide), List.find?_nil]

theorem vfsOpen_cases (disk : Disk) (path : List Byte) (flags : Word) (v : Vfs) :
    (∃ (fd : Nat) (f : VfsFile), 4 ≤ fd ∧ f.name.isSome = true ∧
        vfsOpen disk path flags v = ((fd : Int), v.setFile fd f)) ∨
      (∃ (fd : Nat) (f : VfsFile), v.freeFd = some fd ∧ f.name = none ∧ f.kind = 2 ∧
        onVolume (some path) = true ∧
        disk.mounted = true ∧ vfsOpen disk path flags v = (-1, v.setFile fd f)) ∨
      (∃ rc : Int, rc < 4 ∧ (rc = -1 → onVolume (some path) = true → v.freeFd = none) ∧
        vfsOpen disk path flags v = (rc, v)) := by
  have hname : (∃ (fd : Nat) (f : VfsFile), 4 ≤ fd ∧ f.name.isSome = true ∧
        vfsOpenName flags v = ((fd : Int), v.setFile fd f)) ∨
      v.freeFd = none ∧ vfsOpenName flags v = (-1, v) := by
    unfold vfsOpenName
    split
    · rename_i hnone
      exact .inr ⟨hnone, rfl⟩
    · rename_i fd hfree
      exact .inl ⟨fd, _, (freeFd_inv hfree).1, rfl, rfl⟩
  unfold vfsOpen
  split
  · split
    · rename_i fd hmounted hfree
      dsimp only
      split
      · exact .inl ⟨fd, _, (freeFd_inv hfree).1, rfl, rfl⟩
      · exact .inr (.inl ⟨fd, _, hfree, rfl, rfl, rfl, hmounted, rfl⟩)
    · exact hname.imp id fun h => .inr ⟨-1, by decide, fun _ _ => h.1, h.2⟩
  · refine .inr (.inr ⟨_, ?_, fun _ h => absurd h (by decide), rfl⟩)
    split <;> decide
  · exact hname.imp id fun h => .inr ⟨-1, by decide, fun _ _ => h.1, h.2⟩

theorem agrees_open (h : Agrees v l) (disk : Disk) (path : List Byte) (flags : Word) :
    Agrees (vfsOpen disk path flags v).2
      (l.note v.activePid (vfsOpen disk path flags v).1 (.openName disk (some path) flags)) := by
  unfold Ledger.note
  dsimp only
  rcases vfsOpen_cases disk path flags v with ⟨fd, f, h4, hf, hopen⟩ |
    ⟨fd, f, hfree, hf, hkind, hpath, hmounted, hopen⟩ | ⟨rc, hlt, hnone, hopen⟩
  · rw [hopen, if_pos (by dsimp only; omega), Int.toNat_natCast, ← standing_eq_outstanding.mpr hf]
    exact h.set fd f
  · rw [hopen, if_neg (by dsimp only; omega), if_pos ⟨rfl, hpath, hmounted⟩, h.lowest, hfree,
      ← standing_eq_failed.mpr ⟨hf, hkind⟩]
    exact h.set fd f
  · rw [hopen, if_neg (by dsimp only; omega)]
    split
    · rename_i hfail
      rw [h.lowest, hnone hfail.1 hfail.2.1]
      exact h
    · exact h

theorem agrees_close (h : Agrees v l) (fd : Int) :
    Agrees (vfsClose fd v).2 (l.note v.activePid (vfsClose fd v).1 (.close fd)) := by
  unfold vfsClose Ledger.note
  split
  · exact h
  · exact h.set fd.toNat { v.file fd.toNat with name := none, kind := 0 }

theorem agrees_read (h : Agrees v l) (disk : Disk) (fd : Int) (out : Nat → Byte) (n : Word) :
    Agrees (vfsRead disk fd out n v).2.2 l := by
  unfold vfsRead
  split
  · split
    · exact h
    · exact h
  · split
    · exact h.setFile fun h4 => absurd h4 (by decide)
    · split
      · exact h.setFile fun _ _ => rfl
      · exact h

theorem agrees_noteStep {s : Vfs × Ledger} (h : Agrees s.1 s.2) (op : VfsOp) :
    Agrees (noteStep s op).1 (noteStep s op).2 := by
  obtain ⟨v, l⟩ := s
  unfold noteStep
  cases op with
  | init b =>
    intro slot fd h4 _
    have hfd : ¬(fd = 3 ∧ b.present = true) := by omega
    simp [vfsStep, vfsReset, Ledger.note, VfsFile.standing, hfd]
  | setProcess pid => exact h
  | openName disk name flags =>
    cases name with
    | none => simpa [vfsStep, Ledger.note, onVolume] using h
    | some path => exact agrees_open h disk path flags
  | close fd => exact agrees_close h fd
  | read disk fd buffer n =>
    cases buffer with
    | none => exact h
    | some out => exact agrees_read h disk fd out n
  | inherit parent child => exact h.slot _ fun fd h4 h8 => h _ fd h4 h8
  | release pid =>
    refine h.slot _ fun fd h4 h8 => ?_
    simp [h4, h8, VfsFile.standing]

theorem agrees_noted (ops : List VfsOp) : Agrees (noted ops).1 (noted ops).2 := by
  unfold noted
  induction ops using List.reverseRecOn with
  | nil =>
    intro slot fd _ _
    rfl
  | append_singleton ops op ih =>
    rw [List.foldl_append]
    exact agrees_noteStep ih op

end

/-- Files are read by `fat32_read_file`. -/
def Disk.OnFat (disk : Disk) : Prop :=
  ∃ g d, ∀ f out n, disk.readFile f out n =
    ((fat32ReadFile g f out n d).rc, (fat32ReadFile g f out n d).out, (fat32ReadFile g f out n d).file)

theorem fat32ReadFile_zero (g : Fat32) (f : FatFile) (out : Nat → Byte) (d : Dev) :
    (fat32ReadFile g f out 0 d).rc = 0 := by
  unfold fat32ReadFile
  split
  · rfl
  · dsimp only
    rw [if_neg (by simp [BitVec.lt_def])]
    rfl

theorem vfsRead_file {disk : Disk} {v : Vfs} {fd : Nat} (h4 : 4 ≤ fd) (h8 : fd < 8)
    (out : Nat → Byte) (n : Word) :
    (vfsRead disk fd out n v).1 = if (v.file fd).kind = 2 then
        (disk.readFile (v.file fd).fat out n).1 else -1 := by
  unfold vfsRead
  rw [if_neg (by omega), if_neg (by omega), Int.toNat_natCast]
  by_cases hkind : (v.file fd).kind = 2
  · rw [if_pos ⟨by omega, by omega, hkind⟩, if_pos hkind]
  · rw [if_neg fun h => hkind h.2.2, if_neg hkind]

def Unreadable (disk : Disk) (v : Vfs) (l : Ledger) : Prop :=
  ∀ fd : Nat, 4 ≤ fd → fd < 8 → l (slotForPid v.activePid) fd ≠ .outstanding →
    (∀ out n, (vfsRead disk fd out n v).1 = -1) ∧ (vfsClose fd v).1 = -1

/-- After any history the active process can read none of its descriptors that are not open, exactly if
for none of them the last call was an open on the volume that failed. -/
theorem unreadable_iff (ops : List VfsOp) {disk : Disk} (hdisk : disk.OnFat) :
    Unreadable disk (noted ops).1 (noted ops).2 ↔
      ∀ fd, 4 ≤ fd → fd < 8 → (noted ops).2 (slotForPid (noted ops).1.activePid) fd ≠ .failed := by
  have hagrees := agrees_noted ops
  generalize noted ops = s at hagrees
  obtain ⟨v, l⟩ := s
  dsimp only at hagrees ⊢
  constructor
  · intro h fd h4 h8 hfailed
    have hread := (h fd h4 h8 (by rw [hfailed]; decide)).1 (fun _ => 0) 0
    have hkind : (v.file fd).kind = 2 := by
      rw [hagrees _ fd h4 h8] at hfailed
      exact (standing_eq_failed.mp hfailed).2
    obtain ⟨g, d, hfat⟩ := hdisk
    rw [vfsRead_file h4 h8, if_pos hkind, hfat, fat32ReadFile_zero] at hread
    cases hread
  · intro h fd h4 h8 hopen
    have hfailed := h fd h4 h8
    rw [hagrees _ fd h4 h8] at hopen hfailed
    have hname : (v.file fd).name = none := by
      simpa [Vfs.file] using fun hsome => hopen (standing_eq_outstanding.mpr hsome)
    have hkind : (v.file fd).kind ≠ 2 := fun hkind => hfailed (standing_eq_failed.mpr ⟨hname, hkind⟩)
    refine ⟨fun out n => ?_, ?_⟩
    · rw [vfsRead_file h4 h8, if_neg hkind]
    · unfold vfsClose
      rw [if_pos (by simp [hname])]

/-! ## A closed file that is read -/

theorem fatDisk_onFat (fuel : Nat) (g : Fat32) (d : Dev) :
    (fatDisk fuel g d).OnFat := ⟨g, d, fun _ _ _ => rfl⟩

def secretFs : Disk := fatDisk 2 twoClusterVolume secretDev

def closedOps : List VfsOp :=
  [.init secretDev.block, .openName secretFs (some (hdaPath 0x41)) 0, .close 4]

theorem unreadable_closed : Unreadable secretFs (noted closedOps).1 (noted closedOps).2 := by
  refine (unreadable_iff closedOps (fatDisk_onFat 2 twoClusterVolume secretDev)).mpr fun fd h4 h8 => ?_
  obtain rfl | rfl | rfl | rfl : fd = 4 ∨ fd = 5 ∨ fd = 6 ∨ fd = 7 := by omega
  all_goals decide +kernel

def failedOps : List VfsOp := closedOps ++ [.openName secretFs (some (hdaPath 0x42)) 0]

/-- The open fails, and descriptor 4 reads the five bytes of `A`. -/
theorem closed_file_read :
    (vfsStep (noted closedOps).1 (.openName secretFs (some (hdaPath 0x42)) 0)).1 = -1 ∧
      (noted failedOps).2 (slotForPid (noted failedOps).1.activePid) 4 = .failed ∧
      (vfsRead secretFs 4 (fun _ => 0) 8 (noted failedOps).1).1 = 5 ∧
      (List.range 8).map (vfsRead secretFs 4 (fun _ => 0) 8 (noted failedOps).1).2.1 =
        [0x58, 0x58, 0x58, 0x58, 0x58, 0, 0, 0] ∧
      ¬Unreadable secretFs (noted failedOps).1 (noted failedOps).2 := by
  have hfailed : (noted failedOps).2 (slotForPid (noted failedOps).1.activePid) 4 = .failed := by
    decide +kernel
  have hread : (vfsRead secretFs 4 (fun _ => 0) 8 (noted failedOps).1).1 = 5 := by decide +kernel
  refine ⟨by decide +kernel, hfailed, hread, by decide +kernel, fun h => ?_⟩
  have hnone := (h 4 (by decide) (by decide) (by rw [hfailed]; decide)).1 (fun _ => 0) 8
  exact absurd (hread.symm.trans hnone) (by decide)

end Ceblar
