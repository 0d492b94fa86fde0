import Ceblar.Fs.Fat32

/-! # Descriptors (`fs/vfs.c`)

Each slot of the process table has eight descriptors. The file system and the devices below them
are a parameter; what goes to the screen and the serial line is left out.
-/

namespace Ceblar

open Function

inductive NamePtr where
  | fatFile
  | hda
  | path

structure VfsFile where
  /-- A null pointer is a free descriptor. -/
  name : Option NamePtr
  flags : Word
  position : Word
  kind : Word
  fat : FatFile

structure Vfs where
  files : Nat → Nat → VfsFile
  activePid : Word

structure Disk where
  mounted : Bool
  /-- `fat32_open`: whether it returned 0, and what it left in the file. -/
  openFile : List Byte → FatFile → Bool × FatFile
  /-- `fat32_read_file`: the result, what it left in the buffer and in the file. -/
  readFile : FatFile → (Nat → Byte) → Word → Int × (Nat → Byte) × FatFile
  sector : Word → Option (Nat → Byte)
  /-- `serial_read`; `none` is a negative result. -/
  serial : Option Byte

def slotForPid (pid : Word) : Nat :=
  let slot := (pid &&& 0xff).toNat
  if slot = 0 then 0 else if slot - 1 < 32 then slot - 1 else 0

def Vfs.file (v : Vfs) (fd : Nat) : VfsFile := v.files (slotForPid v.activePid) fd

def Vfs.setFile (v : Vfs) (fd : Nat) (f : VfsFile) : Vfs :=
  { v with
    files := update v.files (slotForPid v.activePid)
      (update (v.files (slotForPid v.activePid)) fd f) }

def vfsSetProcess (pid : Word) (v : Vfs) : Vfs := { v with activePid := if pid = 0 then 1 else pid }

/-- The first free descriptor from `VFS_FD_FIRST_FILE` on. -/
def Vfs.freeFd (v : Vfs) : Option Nat := [4, 5, 6, 7].find? fun fd => (v.file fd).name.isNone

/-- The end of `vfs_open`: any other name gets a descriptor that nothing can be read from. -/
def vfsOpenName (flags : Word) (v : Vfs) : Int × Vfs :=
  match v.freeFd with
  | none => (-1, v)
  | some fd => (fd, v.setFile fd { v.file fd with name := some .path, flags, position := 0, kind := 0 })

def vfsOpen (disk : Disk) (path : List Byte) (flags : Word) (v : Vfs) : Int × Vfs :=
  match path with
  | 0x68 :: 0x64 :: 0x61 :: 0x2f :: rest =>
    match disk.mounted, v.freeFd with
    | true, some fd =>
      let (opened, fat) := disk.openFile rest (v.file fd).fat
      let f := { v.file fd with name := some .fatFile, kind := 2, flags, position := 0, fat }
      if opened then (fd, v.setFile fd f) else (-1, v.setFile fd { f with name := none })
    | _, _ => vfsOpenName flags v
  | [0x68, 0x64, 0x61] => (if (v.file 3).name.isSome then 3 else -1, v)
  | _ => vfsOpenName flags v

def vfsClose (fd : Int) (v : Vfs) : Int × Vfs :=
  if fd < 4 ∨ 8 ≤ fd ∨ (v.file fd.toNat).name.isNone then (-1, v)
  else (0, v.setFile fd.toNat { v.file fd.toNat with name := none, kind := 0 })

def rawRead (disk : Disk) (n : Word) : Nat → Word → Word → (Nat → Byte) → Int × (Nat → Byte) × Word
  | 0, done, position, out => (done.toInt, out, position)
  | fuel + 1, done, position, out =>
    if done < n then
      let off := position % 512
      let take := if n - done < 512 - off then n - done else 512 - off
      match disk.sector (position / 512) with
      | none => (if done = 0 then -1 else done.toInt, out, position)
      | some sector =>
        let out := fun i =>
          if done.toNat ≤ i ∧ i < done.toNat + take.toNat then sector (off.toNat + (i - done.toNat))
          else out i
        rawRead disk n fuel (done + take) (position + take) out
    else (done.toInt, out, position)

/-- `vfs_read` into a buffer that holds `out`. -/
def vfsRead (disk : Disk) (fd : Int) (out : Nat → Byte) (n : Word) (v : Vfs) : Int × (Nat → Byte) × Vfs :=
  if fd = 0 ∧ n ≠ 0 then
    match disk.serial with
    | none => (0, out, v)
    | some c => (1, update out 0 c, v)
  else if fd = 3 ∧ (v.file 3).name.isSome then
    let (rc, out, position) := rawRead disk n n.toNat 0 (v.file 3).position out
    (rc, out, v.setFile 3 { v.file 3 with position })
  else if 4 ≤ fd ∧ fd < 8 ∧ (v.file fd.toNat).kind = 2 then
    let (rc, out, fat) := disk.readFile (v.file fd.toNat).fat out n
    (rc, out, v.setFile fd.toNat { v.file fd.toNat with fat })
  else (-1, out, v)

/-- The loop over the raw device. A sector that is not replaced as a whole is read first; `accepts`
says which sectors the device stores. -/
def rawWrite (disk : Block → Disk) (accepts : Word → Bool) (data : Nat → Byte) (n : Word) :
    Nat → Word → Word → Block → Int × Word × Block
  | 0, done, position, b => (done.toInt, position, b)
  | fuel + 1, done, position, b =>
    if done < n then
      let lba := position / 512
      let off := position % 512
      let take := if n - done < 512 - off then n - done else 512 - off
      match if off ≠ 0 ∨ take < 512 then (disk b).sector lba else some fun _ => 0 with
      | none => (if done = 0 then -1 else done.toInt, position, b)
      | some sector =>
        if b.present && b.writable && accepts lba then
          let sector : Sector := fun i =>
            if off.toNat ≤ i ∧ i < off.toNat + take.toNat then data (done.toNat + (i - off.toNat))
            else sector i
          rawWrite disk accepts data n fuel (done + take) (position + take) (b.store lba sector)
        else (if done = 0 then -1 else done.toInt, position, b)
    else (done.toInt, position, b)

/-- `vfs_write`; what a write to the screen or the serial line shows is left out. -/
def vfsWrite (disk : Block → Disk) (accepts : Word → Bool) (fd : Int) (data : Nat → Byte) (n : Word)
    (v : Vfs) (b : Block) : Int × Vfs × Block :=
  if fd = 1 ∨ fd = 2 then (n.toInt, v, b)
  else if fd = 3 ∧ (v.file 3).name.isSome then
    let (rc, position, b) := rawWrite disk accepts data n n.toNat 0 (v.file 3).position b
    (rc, v.setFile 3 { v.file 3 with position }, b)
  else (-1, v, b)

def vfsInit (b : Block) : Vfs where
  files := fun _ fd =>
    { name := if fd = 3 ∧ b.present then some .hda else none
      flags := 0
      position := 0
      kind := if fd = 3 ∧ b.present then 1 else 0
      fat := ⟨0, 0, 0, false⟩ }
  activePid := 1

def vfsInheritProcess (parent child : Word) (v : Vfs) : Vfs :=
  { v with files := update v.files (slotForPid child) (v.files (slotForPid parent)) }

/-- `vfs_release_process`: the descriptors from `VFS_FD_FIRST_FILE` on are closed. -/
def vfsReleaseProcess (pid : Word) (v : Vfs) : Vfs :=
  { v with
    files := update v.files (slotForPid pid) fun fd =>
      let f := v.files (slotForPid pid) fd
      if 4 ≤ fd ∧ fd < 8 then { f with name := none, kind := 0, position := 0 } else f }

/-! ## Open descriptors -/

def Vfs.isOpen (v : Vfs) (slot fd : Nat) : Bool := (v.files slot fd).name.isSome

def SameOpen (v v' : Vfs) : Prop :=
  v'.activePid = v.activePid ∧ ∀ slot fd, v'.isOpen slot fd = v.isOpen slot fd

section

variable {disk : Disk} {path : List Byte} {v v' : Vfs}

theorem SameOpen.refl (v : Vfs) : SameOpen v v := ⟨rfl, fun _ _ => rfl⟩

theorem isOpen_setFile (v : Vfs) (fd : Nat) (f : VfsFile) (slot fd' : Nat) :
    (v.setFile fd f).isOpen slot fd' =
      if slot = slotForPid v.activePid ∧ fd' = fd then f.name.isSome else v.isOpen slot fd' := by
  unfold Vfs.isOpen Vfs.setFile
  by_cases hs : slot = slotForPid v.activePid
  · subst hs
    by_cases hf : fd' = fd
    · subst hf
      simp
    · simp [hf]
  · simp [hs]

theorem sameOpen_setFile {fd : Nat} {f : VfsFile} (h : f.name.isSome = (v.file fd).name.isSome) :
    SameOpen v (v.setFile fd f) := by
  refine ⟨rfl, fun slot fd' => ?_⟩
  rw [isOpen_setFile]
  split
  · rename_i hs
    rw [h, hs.1, hs.2]
    rfl
  · rfl

theorem freeFd_inv {fd : Nat} (h : v.freeFd = some fd) : 4 ≤ fd ∧ fd < 8 ∧ (v.file fd).name = none := by
  have hmem := List.mem_of_find?_eq_some h
  have hname := List.find?_some h
  simp only [List.mem_cons, List.not_mem_nil, or_false] at hmem
  simp only [Option.isNone_iff_eq_none] at hname
  exact ⟨by omega, by omega, hname⟩

theorem vfsOpen_inv {flags : Word} {fd : Int} (h : vfsOpen disk path flags v = (fd, v')) :
    (fd < 0 ∧ SameOpen v v') ∨ (fd = 3 ∧ v' = v) ∨
      ∃ (n : Nat) (f : VfsFile), fd = n ∧ 4 ≤ n ∧ n < 8 ∧
      (v.file n).name = none ∧ f.name ≠ none ∧ v' = v.setFile n f := by
  have hname : ∀ {fd : Int} {v' : Vfs}, vfsOpenName flags v = (fd, v') → (fd < 0 ∧ SameOpen v v') ∨
      ∃ (n : Nat) (f : VfsFile), fd = n ∧ 4 ≤ n ∧ n < 8 ∧
      (v.file n).name = none ∧ f.name ≠ none ∧ v' = v.setFile n f := by
    intro fd v' h
    unfold vfsOpenName at h
    split at h
    · cases h
      exact .inl ⟨by decide, SameOpen.refl _⟩
    · rename_i n hfree
      obtain ⟨h4, h8, hnone⟩ := freeFd_inv hfree
      cases h
      exact .inr ⟨n, _, rfl, h4, h8, hnone, Option.some_ne_none _, rfl⟩
  unfold vfsOpen at h
  split at h
  · split at h
    · rename_i n _ hfree
      obtain ⟨h4, h8, hnone⟩ := freeFd_inv hfree
      dsimp only at h
      split at h
      · cases h
        exact .inr (.inr ⟨n, _, rfl, h4, h8, hnone, Option.some_ne_none _, rfl⟩)
      · cases h
        exact .inl ⟨by decide, sameOpen_setFile (by simp [hnone])⟩
    · exact (hname h).imp_right .inr
  · cases h
    split
    · exact .inr (.inl ⟨rfl, rfl⟩)
    · exact .inl ⟨by decide, SameOpen.refl _⟩
  · exact (hname h).imp_right .inr

theorem vfsRead_open (disk : Disk) (v : Vfs) (fd : Int) (out : Nat → Byte) (n : Word) :
    SameOpen v (vfsRead disk fd out n v).2.2 := by
  unfold vfsRead
  split
  · split
    · exact SameOpen.refl _
    · exact SameOpen.refl _
  · split
    · exact sameOpen_setFile rfl
    · split
      · exact sameOpen_setFile rfl
      · exact SameOpen.refl _

theorem open_close {flags : Word} {fd : Int} {v1 : Vfs} (h : vfsOpen disk path flags v = (fd, v1))
    (hfd : ¬fd < 0) (hsame : SameOpen v1 v') : SameOpen v (vfsClose fd v').2 := by
  rcases vfsOpen_inv h with ⟨hneg, -⟩ | ⟨rfl, rfl⟩ | ⟨n, f, rfl, h4, h8, hnone, hf, rfl⟩
  · exact absurd hneg hfd
  · unfold vfsClose
    rw [if_pos (.inl (by decide))]
    exact hsame
  · have hopen : (v'.file n).name.isNone = false := by
      have hn := hsame.2 (slotForPid v.activePid) n
      rw [isOpen_setFile, if_pos ⟨rfl, rfl⟩, Option.isSome_iff_ne_none.mpr hf] at hn
      unfold Vfs.file
      rw [hsame.1]
      exact Option.isNone_eq_false_iff.mpr hn
    unfold vfsClose
    rw [if_neg (by simp [hopen]; omega)]
    refine ⟨hsame.1, fun slot fd => ?_⟩
    rw [Int.toNat_natCast, isOpen_setFile, hsame.1, hsame.2, isOpen_setFile]
    split
    · rename_i hs
      rw [hs.1, hs.2]
      exact (congrArg Option.isSome hnone).symm
    · rw [if_neg]
      assumption

end

end Ceblar
