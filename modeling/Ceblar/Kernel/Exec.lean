import Ceblar.Fs.Vfs
import Ceblar.Kernel.Elf
import Ceblar.Mm.Heap
import Ceblar.Scheduler.RoundRobin

/-! # Programs from files

`SYS_EXEC` (`ee` in `kernel/syscall.c`), `process_exec_path` and `process_create_from_path`: a
file is read into the heap, and an address space is built from it before anything is replaced.
-/

namespace Ceblar

structure Os where
  kernel : Kernel
  mem : Mem
  heapHead : Word
  heapVirtTop : Word
  heapArea : Word
  vfs : Vfs
  /-- `exec_pending_process` and `exec_pending_entry`. -/
  execPending : Option (PcbRef × Word)

def Os.setVmm (o : Os) (vmm : Vmm) : Os := { o with kernel := { o.kernel with vmm } }

def Os.heap (o : Os) : Heap where
  mem := o.mem
  head := o.heapHead
  heapVirtTop := o.heapVirtTop
  vmm := o.kernel.vmm

def Os.setHeap (o : Os) (h : Heap) : Os :=
  { o.setVmm h.vmm with mem := h.mem, heapHead := h.head, heapVirtTop := h.heapVirtTop }

def Os.kmalloc (o : Os) (n : Word) : Except Halt (Word × Os) := do
  let (p, h) ← Ceblar.kmalloc o.heapArea n o.heap
  return (p, o.setHeap h)

def Os.kfree (o : Os) (p : Word) : Except Halt Os := do
  let h ← Ceblar.kfree p o.heap
  return o.setHeap h

/-- The loop of `user_string`, from address `p` on: the characters before the 0. -/
def scanString (space : Nat) : Nat → Word → Vmm → Except Halt (Option (List Byte) × Vmm)
  | 0, _, m => .ok (none, m)
  | fuel + 1, p, m =>
    if 0xc0000000 ≤ p then .ok (none, m)
    else do
      let (rc, m) ← vmmValidateUserPtr m space p 1 0
      if rc ≠ 0 then return (none, m)
      let (c, m) ← m.kernelLoad p
      if c = 0 then return (some [], m)
      let (rest, m) ← scanString space fuel (p + 1) m
      return (rest.map fun s => c :: s, m)

/-- `user_string`, with the string that it finds. -/
def userString (p : Word) (k : Kernel) : Except Halt (Option (List Byte) × Vmm) :=
  if p < 0x400000 ∨ 0xc0000000 ≤ p then .ok (none, k.vmm)
  else
    match (k.pcb k.current).addressSpace with
    | none => .ok (none, k.vmm)
    | some space => scanString space 256 p k.vmm

def execMaxImage : Word := 256 * 1024

def loadFile (disk : Disk) (path : List Byte) (o : Os) :
    Except Halt (Except Int (Word × Image × Word) × Os) :=
  let (fd, vfs) := vfsOpen disk path 0 o.vfs
  let o := { o with vfs }
  if fd < 0 then .ok (.error (-2), o)
  else do
    let (image, o) ← o.kmalloc execMaxImage
    if image = 0 then return (.error (-12), { o with vfs := (vfsClose fd o.vfs).2 })
    let (n, bytes, vfs) := vfsRead disk fd (fun i => o.mem (image + BitVec.ofNat 32 i)) execMaxImage o.vfs
    let o := { o with vfs := (vfsClose fd vfs).2 }
    if n ≤ 0 ∨ n = execMaxImage.toInt then
      let o ← o.kfree image
      return (.error (-8), o)
    return (.ok (image, bytes, BitVec.ofInt 32 n), o)

def Pcb.replace (p : Pcb) (space : Nat) (entry : Word) : Pcb :=
  { p with
    addressSpace := some space
    entryPoint := entry
    userStack := userStackTop
    userMode := true
    cpuState := { p.cpuState with eip := entry, esp := userStackTop } }

/-- A new space with a stack and the program in it. `none` is a failure, after which the space is
destroyed again; `stackError` is what `ee` returns if there is no page for the stack. -/
def buildSpace (image : Image) (n : Word) (stackError : Int) (m : Vmm) :
    Except Halt (Except Int (Nat × Word) × Vmm) :=
  match vmmCreateAddressSpace m with
  | none => .ok (.error (-12), m)
  | some (space, m) =>
    match vmmUserAllocPage m space (userStackTop - 4096) pageWrite with
    | (none, m) => .ok (.error stackError, vmmDestroyAddressSpace m space)
    | (some m, _) => do
      let (entry, m) ← elf32Load image n space m
      match entry with
      | none => return (.error (-8), vmmDestroyAddressSpace m space)
      | some entry => return (.ok (space, entry), m)

def ee (disk : Disk) (a : Word) (o : Os) : Except Halt (Int × Os) := do
  let (path, vmm) ← userString a o.kernel
  let o := o.setVmm vmm
  match path with
  | none => return (-2, o)
  | some path =>
    let (file, o) ← loadFile disk path o
    match file with
    | .error rc => return (rc, o)
    | .ok (image, bytes, n) =>
      let (built, vmm) ← buildSpace bytes n (-12) o.kernel.vmm
      let o := o.setVmm vmm
      match built with
      | .error rc =>
        let o ← o.kfree image
        return (rc, o)
      | .ok (space, entry) =>
        let q := o.kernel.current
        let old := (o.kernel.pcb q).addressSpace
        let k := o.kernel.modifyRef (fun p => p.replace space entry) q
        let vmm := vmmSwitchAddressSpace k.vmm (some space)
        let vmm := (old.map (vmmDestroyAddressSpace vmm)).getD vmm
        let o := { o with kernel := { k with vmm }, execPending := some (q, entry) }
        let o ← o.kfree image
        return (0, o)

def processEnterUserRef : PcbRef → Kernel → Kernel
  | .slot i, k => processEnterUser i k
  | .idle, k =>
    if !k.idle.userMode || k.idle.addressSpace.isNone then k
    else
      { k with
        current := .idle
        vmm := vmmSwitchAddressSpace k.vmm k.idle.addressSpace
        idle := { k.idle with state := .running, interruptFrame := none } }

/-- `process_exec_path`, up to the jump to user mode. -/
def processExecPath (disk : Disk) (path : List Byte) (o : Os) : Except Halt (Int × Os) := do
  let (file, o) ← loadFile disk path o
  match file with
  | .error rc => return (rc, o)
  | .ok (image, bytes, n) =>
    let (built, vmm) ← buildSpace bytes n (-8) o.kernel.vmm
    let o := o.setVmm vmm
    match built with
    | .error rc =>
      let o ← o.kfree image
      return (rc, o)
    | .ok (space, entry) =>
      let q := o.kernel.current
      let old := (o.kernel.pcb q).addressSpace
      let k := o.kernel.modifyRef (fun p => p.replace space entry) q
      let o ← { o with kernel := k }.kfree image
      let vmm := (old.map (vmmDestroyAddressSpace o.kernel.vmm)).getD o.kernel.vmm
      return (0, { o with kernel := processEnterUserRef q { o.kernel with vmm } })

/-- `elf32_load` as `process_create_from_path` uses it. It does not halt in a space that it fills. -/
def elfLoader (image : Image) (n : Word) : Loader := fun space m =>
  (elf32Load image n space m).toOption.getD (none, m)

/-- `process_create_from_path`, with the file that it reads. -/
def processCreateFromFile (disk : Disk) (path : List Byte) (o : Os) : Except Halt (Option Nat × Os) := do
  let (file, o) ← loadFile disk path o
  match file with
  | .error _ => return (none, o)
  | .ok (image, bytes, n) =>
    let (i, k) := processCreateFromPath (some (elfLoader bytes n)) o.kernel
    let o ← { o with kernel := k }.kfree image
    return (i, o)

def oneFile (image : Image) (size : Int) : Disk where
  mounted := true
  openFile := fun _ f => (true, f)
  readFile := fun f _ _ => (size, image, f)
  sector := fun _ => none
  serial := none

/-- A program with one `PT_LOAD` header, of which `phnum` counts all or nothing. -/
def shortProgram (phnum flags : Byte) : Image := fun o =>
  ([0x7f, 0x45, 0x4c, 0x46, 1, 0, 0, 0, 0, 0, 0, 0, 0, 0, 0, 0, 2, 0, 3, 0, 1, 0, 0, 0, 0, 0, 0x40,
    0, 52, 0, 0, 0, 0, 0, 0, 0, 0, 0, 0, 0, 52, 0, 32, 0, phnum, 0, 0, 0, 0, 0, 0, 0,
    1, 0, 0, 0, 0, 0, 0, 0, 0, 0, 0x40, 0, 0, 0, 0, 0,
    1, 0, 0, 0, 1, 0, 0, 0, flags, 0, 0, 0, 0, 0, 0, 0] : List Byte).getD o 0

def filePath : List Byte := [0x68, 0x64, 0x61, 0x2f, 0x61]

end Ceblar
