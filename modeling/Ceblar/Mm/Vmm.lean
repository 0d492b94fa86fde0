import Ceblar.Lib.Run
import Ceblar.Mm.Pmm

/-! # Address spaces and page tables (`mm/vmm.c`)

The data model and the operations on one page. Physical memory is `phys`, a page of bytes
for each frame number. `page_directory` is left out: entry `di` of a space is set exactly
when `table_used[di - 1]` is, and only the processor reads it. TLB flushes are left out too.
-/

namespace Ceblar

open Function

/-! ## The data model -/

def pagePresent : Word := 1
def pageWrite : Word := 2
def pageUser : Word := 4
def pageCow : Word := 0x200

/-- `vma_t`; `stop` is the source's `end`. -/
structure Vma where
  start : Word
  stop : Word
  flags : Word
  used : Bool

/-- `address_space_t`: eight page tables of 1024 entries for the addresses from 4 MiB to 36 MiB,
and 64 VMAs. -/
structure AddressSpace where
  userTables : Nat → Nat → Word
  tableUsed : Nat → Bool
  vmas : Nat → Vma
  refs : Word

/-- The static data of `vmm.c`, the allocator below it and physical memory. -/
structure Vmm where
  pmm : Pmm
  phys : Nat → Nat → Byte
  kernelTables : Nat → Option (Nat → Word)
  spaces : Nat → AddressSpace
  spaceUsed : Nat → Bool
  currentSpace : Option Nat
  copyPage : Nat → Byte

inductive Halt where
  /-- `panic("out of memory resolving demand page")` -/
  | outOfMemoryDemand
  /-- `panic("out of memory resolving COW fault")` -/
  | outOfMemoryCow
  /-- `panic("unhandled page fault")` -/
  | unhandledPageFault
  | spin
  deriving DecidableEq

def dirIndex (virt : Word) : Nat := (virt >>> 22).toNat

def tableIndex (virt : Word) : Nat := ((virt >>> 12) &&& 1023#32).toNat

def Vmm.setSpace (m : Vmm) (i : Nat) (s : AddressSpace) : Vmm :=
  { m with spaces := update m.spaces i s }

/-- `s->user_tables[t][j]` of space `i`. -/
def Vmm.pte (m : Vmm) (i t j : Nat) : Word := (m.spaces i).userTables t j

def Vmm.setPte (m : Vmm) (i t j : Nat) (w : Word) : Vmm :=
  m.setSpace i
    { m.spaces i with
      userTables := update (m.spaces i).userTables t
        (update ((m.spaces i).userTables t) j w) }

def Vmm.markTable (m : Vmm) (i t : Nat) : Vmm :=
  m.setSpace i { m.spaces i with tableUsed := update (m.spaces i).tableUsed t true }

/-! ## Kernel mappings -/

def vmmMap (m : Vmm) (virt phys flags : Word) : Vmm :=
  match m.kernelTables (dirIndex virt) with
  | none => m
  | some table =>
    { m with
      kernelTables := update m.kernelTables (dirIndex virt)
        (some (update table (tableIndex virt) (pageBase phys ||| (flags ||| pagePresent)))) }

def Vmm.kernelFrame (m : Vmm) (virt : Word) : Option Nat :=
  match m.kernelTables (dirIndex virt) with
  | none => none
  | some table =>
    let pte := table (tableIndex virt)
    if pte &&& pagePresent = 0 then none else some (pageNumber pte)

/-- `vmm_get_physical`, which knows the kernel's tables only. -/
def vmmGetPhysical (m : Vmm) (virt : Word) : Word :=
  match m.kernelTables (dirIndex virt) with
  | none => 0
  | some table =>
    let pte := table (tableIndex virt)
    if pte &&& pagePresent = 0 then 0 else pageBase pte ||| (virt &&& 0xfff)

/-- The page at `0x003ff000`, through which the kernel reaches any frame. -/
def window : Word := 0x003ff000

/-- The tables that `vmm_init` installs: the identity map of the first 4 MiB, the heap's
table and the one that the local APIC and the I/O APIC share. -/
def bootTables (di : Nat) : Option (Nat → Word) :=
  if di = 0 then some fun ti => BitVec.ofNat 32 (ti * 4096) ||| pagePresent ||| pageWrite
  else if di = dirIndex 0xd0000000 then some fun _ => 0
  else if di = dirIndex 0xfee00000 then some fun ti =>
    if ti = tableIndex 0xfec00000 then 0xfec00000 ||| pagePresent ||| pageWrite
    else if ti = tableIndex 0xfee00000 then 0xfee00000 ||| pagePresent ||| pageWrite
    else 0
  else none

def vmmInit (m : Vmm) : Vmm := { m with kernelTables := bootTables, currentSpace := none }

/-- `vmm_create_address_space`: the first free slot, with its tables cleared. -/
def vmmCreateAddressSpace (m : Vmm) : Option (Nat × Vmm) :=
  ((List.range 32).find? fun i => !m.spaceUsed i).map fun i =>
    (i, { m with
      spaceUsed := update m.spaceUsed i true
      spaces := update m.spaces i
        { userTables := fun _ _ => 0
          tableUsed := fun _ => false
          vmas := fun v => { (m.spaces i).vmas v with used := false }
          refs := 1 } })

def vmmRetainAddressSpace (m : Vmm) (i : Nat) : Vmm :=
  m.setSpace i { m.spaces i with refs := (m.spaces i).refs + 1 }

def freeTables (s : AddressSpace) (p : Pmm) : Pmm :=
  forRange 8 (fun t p =>
    if s.tableUsed t then
      forRange 1024 (fun j p =>
        if s.userTables t j &&& pagePresent = 0 then p
        else pmmFreePage p (pageBase (s.userTables t j))) p
    else p) p

def vmmDestroyAddressSpace (m : Vmm) (i : Nat) : Vmm :=
  let s := m.spaces i
  if s.refs = 0 then m
  else
    let m := m.setSpace i { s with refs := s.refs - 1 }
    if s.refs - 1 ≠ 0 then m
    else if m.spaceUsed i then
      { m with
        currentSpace := if m.currentSpace = some i then none else m.currentSpace
        pmm := freeTables s m.pmm
        spaceUsed := update m.spaceUsed i false }
    else m

def vmmSwitchAddressSpace (m : Vmm) (s : Option Nat) : Vmm := { m with currentSpace := s }

/-- The address test of `vmm_map_user`, `vmm_unmap_user` and `vmm_get_user_physical`, and the
table it selects. -/
def userSlot (virt : Word) : Option Nat :=
  if virt < 0x400000 ∨ 0xc0000000 ≤ virt then none
  else if dirIndex virt < 1 ∨ 8 < dirIndex virt then none
  else some (dirIndex virt - 1)

/-- `vmm_map_user`; `none` is the source's -1. -/
def vmmMapUser (m : Vmm) (i : Nat) (virt phys flags : Word) : Option Vmm :=
  (userSlot virt).map fun t =>
    (m.markTable i t).setPte i t (tableIndex virt)
      (pageBase phys ||| (flags ||| pagePresent ||| pageUser))

/-- `vmm_unmap_user`; `none` is the source's -1. -/
def vmmUnmapUser (m : Vmm) (i : Nat) (virt : Word) : Option Vmm :=
  match userSlot virt with
  | none => none
  | some t =>
    if (m.spaces i).tableUsed t then
      let pte := m.pte i t (tableIndex virt)
      if pte &&& pagePresent = 0 then none
      else
        some ({ m with pmm := pmmFreePage m.pmm (pageBase pte) }.setPte i t (tableIndex virt) 0)
    else none

/-- `vmm_get_user_physical`: 0 when the address is not mapped for the user. -/
def vmmGetUserPhysical (s : AddressSpace) (virt : Word) : Word :=
  match userSlot virt with
  | none => 0
  | some t =>
    if s.tableUsed t then
      let pte := s.userTables t (tableIndex virt)
      if pte &&& pagePresent = 0 ∨ pte &&& pageUser = 0 then 0
      else pageBase pte ||| (virt &&& 0xfff)
    else 0

/-- One entry of the loop in `vmm_clone_address_space_cow`. The error exit carries the state
in which `vmm_map_user` failed. -/
def cloneCowEntry (source dest t j : Nat) (m : Vmm) : Except Vmm Vmm :=
  let pte := m.pte source t j
  if pte &&& pagePresent = 0 then .ok m
  else
    let va : Word := BitVec.ofNat 32 ((t + 1) * 0x400000 + j * 4096)
    let flags := ((pte &&& 0xfff) ||| pageCow) &&& ~~~pageWrite
    let m := m.setPte source t j (pageBase pte ||| flags)
    match vmmMapUser m dest va (pageBase pte) flags with
    | none => .error m
    | some m => .ok { m with pmm := pmmRetainPage m.pmm (pageBase pte) }

def cloneCowTables (source dest : Nat) (m : Vmm) : Except Vmm Vmm :=
  forRangeE 8 (fun t m =>
    if (m.spaces source).tableUsed t then forRangeE 1024 (cloneCowEntry source dest t) m
    else .ok m) m

/-- `vmm_clone_address_space_cow`: the new space, or `none` for the source's null. The source
switches back to the space that was current; the clone never left it. -/
def vmmCloneAddressSpaceCow (m : Vmm) (source : Nat) : Option Nat × Vmm :=
  match vmmCreateAddressSpace m with
  | none => (none, m)
  | some (dest, m) =>
    let m := m.setSpace dest { m.spaces dest with vmas := (m.spaces source).vmas }
    match cloneCowTables source dest m with
    | .error m => (none, vmmDestroyAddressSpace m dest)
    | .ok m => (some dest, m)

def coldMachine : Vmm :=
  vmmInit
    { pmm := { bitmap := fun _ => false, refs := fun _ => 0, total := 64, total_le := by decide,
               used := 0, handed := [] }
      phys := fun _ _ => 0
      kernelTables := fun _ => none
      spaces := fun _ => { userTables := fun _ _ => 0, tableUsed := fun _ => false,
                           vmas := fun _ => ⟨0, 0, 0, false⟩, refs := 0 }
      spaceUsed := fun _ => false
      currentSpace := none
      copyPage := fun _ => 0 }

end Ceblar
