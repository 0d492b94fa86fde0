import Ceblar.Mm.Range

/-! # Page faults and pointer checks (`mm/vmm.c`) -/

namespace Ceblar

/-! ## The fault handler -/

def AddressSpace.vmaAt (s : AddressSpace) (page : Word) : Option Nat :=
  s.findVma fun v => v.used && (decide (v.start ≤ page) && decide (page < v.stop))

def Vmm.storeWindow (m : Vmm) (bytes : Nat → Byte) : Except Halt Vmm :=
  match m.kernelFrame window with
  | none => .error .unhandledPageFault
  | some f => .ok { m with phys := Function.update m.phys f bytes }

/-- Copies the page behind the window to `copy_page`. -/
def Vmm.loadWindow (m : Vmm) : Except Halt Vmm :=
  match m.kernelFrame window with
  | none => .error .unhandledPageFault
  | some f => .ok { m with copyPage := m.phys f }

/-- The demand branch of `vmm_page_fault`, for VMA `v`. The zeros are stored before the window
moves to the new frame, and the frame is given back at the end, both as in the source. -/
def demandFault (m : Vmm) (s : Nat) (page : Word) (v : Vma) : Except Halt Vmm :=
  match pmmAllocPage m.pmm with
  | none => .error .outOfMemoryDemand
  | some (newPage, pmm) => do
    let m ← { m with pmm }.storeWindow fun _ => 0
    let m := vmmMap m window newPage pageWrite
    let m := (vmmMapUser m s page newPage (v.flags ||| pageWrite)).getD m
    pure { m with pmm := pmmFreePage m.pmm newPage }

/-- The copy-on-write branch of `vmm_page_fault`, and the panic after it. -/
def cowFault (m : Vmm) (s : Nat) (error page : Word) : Except Halt Vmm :=
  let t := dirIndex page - 1
  let j := tableIndex page
  let pte := m.pte s t j
  if error &&& 2 ≠ 0 ∧ error &&& 4 ≠ 0 ∧ (m.spaces s).tableUsed t = true ∧
      pte &&& pageCow ≠ 0 ∧ pte &&& pagePresent ≠ 0 then
    match pmmAllocPage m.pmm with
    | none => .error .outOfMemoryCow
    | some (newPage, pmm) => do
      let m ← (vmmMap { m with pmm } window (pageBase pte) 0).loadWindow
      let m := vmmMap m window newPage pageWrite
      let m ← m.storeWindow m.copyPage
      let m := vmmMap m window window pageWrite
      let m := m.setPte s t j (newPage ||| pagePresent ||| pageUser ||| pageWrite)
      pure { m with pmm := pmmFreePage m.pmm (pageBase pte) }
  else .error .unhandledPageFault

/-- `vmm_page_fault`; `cr2` is what the processor's register holds. -/
def vmmPageFault (m : Vmm) (error address cr2 : Word) : Except Halt Vmm :=
  let page := pageBase (if address ≠ 0 then address else cr2)
  match m.currentSpace with
  | none => .error .unhandledPageFault
  | some s =>
    if 1 ≤ dirIndex page ∧ dirIndex page ≤ 8 then
      match (m.spaces s).vmaAt page with
      | none => cowFault m s error page
      | some vi =>
        if vmmGetUserPhysical (m.spaces s) page = 0 then demandFault m s page ((m.spaces s).vmas vi)
        else cowFault m s error page
    else .error .unhandledPageFault

/-- The first half of an iteration of `vmm_validate_user_ptr`: a page that is not mapped and
belongs to a VMA is faulted in. The address is never 0 here, so `cr2` is not looked at. -/
def validateResident (m : Vmm) (s : Nat) (page write : Word) : Except Halt Vmm :=
  if vmmGetUserPhysical (m.spaces s) page = 0 then
    match (m.spaces s).vmaAt page with
    | none => .ok m
    | some _ => vmmPageFault m (if write ≠ 0 then 6 else 4) page 0
  else .ok m

def validateWritable (m : Vmm) (s : Nat) (page write : Word) : Except Halt (Bool × Vmm) :=
  let t := dirIndex page - 1
  let j := tableIndex page
  if write ≠ 0 ∧ m.pte s t j &&& pageWrite = 0 then
    if m.pte s t j &&& pageCow = 0 then .ok (false, m)
    else
      match vmmPageFault m 6 page 0 with
      | .error e => .error e
      | .ok m => .ok (decide (m.pte s t j &&& pageWrite ≠ 0), m)
  else .ok (true, m)

def validatePage (m : Vmm) (s : Nat) (page write : Word) : Except Halt (Bool × Vmm) :=
  match validateResident m s page write with
  | .error e => .error e
  | .ok m =>
    if vmmGetUserPhysical (m.spaces s) page = 0 then .ok (false, m)
    else validateWritable m s page write

/-- The page walk, with `last` the address of the last byte. Fuel is the number of pages in
the address space. -/
def validateLoop (s : Nat) (last write : Word) : Nat → Word → Vmm → Except Halt (Int × Vmm)
  | 0, _, _ => .error .spin
  | fuel + 1, page, m =>
    match validatePage m s page write with
    | .error e => .error e
    | .ok (false, m) => .ok (-1, m)
    | .ok (true, m) =>
      if last - 4096 < page then .ok (0, m)
      else validateLoop s last write fuel (page + 4096) m

def vmmValidateUserPtr (m : Vmm) (s : Nat) (virt len write : Word) : Except Halt (Int × Vmm) :=
  if len = 0 ∨ virt < 0x400000 ∨ 0xc0000000 ≤ virt ∨ 0xc0000000 - virt < len then .ok (-1, m)
  else validateLoop s (virt + len - 1) write 0x100000 (pageBase virt) m

end Ceblar
