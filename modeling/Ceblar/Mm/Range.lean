import Ceblar.Mm.Vmm

/-! # Ranges of pages (`mm/vmm.c`)

`vmm_map_range` maps at once, `vmm_map_lazy_range` only records the range and leaves the
pages to the fault handler, and `vmm_unmap_range` takes a resident range away.
-/

namespace Ceblar

def pageAt (base : Word) (i : Nat) : Word := base + BitVec.ofNat 32 i * 4096

def AddressSpace.findVma (s : AddressSpace) (p : Vma → Bool) : Option Nat :=
  (List.range 64).find? fun v => p (s.vmas v)

def AddressSpace.freeVma (s : AddressSpace) : Option Nat := s.findVma fun v => !v.used

def AddressSpace.setVma (s : AddressSpace) (slot : Nat) (v : Vma) : AddressSpace :=
  { s with vmas := Function.update s.vmas slot v }

def vmaOverlaps (s : AddressSpace) (start stop : Word) : Bool :=
  (s.findVma fun v => v.used && (decide (start < v.stop) && decide (v.start < stop))).isSome

def rangeClear (s : AddressSpace) (base pages : Word) : Bool :=
  (List.range pages.toNat).all fun i => vmmGetUserPhysical s (pageAt base i) = 0

/-- The search for a base from 16 MiB on, a page at a time, until `stop` likes one or the
user region ends. -/
def searchBase (stop : Word → Bool) : Nat → Word → Word
  | 0, base => base
  | fuel + 1, base =>
    if base < 0xc0000000 then
      if stop base then base else searchBase stop fuel (base + 4096)
    else base

def pastUser (base pages : Word) : Bool :=
  base + pages * 4096 < base || 0xc0000000 < base + pages * 4096

/-- The base that a call uses: the caller's, or the first one that fits. The user region has
`0xc0000` pages, so the search ends by itself. -/
def chooseBase (stop : Word → Bool) (virt : Word) : Word :=
  if virt = 0 then searchBase stop 0xc0000 0x01000000 else virt

/-- The roll-back loop: `while (i--) vmm_unmap_user(s, base + i * PAGE_SIZE)`. -/
def unmapBack (s : Nat) (base : Word) : Nat → Vmm → Vmm
  | 0, m => m
  | i + 1, m => unmapBack s base i ((vmmUnmapUser m s (pageAt base i)).getD m)

/-- The loop of `vmm_map_range`, from page `done` on with `left` pages to go. `false` is the
error exit, with the pages taken so far given back. -/
def mapPages (s : Nat) (base flags : Word) : Nat → Nat → Vmm → Bool × Vmm
  | _, 0, m => (true, m)
  | done, left + 1, m =>
    match pmmAllocPage m.pmm with
    | none => (false, unmapBack s base done m)
    | some (page, pmm) =>
      match vmmMapUser { m with pmm } s (pageAt base done) page (flags ||| pageWrite) with
      | none => (false, unmapBack s base done { m with pmm := pmmFreePage pmm page })
      | some m => mapPages s base flags (done + 1) left m

/-- `vmm_map_range`: the base, or `none` for the source's -1. -/
def vmmMapRange (m : Vmm) (i : Nat) (virt pages flags : Word) : Option Word × Vmm :=
  let s := m.spaces i
  if pages = 0 ∨ 0x80000 < pages then (none, m)
  else
    let base := chooseBase (fun base => pastUser base pages ||
      (!vmaOverlaps s base (base + pages * 4096) && rangeClear s base pages)) virt
    let stop := base + pages * 4096
    if base &&& 0xfff ≠ 0 ∨ base < 0x400000 ∨ 0xc0000000 ≤ base ∨ stop < base ∨ 0xc0000000 < stop ∨
        vmaOverlaps s base stop then (none, m)
    else if !rangeClear s base pages then (none, m)
    else
      match s.freeVma with
      | none => (none, m)
      | some slot =>
        match mapPages i base flags 0 pages.toNat m with
        | (false, m) => (none, m)
        | (true, m) =>
          (some base, m.setSpace i ((m.spaces i).setVma slot
            { start := base, stop := stop, flags := flags, used := true }))

def unmapPages (s : Nat) (virt : Word) (pages : Nat) (m : Vmm) : Vmm :=
  forRange pages (fun i m => (vmmUnmapUser m s (pageAt virt i)).getD m) m

/-- What `vmm_unmap_range` leaves of VMA `slot` once `[virt, stop)` is gone: nothing, one
side, or both sides when there is a free slot for the second. -/
def cutVma (s : AddressSpace) (slot : Nat) (virt stop : Word) : AddressSpace :=
  let v := s.vmas slot
  if virt = v.start ∧ stop = v.stop then s.setVma slot { v with used := false }
  else if virt = v.start then s.setVma slot { v with start := stop }
  else if stop = v.stop then s.setVma slot { v with stop := virt }
  else
    match s.freeVma with
    | none => s
    | some other => (s.setVma other { v with start := stop }).setVma slot { v with stop := virt }

/-- `vmm_unmap_range`; `none` is the source's -1, which changes nothing. -/
def vmmUnmapRange (m : Vmm) (i : Nat) (virt pages : Word) : Option Vmm :=
  let s := m.spaces i
  let stop := virt + pages * 4096
  if pages = 0 ∨ virt &&& 0xfff ≠ 0 ∨ virt < 0x400000 ∨ 0xc0000000 ≤ virt then none
  else if stop < virt ∨ 0xc0000000 < stop then none
  else if (List.range pages.toNat).any fun k => vmmGetUserPhysical s (pageAt virt k) = 0 then none
  else
    (s.findVma fun v => v.used && (decide (v.start ≤ virt) && decide (stop ≤ v.stop))).map fun slot =>
      let m := unmapPages i virt pages.toNat m
      m.setSpace i (cutVma (m.spaces i) slot virt stop)

/-- `vmm_map_lazy_range`: the base, or `none` for the source's -1. -/
def vmmMapLazyRange (m : Vmm) (i : Nat) (virt pages flags : Word) : Option (Word × Vmm) :=
  let s := m.spaces i
  if pages = 0 ∨ 0x80000 < pages then none
  else
    let base := chooseBase (fun base => pastUser base pages ||
      !vmaOverlaps s base (base + pages * 4096)) virt
    let stop := base + pages * 4096
    if base &&& 0xfff ≠ 0 ∨ base < 0x400000 ∨ stop < base ∨ 0xc0000000 < stop ∨
        vmaOverlaps s base stop then none
    else
      s.freeVma.map fun slot =>
        (base, m.setSpace i (s.setVma slot
          { start := base, stop := stop, flags := flags, used := true }))

end Ceblar
