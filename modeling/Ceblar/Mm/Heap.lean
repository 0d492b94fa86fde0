import Ceblar.Lib.Memory
import Ceblar.Mm.Vmm

/-! # The kernel heap (`mm/heap.c`)

The list of blocks lives in the memory it hands out: every header is four words in front of its
block. `area` is the address of the array `heap_area`. A list that leads back into itself would
be walked for ever; the loops have fuel for every address there is. The spinlock is left out.
-/

namespace Ceblar

def heapBytes : Word := 1024 * 1024
def heapMagic : Word := 0xc3b1a9e7
def heapVirtStart : Word := 0xd0000000

def headerSize : Word := 16

/-- The static data of `heap.c`, memory as the kernel addresses it, and what is below the heap. -/
structure Heap where
  mem : Mem
  head : Word
  heapVirtTop : Word
  vmm : Vmm

def split (m : Mem) (b n : Word) : Mem :=
  if n + headerSize + 8 ≤ field m b .size then
    let r := b + headerSize + n
    let m := setField m r .size (field m b .size - n - headerSize)
    let m := setField m r .free 1
    let m := setField m r .magic heapMagic
    let m := setField m r .next (field m b .next)
    let m := setField m b .next r
    setField m b .size n
  else m

def mergeFrom : Nat → Word → Mem → Except Halt Mem
  | 0, _, _ => .error .spin
  | fuel + 1, b, m =>
    if b = 0 ∨ field m b .next = 0 then .ok m
    else if field m b .free ≠ 0 ∧ field m (field m b .next) .free ≠ 0 then
      let m := setField m b .size (field m b .size + (headerSize + field m (field m b .next) .size))
      mergeFrom fuel b (setField m b .next (field m (field m b .next) .next))
    else mergeFrom fuel (field m b .next) m

def merge (h : Heap) : Except Halt Heap := do
  let mem ← mergeFrom (2 ^ 32) h.head h.mem
  return { h with mem }

def lastBlock : Nat → Word → Mem → Except Halt Word
  | 0, _, _ => .error .spin
  | fuel + 1, t, m => if field m t .next = 0 then .ok t else lastBlock fuel (field m t .next) m

def freshBlock (m : Mem) (b size : Word) : Mem :=
  let m := setField m b .size size
  let m := setField m b .free 1
  let m := setField m b .magic heapMagic
  setField m b .next 0

/-- `grow`. The new header is written even if `vmm_map` found no table for its page: that write
then faults in the kernel, outside every user range. -/
def grow (h : Heap) : Except Halt (Int × Heap) :=
  match pmmAllocPage h.vmm.pmm with
  | none => .ok (-1, h)
  | some (page, pmm) =>
    let vmm := vmmMap { h.vmm with pmm } h.heapVirtTop page pageWrite
    if vmm.kernelFrame h.heapVirtTop = none then .error .unhandledPageFault
    else do
      let n := h.heapVirtTop
      let mem := freshBlock h.mem n (4096 - headerSize)
      let h : Heap := { h with mem, vmm, heapVirtTop := h.heapVirtTop + 4096 }
      if h.head = 0 then return (0, { h with head := n })
      else
        let t ← lastBlock (2 ^ 32) h.head h.mem
        return (0, { h with mem := setField h.mem t .next n })

def heapInit (area : Word) (h : Heap) : Heap :=
  { h with head := area, mem := freshBlock h.mem area (heapBytes - headerSize) }

def findFit (n : Word) : Nat → Word → Mem → Except Halt (Option Word)
  | 0, _, _ => .error .spin
  | fuel + 1, b, m =>
    if b = 0 then .ok none
    else if field m b .free ≠ 0 ∧ n ≤ field m b .size then .ok (some b)
    else findFit n fuel (field m b .next) m

def kmallocLoop (n : Word) : Nat → Heap → Except Halt (Word × Heap)
  | 0, _ => .error .spin
  | fuel + 1, h => do
    match ← findFit n (2 ^ 32) h.head h.mem with
    | some b => return (b + headerSize, { h with mem := setField (split h.mem b n) b .free 0 })
    | none =>
      let (rc, h) ← grow h
      if rc ≠ 0 then return (0, h) else kmallocLoop n fuel h

def roundUp (n : Word) : Word := (n + 7) &&& ~~~7#32

def kmalloc (area n : Word) (h : Heap) : Except Halt (Word × Heap) :=
  let h := if h.head = 0 then heapInit area h else h
  if n = 0 then .ok (0, h) else kmallocLoop (roundUp n) (2 ^ 20) h

def kfree (p : Word) (h : Heap) : Except Halt Heap :=
  if p = 0 then .ok h
  else
    let b := p - headerSize
    if field h.mem b .magic = heapMagic ∧ field h.mem b .free = 0 then
      merge { h with mem := setField h.mem b .free 1 }
    else .ok h

/-- `for (i = 0; i < b->size; i++) c[i] = a[i]`, with the size read in every round. -/
def copyFrom (b a c : Word) : Nat → Word → Mem → Except Halt Mem
  | 0, _, _ => .error .spin
  | fuel + 1, i, m =>
    if i < field m b .size then
      copyFrom b a c fuel (i + 1) (Function.update m (c + i) (m (a + i)))
    else .ok m

def krealloc (area p n : Word) (h : Heap) : Except Halt (Word × Heap) :=
  if p = 0 then kmalloc area n h
  else if n = 0 then do
    let h ← kfree p h
    return (0, h)
  else
    let b := p - headerSize
    if field h.mem b .magic ≠ heapMagic ∨ field h.mem b .free ≠ 0 then .ok (0, h)
    else if n ≤ field h.mem b .size then .ok (p, { h with mem := split h.mem b n })
    else do
      let (q, h) ← kmalloc area n h
      if q = 0 then return (0, h)
      let mem ← copyFrom b p q (2 ^ 32 + 1) 0 h.mem
      let h ← kfree p { h with mem }
      return (q, h)

end Ceblar
