import Ceblar.Kernel.Pcb

/-! # The ELF loader (`kernel/elf.c`)

The image is a string of `size` bytes. The loader works in the space that it fills: it switches
to it, stores to the user's addresses, and switches to no space at all when it is done.
-/

namespace Ceblar

/-! ## The file -/

abbrev Image := Nat → Byte

def Image.half (image : Image) (o : Nat) : Word := le32 (image o) (image (o + 1)) 0 0

def Image.word (image : Image) (o : Nat) : Word :=
  le32 (image o) (image (o + 1)) (image (o + 2)) (image (o + 3))

structure ElfHeader where
  ident : Nat → Byte
  machine : Word
  entry : Word
  phoff : Word
  phentsize : Word
  phnum : Word

def Image.header (image : Image) : ElfHeader where
  ident := image
  machine := image.half 18
  entry := image.word 24
  phoff := image.word 28
  phentsize := image.half 42
  phnum := image.half 44

structure ElfProgram where
  type : Word
  offset : Word
  vaddr : Word
  filesz : Word
  memsz : Word
  flags : Word

def Image.program (image : Image) (i : Nat) : ElfProgram :=
  let o := image.header.phoff.toNat + i * 32
  { type := image.word o
    offset := image.word (o + 4)
    vaddr := image.word (o + 8)
    filesz := image.word (o + 16)
    memsz := image.word (o + 20)
    flags := image.word (o + 24) }

def ElfHeader.valid (h : ElfHeader) (size : Word) : Bool :=
  h.ident 0 == 0x7f && h.ident 1 == 0x45 && h.ident 2 == 0x4c && h.ident 3 == 0x46 && h.ident 4 == 1 &&
    h.machine == 3 && h.phentsize == 32 && decide (h.phoff ≤ size) &&
      decide (h.phnum ≤ (size - h.phoff) / 32)

def ElfProgram.isLoad (p : ElfProgram) : Bool := p.type == 1

/-- The tests on a `PT_LOAD` header after the one on its flags. -/
def ElfProgram.inBounds (p : ElfProgram) (size : Word) : Bool :=
  decide (p.filesz ≤ p.memsz) && decide (p.offset ≤ size) && decide (p.filesz ≤ size - p.offset) &&
    decide (0x400000 ≤ p.vaddr) && decide (p.vaddr ≤ p.vaddr + p.memsz) &&
      decide (p.vaddr + p.memsz < 0xc0000000)

def ElfProgram.first (p : ElfProgram) : Word := pageBase p.vaddr

def ElfProgram.last (p : ElfProgram) : Word := pageBase (p.vaddr + p.memsz + 4095)

inductive ElfStop where
  | halt (h : Halt)
  /-- The exits with -1 after the first switch. -/
  | reject (m : Vmm)

def fill (a : Word) (n : Nat) (f : Nat → Byte) (m : Vmm) : Except ElfStop Vmm :=
  forRangeE n (fun k m => (m.kernelStore (a + BitVec.ofNat 32 k) (f k)).mapError .halt) m

def loadPage (space : Nat) (p : ElfProgram) (j : Nat) (m : Vmm) : Except ElfStop Vmm :=
  let va := p.first + BitVec.ofNat 32 (j * 4096)
  if vmmGetPhysical m va ≠ 0 then .ok m
  else
    match pmmAllocPage m.pmm with
    | none => .error (.reject m)
    | some (page, pmm) =>
      match vmmMapUser { m with pmm } space va page (if p.flags &&& 2 ≠ 0 then pageWrite else 0) with
      | none => .error (.reject { m with pmm := pmmFreePage pmm page })
      | some m => fill va 4096 (fun _ => 0) m

def loadProgram (image : Image) (size : Word) (space : Nat) (p : ElfProgram) (m : Vmm) :
    Except ElfStop Vmm :=
  if !p.isLoad then .ok m
  else if p.flags &&& 6 = 6 then .error (.reject m)
  else if !p.inBounds size then .error (.reject m)
  else do
    let m ← forRangeE ((p.last.toNat - p.first.toNat) / 4096) (loadPage space p) m
    let m ← fill p.vaddr p.filesz.toNat (fun k => image (p.offset.toNat + k)) m
    fill (p.vaddr + p.filesz) (p.memsz.toNat - p.filesz.toNat) (fun _ => 0) m

def loadPrograms (image : Image) (size : Word) (space : Nat) (m : Vmm) : Except ElfStop Vmm :=
  forRangeE image.header.phnum.toNat (fun i => loadProgram image size space (image.program i))
    (vmmSwitchAddressSpace m (some space))

/-- `elf32_load`: the entry point, or `none` for the source's -1. -/
def elf32Load (image : Image) (size : Word) (space : Nat) (m : Vmm) : Except Halt (Option Word × Vmm) :=
  if size < 52 ∨ image.header.valid size = false then .ok (none, m)
  else
    match loadPrograms image size space m with
    | .error (.halt h) => .error h
    | .error (.reject m) => .ok (none, vmmSwitchAddressSpace m none)
    | .ok m => .ok (some image.header.entry, vmmSwitchAddressSpace m none)

end Ceblar
