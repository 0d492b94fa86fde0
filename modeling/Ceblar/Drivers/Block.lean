import Ceblar.Lib.Word
import Mathlib.Logic.Function.Basic

/-! # The block layer (`drivers/block.c`)

Sectors of 512 bytes on the default device. The device decides what becomes of each write:
it is stored, it fails and changes nothing, or the machine loses power during it.
-/

namespace Ceblar

abbrev Sector := Fin 512 → Byte

instance sector_neZero : NeZero 512 := ⟨by decide⟩

/-- The layer with its default device, `devices[0]`. -/
structure Block where
  present : Bool
  writable : Bool
  disk : Word → Sector

inductive Outcome where
  | done
  | failed
  /-- The power goes; the sector is untouched, or left with arbitrary bytes. -/
  | crash (left : Option Sector)

def Block.store (b : Block) (lba : Word) (s : Sector) : Block :=
  { b with disk := Function.update b.disk lba s }

/-- `block_read_sector`; `ok` is what the device answers. -/
def blockReadSector (ok : Bool) (b : Block) (lba : Word) : Option Sector :=
  if b.present && ok then some (b.disk lba) else none

/-- `block_write_sector`. The error is a crash, with the device as the crash leaves it. -/
def blockWriteSector (o : Outcome) (b : Block) (lba : Word) (s : Sector) : Except Block (Bool × Block) :=
  if b.present && b.writable then
    match o with
    | .done => .ok (true, b.store lba s)
    | .failed => .ok (false, b)
    | .crash none => .error b
    | .crash (some left) => .error (b.store lba left)
  else .ok (false, b)

@[simp] theorem store_present (b : Block) (lba : Word) (s : Sector) :
    (b.store lba s).present = b.present := rfl

@[simp] theorem store_writable (b : Block) (lba : Word) (s : Sector) :
    (b.store lba s).writable = b.writable := rfl

@[simp] theorem store_disk_self (b : Block) (lba : Word) (s : Sector) : (b.store lba s).disk lba = s := by
  simp [Block.store]

theorem store_disk_ne (b : Block) {lba l : Word} (s : Sector) (h : l ≠ lba) :
    (b.store lba s).disk l = b.disk l := by
  simp [Block.store, h]

theorem blockWriteSector_done {b : Block} (hb : b.present = true) (hw : b.writable = true) (lba : Word)
    (s : Sector) : blockWriteSector .done b lba s = .ok (true, b.store lba s) := by
  simp [blockWriteSector, hb, hw]

end Ceblar
