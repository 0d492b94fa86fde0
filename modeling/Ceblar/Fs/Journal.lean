import Ceblar.Drivers.Block
import Ceblar.Lib.Bytes
import Ceblar.Lib.Run

/-! # The journal (`fs/journal.c`)

A write goes to a log slot first, then to its target, and then the slot is cleared. A record
takes 532 bytes and a slot holds 512, so the last 20 bytes of the data never reach the disk:
after a reboot they are whatever the stack holds.
-/

namespace Ceblar

variable {q r : Record} {o : Nat → SlotOutcome} {j : Journal} {b : Block} {i : Nat}

/-! ## Records -/

def journalMagic : Word := 0x434a4e4c
def journalCommitted : Byte := 0xa5
def journalMaxSlots : Word := 64

/-- `journal_record_t`, packed: 20 bytes of header and 512 of data. -/
structure Record where
  magic : Word
  sequence : Word
  targetLba : Word
  checksum : Word
  committed : Byte
  reserved : Fin 3 → Byte
  data : Sector

def checksum (r : Record) : Word :=
  let h := (List.finRange 512).foldl (fun h i => (h ^^^ (r.data i).setWidth 32) * 16777619) 2166136261
  let h := (h ^^^ r.targetLba) * 16777619
  h ^^^ r.sequence

def Record.byte (r : Record) (k : Nat) : Byte :=
  if k < 4 then byteOf r.magic k
  else if k < 8 then byteOf r.sequence (k - 4)
  else if k < 12 then byteOf r.targetLba (k - 8)
  else if k < 16 then byteOf r.checksum (k - 12)
  else if k < 17 then r.committed
  else if h : k - 17 < 3 then r.reserved ⟨k - 17, h⟩
  else if h : k - 20 < 512 then r.data ⟨k - 20, h⟩
  else 0

def Record.sector (r : Record) : Sector := fun i => r.byte i

def Record.load (r : Record) (s : Sector) : Record where
  magic := le32 (s 0) (s 1) (s 2) (s 3)
  sequence := le32 (s 4) (s 5) (s 6) (s 7)
  targetLba := le32 (s 8) (s 9) (s 10) (s 11)
  checksum := le32 (s 12) (s 13) (s 14) (s 15)
  committed := s 16
  reserved := fun k => s ⟨17 + k, by omega⟩
  data := fun i => if h : i.val + 20 < 512 then s ⟨i + 20, h⟩ else r.data i

def Record.valid (r : Record) : Bool :=
  r.magic == journalMagic && r.committed == journalCommitted && r.checksum == checksum r

/-! ## The operations -/

structure Journal where
  base : Word
  slotCount : Word
  sequence : Word
  ready : Bool

def journalInit (b : Block) (start slots : Word) : Int × Journal :=
  let slotCount := if journalMaxSlots < slots then journalMaxSlots else slots
  let ready := b.present && slotCount != 0
  (if ready then 0 else -1, { base := start, slotCount := slotCount, sequence := 1, ready := ready })

def Journal.slot (j : Journal) (sequence : Word) : Word := j.base + sequence % j.slotCount

/-- The record that `journal_write` fills in, over what the stack holds. -/
def journalRecord (stack : Record) (sequence target : Word) (sector : Sector) : Record :=
  let r : Record :=
    { stack with
      magic := journalMagic
      sequence := sequence
      targetLba := target
      committed := journalCommitted
      data := sector }
  { r with checksum := checksum r }

/-- `journal_write`. `stack` is the local record before it is filled in, and `o` what becomes of
the three block writes. -/
def journalWrite (o : Nat → Outcome) (stack : Record) (j : Journal) (b : Block) (target : Word)
    (sector : Sector) : Except Block (Int × Journal × Block) :=
  if !j.ready || !b.writable then .ok (-1, j, b)
  else do
    let r := journalRecord stack j.sequence target sector
    let j := { j with sequence := j.sequence + 1 }
    let (ok, b) ← blockWriteSector (o 0) b (j.slot r.sequence) r.sector
    if !ok then return (-1, j, b)
    let (ok, b) ← blockWriteSector (o 1) b target sector
    if !ok then return (-1, j, b)
    let r := { r with committed := 0 }
    let (ok, b) ← blockWriteSector (o 2) b (j.slot r.sequence) r.sector
    return (if ok then 0 else -1, j, b)

structure SlotOutcome where
  read : Bool
  apply : Outcome
  clear : Outcome

/-- One iteration of `journal_replay`, on the local record, the count and the device. -/
def replaySlot (o : Nat → SlotOutcome) (j : Journal) (i : Nat) (st : Record × Nat × Block) :
    Except Block (Record × Nat × Block) :=
  let (r, applied, b) := st
  let lba := j.base + BitVec.ofNat 32 i
  match blockReadSector (o i).read b lba with
  | none => .ok (r, applied, b)
  | some s =>
    let r := r.load s
    if !r.valid then .ok (r, applied, b)
    else do
      let (ok, b) ← blockWriteSector (o i).apply b r.targetLba r.data
      if !ok then return (r, applied, b)
      let r := { r with committed := 0 }
      let (_, b) ← blockWriteSector (o i).clear b lba r.sector
      return (r, applied + 1, b)

/-- `journal_replay`, with `stack` the local record at its start. -/
def journalReplay (o : Nat → SlotOutcome) (stack : Record) (j : Journal) (b : Block) :
    Except Block (Int × Block) :=
  if !j.ready then .ok (-1, b)
  else do
    let (_, applied, b) ← forRangeE j.slotCount.toNat (replaySlot o j) (stack, 0, b)
    return (applied, b)

/-! ## What a record keeps on disk -/

def SameTail (r q : Record) : Prop := ∀ i : Fin 512, 492 ≤ i.val → r.data i = q.data i

theorem load_congr (h : SameTail r q) (s : Sector) : r.load s = q.load s := by
  have hdata : (r.load s).data = (q.load s).data := by
    funext i
    simp only [Record.load]
    split
    · rfl
    · exact h i (by omega)
  simp only [Record.load, Record.mk.injEq, true_and]
  exact hdata

theorem sameTail_load (r : Record) (s : Sector) : SameTail (r.load s) r := by
  intro i hi
  unfold Record.load
  exact dif_neg (by omega)

theorem byte_reserved (r : Record) (k : Fin 3) : r.byte (17 + k) = r.reserved k := by
  unfold Record.byte
  rw [if_neg (by omega), if_neg (by omega), if_neg (by omega), if_neg (by omega), if_neg (by omega),
    dif_pos (by omega)]
  congr 1
  ext
  exact Nat.add_sub_cancel_left 17 k

theorem byte_data (r : Record) (i : Fin 512) : r.byte (i + 20) = r.data i := by
  unfold Record.byte
  rw [if_neg (by omega), if_neg (by omega), if_neg (by omega), if_neg (by omega), if_neg (by omega),
    dif_neg (by omega), dif_pos (by omega)]
  rfl

theorem load_sector (r q : Record) :
    r.load q.sector = { q with data := fun i => if i.val < 492 then q.data i else r.data i } := by
  unfold Record.load
  congr 1
  · exact le32_byteOf q.magic
  · exact le32_byteOf q.sequence
  · exact le32_byteOf q.targetLba
  · exact le32_byteOf q.checksum
  · exact funext (byte_reserved q)
  · funext i
    by_cases hi : i.val < 492
    · rw [dif_pos (by omega), if_pos hi]
      exact byte_data q i
    · rw [dif_neg (by omega), if_neg hi]

theorem load_sector_of_sameTail (h : SameTail r q) : r.load q.sector = q := by
  rw [load_sector]
  have hdata : (fun i : Fin 512 => if i.val < 492 then q.data i else r.data i) = q.data := by
    funext i
    split
    · rfl
    · exact h i (by omega)
  rw [hdata]

theorem journalRecord_valid (stack : Record) (sequence target : Word) (sector : Sector) :
    (journalRecord stack sequence target sector).valid = true := by
  simp [Record.valid, journalRecord, checksum]

theorem cleared_invalid (r q : Record) : (r.load { q with committed := 0 }.sector).valid = false := by
  rw [load_sector]
  simp [Record.valid, journalCommitted]

def smooth : Nat → SlotOutcome := fun _ => { read := true, apply := .done, clear := .done }

theorem replaySlot_invalid (n : Nat) (hread : (o i).read = true) (hb : b.present = true)
    (hr : (r.load (b.disk (j.base + BitVec.ofNat 32 i))).valid = false) :
    replaySlot o j i (r, n, b) = .ok (r.load (b.disk (j.base + BitVec.ofNat 32 i)), n, b) := by
  simp [replaySlot, blockReadSector, hread, hb, hr]

theorem replaySlot_valid (n : Nat) (hread : (o i).read = true) (happly : (o i).apply = .done)
    (hclear : (o i).clear = .done) (hb : b.present = true) (hw : b.writable = true)
    (hq : r.load (b.disk (j.base + BitVec.ofNat 32 i)) = q) (hr : q.valid = true) :
    replaySlot o j i (r, n, b) =
      .ok ({ q with committed := 0 }, n + 1, (b.store q.targetLba q.data).store
        (j.base + BitVec.ofNat 32 i) { q with committed := 0 }.sector) := by
  simp only [replaySlot, blockReadSector, hread, happly, hclear, hb, Bool.and_self, if_true, hq, hr,
    Bool.not_true, Bool.false_eq_true, if_false, blockWriteSector_done hb hw, bind, Except.bind]
  rw [blockWriteSector_done (by exact hb) (by exact hw)]
  rfl

end Ceblar
