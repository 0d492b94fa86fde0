import Ceblar.Drivers.Block
import Ceblar.Lib.Run
import Mathlib.Data.Fintype.Basic

/-! # The virtio block driver (`drivers/virtio/virtio_blk.c`)

Driver and device work at their own pace on one request header, one data buffer and one status
byte. Every access of the driver to them is a step, each byte of a loop too. The descriptors are
those of `virtio_blk_init`, of which only a flag ever changes. Left out: `reserved`, which nothing
reads, and the doorbell, since the device may look at any time.
-/

namespace Ceblar

open Function

/-- `virtio_blk_req_t`. The upper half of the sector is always 0. -/
structure BlkHeader where
  type : Word
  sector : Word
  deriving DecidableEq

/-! ## The state -/

inductive ReadPc where
  | setType
  | setSector
  | setStatus
  | clear (i : Nat)
  | setRing
  | bumpIdx
  | poll (wait : Nat)
  | seen
  | check
  | copy (i : Nat)
  deriving DecidableEq

inductive WritePc where
  | setType
  | setSector
  | fill (i : Nat)
  | setStatus
  | setFlags
  | setRing
  | bumpIdx
  | poll (wait : Nat)
  | seen
  /-- Before the flags are set back; `late` after the last poll. -/
  | restore (late : Bool)
  | check
  deriving DecidableEq

inductive BlkDriver where
  | idle
  | reading (lba : Word) (pc : ReadPc)
  | writing (lba : Word) (bytes : Sector) (pc : WritePc)
  deriving DecidableEq

inductive BlkResult where
  | failed
  | read (lba : Word) (bytes : Sector)
  | written

inductive BlkPhase where
  | idle
  /-- With the header and the flag that it read. -/
  | started (header : BlkHeader) (writable : Bool)
  | moved (ok : Bool)
  | reported
  deriving DecidableEq

structure Virtio where
  present : Bool
  header : BlkHeader
  data : Sector
  status : Byte
  /-- `VIRTQ_DESC_F_WRITE` in `desc[1]`: the data is for the device to write. -/
  writable : Bool
  /-- `avail->ring`, with the head of a chain in each entry. -/
  ring : Nat → Nat
  availIdx : BitVec 16
  usedIdx : BitVec 16
  lastUsed : BitVec 16
  driver : BlkDriver
  /-- The caller's buffer of a read. -/
  buffer : Sector
  result : Option BlkResult
  disk : Word → Sector
  taken : BitVec 16
  phase : BlkPhase
  /-- What the sector of the last read has held since the call. -/
  during : List (Word × Sector)
  passed : List (Word × Sector)
  stores : List (Word × Sector)

def virtioPollLimit : Nat := 1000000

section

variable (s : Virtio)

def Virtio.ret (r : BlkResult) : Virtio := { s with driver := .idle, result := some r }

def readStep (lba : Word) : ReadPc → Virtio
  | .setType => { s with header := { s.header with type := 0 }, driver := .reading lba .setSector }
  | .setSector => { s with header := { s.header with sector := lba }, driver := .reading lba .setStatus }
  | .setStatus => { s with status := 0xff, driver := .reading lba (.clear 0) }
  | .clear i =>
    if h : i < 512 then { s with data := update s.data ⟨i, h⟩ 0, driver := .reading lba (.clear (i + 1)) }
    else { s with driver := .reading lba .setRing }
  | .setRing => { s with ring := update s.ring (s.availIdx.toNat % 8) 0, driver := .reading lba .bumpIdx }
  | .bumpIdx => { s with availIdx := s.availIdx + 1, driver := .reading lba (.poll 0) }
  | .poll wait =>
    if wait < virtioPollLimit then
      { s with driver := .reading lba (if s.usedIdx ≠ s.lastUsed then .seen else .poll (wait + 1)) }
    else s.ret .failed
  | .seen => { s with lastUsed := s.usedIdx, driver := .reading lba .check }
  | .check => if s.status ≠ 0 then s.ret .failed else { s with driver := .reading lba (.copy 0) }
  | .copy i =>
    if h : i < 512 then
      { s with buffer := update s.buffer ⟨i, h⟩ (s.data ⟨i, h⟩), driver := .reading lba (.copy (i + 1)) }
    else s.ret (.read lba s.buffer)

def writeStep (lba : Word) (bytes : Sector) : WritePc → Virtio
  | .setType => { s with header := { s.header with type := 1 }, driver := .writing lba bytes .setSector }
  | .setSector =>
    { s with header := { s.header with sector := lba }, driver := .writing lba bytes (.fill 0) }
  | .fill i =>
    if h : i < 512 then
      { s with data := update s.data ⟨i, h⟩ (bytes ⟨i, h⟩), driver := .writing lba bytes (.fill (i + 1)) }
    else { s with driver := .writing lba bytes .setStatus }
  | .setStatus => { s with status := 0xff, driver := .writing lba bytes .setFlags }
  | .setFlags => { s with writable := false, driver := .writing lba bytes .setRing }
  | .setRing =>
    { s with ring := update s.ring (s.availIdx.toNat % 8) 0, driver := .writing lba bytes .bumpIdx }
  | .bumpIdx => { s with availIdx := s.availIdx + 1, driver := .writing lba bytes (.poll 0) }
  | .poll wait =>
    if wait < virtioPollLimit then
      { s with driver := .writing lba bytes (if s.usedIdx ≠ s.lastUsed then .seen else .poll (wait + 1)) }
    else { s with driver := .writing lba bytes (.restore true) }
  | .seen => { s with lastUsed := s.usedIdx, driver := .writing lba bytes (.restore false) }
  | .restore late =>
    if late then { s with writable := true }.ret .failed
    else { s with writable := true, driver := .writing lba bytes .check }
  | .check => s.ret (if s.status = 0 then .written else .failed)

end

/-- The device moves the data of an entry that it started; `ok` is whether the disk works. A chain
that does not fit the header is refused. -/
def Virtio.move (s : Virtio) (h : BlkHeader) (writable ok : Bool) : Virtio :=
  if ok && h.type == 0 && writable then { s with data := s.disk h.sector, phase := .moved true }
  else if ok && h.type == 1 && !writable then
    { s with
      disk := update s.disk h.sector s.data
      phase := .moved true
      during :=
        match s.driver with
        | .reading lba _ => (lba, update s.disk h.sector s.data lba) :: s.during
        | _ => s.during
      stores := (h.sector, s.data) :: s.stores }
  else { s with phase := .moved false }

inductive VirtioOp where
  /-- A call of `virtio_blk_read_sector`; `buffer` is whether there is one. -/
  | read (lba : Word) (buffer : Bool)
  /-- A call of `virtio_blk_write_sector`, with null or a buffer. -/
  | write (lba : Word) (bytes : Option Sector)
  | driver
  | start
  | move (ok : Bool)
  | report
  | complete

def virtioStep (s : Virtio) : VirtioOp → Option Virtio
  | .read lba buffer =>
    match s.driver with
    | .idle =>
      if s.present && buffer then
        some { s with driver := .reading lba .setType, result := none, during := [(lba, s.disk lba)] }
      else some (s.ret .failed)
    | _ => none
  | .write lba bytes =>
    match s.driver, bytes with
    | .idle, some bytes =>
      if s.present then
        some { s with
               driver := .writing lba bytes .setType, result := none, passed := (lba, bytes) :: s.passed }
      else some (s.ret .failed)
    | .idle, none => some (s.ret .failed)
    | _, _ => none
  | .driver =>
    match s.driver with
    | .idle => none
    | .reading lba pc => some (readStep s lba pc)
    | .writing lba bytes pc => some (writeStep s lba bytes pc)
  | .start =>
    match s.phase with
    | .idle =>
      -- the chain that starts at descriptor 0 is the only one
      if s.taken ≠ s.availIdx ∧ s.ring (s.taken.toNat % 8) = 0 then
        some { s with phase := .started s.header s.writable, taken := s.taken + 1 }
      else none
    | _ => none
  | .move ok =>
    match s.phase with
    | .started h writable => some (s.move h writable ok)
    | _ => none
  | .report =>
    match s.phase with
    | .moved ok => some { s with status := if ok then 0 else 1, phase := .reported }
    | _ => none
  | .complete =>
    match s.phase with
    | .reported => some { s with usedIdx := s.usedIdx + 1, phase := .idle }
    | _ => none

structure Virtio.Fresh (s : Virtio) : Prop where
  writable : s.writable = true
  ring : ∀ i, s.ring i = 0
  availIdx : s.availIdx = 0
  usedIdx : s.usedIdx = 0
  lastUsed : s.lastUsed = 0
  driver : s.driver = .idle
  result : s.result = none
  taken : s.taken = 0
  phase : s.phase = .idle
  passed : s.passed = []
  stores : s.stores = []

end Ceblar
