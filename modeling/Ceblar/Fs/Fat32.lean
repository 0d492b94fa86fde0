import Ceblar.Drivers.Block
import Ceblar.Lib.Bytes

/-! # FAT32 (`fs/fat32/fat32.c`)

Mounting and reading. The static sector buffer is not part of the state: every read of it follows
a block read that filled it. What goes through `scan_root` is in `Fs/Directory`.
-/

namespace Ceblar

structure Dev where
  block : Block
  /-- Whether the device answers its `n`-th read. -/
  ok : Nat → Bool
  reads : List Word

def Dev.read (d : Dev) (lba : Word) : Option Sector × Dev :=
  (blockReadSector (d.ok d.reads.length) d.block lba, { d with reads := lba :: d.reads })

/-- A byte of the sector buffer. No call with a sector size of 512 looks beyond it. -/
def byteAt (s : Sector) (i : Nat) : Byte := if h : i < 512 then s ⟨i, h⟩ else 0

def le16At (s : Sector) (i : Nat) : Word := le32 (byteAt s i) (byteAt s (i + 1)) 0 0

def le32At (s : Sector) (i : Nat) : Word :=
  le32 (byteAt s i) (byteAt s (i + 1)) (byteAt s (i + 2)) (byteAt s (i + 3))

structure Fat32 where
  partitionLba : Word
  fatLba : Word
  dataLba : Word
  sectorsPerCluster : Word
  bytesPerSector : Word
  fatSize : Word
  rootCluster : Word
  mounted : Bool
deriving DecidableEq

structure FatFile where
  firstCluster : Word
  size : Word
  position : Word
  directory : Bool
deriving DecidableEq

def validCluster (c : Word) : Bool := 2 ≤ c && c ≤ 0x0ffffff6

def clusterLba (g : Fat32) (c : Word) : Word := g.dataLba + (c - 2) * g.sectorsPerCluster

/-- `next_cluster`; 0 is what it returns when the table cannot be read. -/
def nextCluster (g : Fat32) (c : Word) (d : Dev) : Word × Dev :=
  match d.read (g.fatLba + c * 4 / g.bytesPerSector) with
  | (none, d) => (0, d)
  | (some s, d) => (le32At s (c * 4 % g.bytesPerSector).toNat &&& 0x0fffffff, d)

def partitionStart (s : Sector) : Word :=
  if byteAt s 510 = 0x55 ∧ byteAt s 511 = 0xaa ∧ byteAt s 450 ≠ 0 then
    match [446, 462, 478, 494].find? fun e => byteAt s (e + 4) == 0x0b || byteAt s (e + 4) == 0x0c with
    | some e => le32At s (e + 8)
    | none => 0
  else 0

/-- `fat32_mount`. What a failed call has stored by then stays. -/
def fat32Mount (g : Fat32) (d : Dev) : Bool × Fat32 × Dev :=
  if !d.block.present then (false, g, d)
  else
    match d.read 0 with
    | (none, d) => (false, g, d)
    | (some s, d) =>
      let g := { g with partitionLba := partitionStart s }
      match d.read g.partitionLba with
      | (none, d) => (false, g, d)
      | (some s, d) =>
        let reserved := le16At s 14
        let fats := (byteAt s 16).setWidth 32
        let g := { g with
          bytesPerSector := le16At s 11
          sectorsPerCluster := (byteAt s 13).setWidth 32
          fatSize := le32At s 36
          rootCluster := le32At s 44 }
        if g.bytesPerSector ≠ 512 ∨ g.sectorsPerCluster = 0 ∨ fats = 0 ∨ g.fatSize = 0 ∨
            validCluster g.rootCluster = false then (false, g, d)
        else
          let fatLba := g.partitionLba + reserved
          (true, { g with fatLba, dataLba := fatLba + fats * g.fatSize, mounted := true }, d)

/-! ## Reading a file -/

structure Copy where
  out : Nat → Byte
  done : Word
  position : Word
  dev : Dev

def skipClusters (g : Fat32) : Nat → Word → Dev → Word × Dev
  | 0, cluster, d => (cluster, d)
  | skip + 1, cluster, d =>
    if validCluster cluster then
      let (cluster, d) := nextCluster g cluster d
      skipClusters g skip cluster d
    else (cluster, d)

def Copy.wanted (c : Copy) (g : Fat32) (length : Word) : Word :=
  let take := g.bytesPerSector - c.position % g.bytesPerSector
  if length - c.done < take then length - c.done else take

def Copy.take (c : Copy) (g : Fat32) (length : Word) (sector : Sector) : Copy :=
  let offset := c.position % g.bytesPerSector
  let take := c.wanted g length
  { c with
    out := fun i =>
      if c.done.toNat ≤ i ∧ i < c.done.toNat + take.toNat then
        byteAt sector (offset.toNat + (i - c.done.toNat))
      else c.out i
    done := c.done + take
    position := c.position + take }

/-- The loop over the sectors of a cluster, from `s` on; `false` is a read that failed. There are
at most `sectors_per_cluster` rounds. -/
def readSectors (g : Fat32) (cluster length : Word) : Nat → Word → Copy → Bool × Copy
  | 0, _, c => (true, c)
  | fuel + 1, s, c =>
    if s < g.sectorsPerCluster ∧ c.done < length then
      match c.dev.read (clusterLba g cluster + s) with
      | (none, dev) => (false, { c with dev })
      | (some sector, dev) => readSectors g cluster length fuel (s + 1)
          ({ c with dev }.take g length sector)
    else (true, c)

def readClusters (g : Fat32) (length : Word) : Nat → Word → Copy → Int × Copy
  | 0, _, c => (c.done.toInt, c)
  | fuel + 1, cluster, c =>
    if c.done < length ∧ validCluster cluster then
      match readSectors g cluster length g.sectorsPerCluster.toNat
          (c.position / g.bytesPerSector % g.sectorsPerCluster) c with
      | (false, c) => (if c.done = 0 then -1 else c.done.toInt, c)
      | (true, c) =>
        let (cluster, dev) := nextCluster g cluster c.dev
        readClusters g length fuel cluster { c with dev }
    else (c.done.toInt, c)

structure ReadResult where
  rc : Int
  out : Nat → Byte
  file : FatFile
  dev : Dev

/-- `fat32_read_file` into a buffer that holds `out`. -/
def fat32ReadFile (g : Fat32) (f : FatFile) (out : Nat → Byte) (length : Word) (d : Dev) : ReadResult :=
  if g.mounted = false ∨ f.directory ∨ f.size ≤ f.position then ⟨0, out, f, d⟩
  else
    let length := if f.size - f.position < length then f.size - f.position else length
    let skip := f.position / (g.sectorsPerCluster * g.bytesPerSector)
    let (cluster, dev) := skipClusters g skip.toNat f.firstCluster d
    let (rc, c) :=
    readClusters g length length.toNat cluster { out, done := 0, position := f.position, dev }
    ⟨rc, c.out, { f with position := c.position }, c.dev⟩

end Ceblar
