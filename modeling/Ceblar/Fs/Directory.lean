import Ceblar.Fs.ReadFile
import Mathlib.Data.List.TakeWhile

/-! # The root directory (`fs/fat32/fat32.c`)

`scan_root` and its callers. The scan follows the chain of the root directory until an entry or the
chain ends it; the chain may be a cycle, so the scan is a function of how many clusters it is given.
-/

namespace Ceblar

/-! ## Entries and names -/

abbrev DirEntry := Fin 32 → Byte

instance entry_neZero : NeZero 32 := ⟨by decide⟩

def entryAt (s : Sector) (e : Nat) : DirEntry := fun i => byteAt s (32 * e + i)

def DirEntry.le16 (d : DirEntry) (i : Fin 32) : Word := le32 (d i) (d (i + 1)) 0 0

def DirEntry.size (d : DirEntry) : Word := le32 (d 28) (d 29) (d 30) (d 31)

def DirEntry.skipped (d : DirEntry) : Bool := d 0 == 0xe5 || d 11 == 0x0f || d 11 &&& 0x08 != 0

def DirEntry.isDir (d : DirEntry) : Bool := d 11 &&& 0x10 != 0

/-- The loops of `short_name`: at most `fuel` characters from `j` on, as far as there is room. -/
def copyChars (d : DirEntry) (cap : Nat) : Nat → Nat → List Byte → List Byte
  | 0, _, n => n
  | fuel + 1, j, n =>
    if n.length + 1 < cap ∧ d (Fin.ofNat 32 j) ≠ 0x20 then
      copyChars d cap fuel (j + 1) (n ++ [d (Fin.ofNat 32 j)]) else n

/-- `short_name`: what is in the buffer up to the end of the string. -/
def shortName (d : DirEntry) (cap : Word) : List Byte :=
  let n := copyChars d cap.toNat 8 0 []
  let n := if d 8 ≠ 0x20 ∧ n.length + 1 < cap.toNat then copyChars d cap.toNat 3 8 (n ++ [0x2e]) else n
  if cap ≠ 0 then n.take (cap.toNat - 1) ++ [0] else []

def upper (c : Byte) : Byte := if 0x61 ≤ c ∧ c ≤ 0x7a then c - 0x20 else c

/-- The first loop of `make_83`: what it stores, and where it leaves the path. -/
def nameChars : Nat → List Byte → List Byte × List Byte
  | 0, p => ([], p)
  | _ + 1, [] => ([], [])
  | fuel + 1, b :: p =>
    if b = 0 ∨ b = 0x2f then ([], b :: p)
    else if upper b ≠ 0x2e then
      let (n, p) := nameChars fuel p
      (upper b :: n, p)
    else ([], p)

def extChars : Nat → List Byte → List Byte
  | 0, _ => []
  | _ + 1, [] => []
  | fuel + 1, b :: p => if b = 0 ∨ b = 0x2f then [] else upper b :: extChars fuel p

/-- `make_83`: 11 bytes, padded with blanks. -/
def make83 (p : List Byte) : List Byte :=
  let (name, p) := nameChars 8 p
  let p := match p with
    | 0x2e :: p => p
    | p => p
  let ext := extChars 3 p
  name ++ List.replicate (8 - name.length) 0x20 ++ ext ++ List.replicate (3 - ext.length) 0x20

/-! ## The scan -/

/-- What `scan_root` is asked for: a file by its name, or the directory at an index. -/
inductive Query where
  | lookup (wanted : List Byte)
  | list (index cap : Word)

inductive ScanResult where
  | failed
  | found (file : FatFile)
  | listed (name : List Byte) (size : Word)
  deriving DecidableEq

def scanEntry (q : Query) (index : Word) (d : DirEntry) : Except ScanResult Word :=
  if d 0 = 0 then .error .failed
  else if d.skipped then .ok index
  else if d.isDir then
    match q with
    | .list wanted cap => if wanted = index then .error (.listed (shortName d cap) d.size)
        else .ok (index + 1)
    | .lookup _ => .ok (index + 1)
  else
    match q with
    | .lookup wanted =>
      if ∀ i : Fin 11, some (d (i.castLE (by decide))) = wanted[i.val]? then
        .error (.found
          { firstCluster := d.le16 20 <<< 16 ||| d.le16 26
            size := d.size
            position := 0
            directory := false })
      else .ok (index + 1)
    | .list _ _ => .ok (index + 1)

def scanSector (g : Fat32) (q : Query) (s : Sector) (index : Word) : Except ScanResult Word :=
  forRangeE ((g.bytesPerSector.toNat + 31) / 32) (fun e index => scanEntry q index (entryAt s e)) index

def scanRound (g : Fat32) (q : Query) (cluster : Word) (s : Nat) (st : Word × Dev) :
    Except (ScanResult × Dev) (Word × Dev) :=
  match st.2.read (clusterLba g cluster + BitVec.ofNat 32 s) with
  | (none, d) => .error (.failed, d)
  | (some sector, d) =>
    match scanSector g q sector st.1 with
    | .error r => .error (r, d)
    | .ok index => .ok (index, d)

def scanCluster (g : Fat32) (q : Query) (cluster : Word) (st : Word × Dev) :
    Except (ScanResult × Dev) (Word × Dev) :=
  forRangeE g.sectorsPerCluster.toNat (scanRound g q cluster) st

/-- The loop of `scan_root`; `none` if it is not over after `fuel` clusters. -/
def scanClusters (g : Fat32) (q : Query) : Nat → Word → Word × Dev → Option (ScanResult × Dev)
  | 0, _, _ => none
  | fuel + 1, cluster, st =>
    if validCluster cluster then
      match scanCluster g q cluster st with
      | .error r => some r
      | .ok (index, d) =>
        let (cluster, d) := nextCluster g cluster d
        if 0x0ffffff8 ≤ cluster then some (.failed, d) else scanClusters g q fuel cluster (index, d)
    else some (.failed, st.2)

def scanRoot (fuel : Nat) (g : Fat32) (q : Query) (d : Dev) : Option (ScanResult × Dev) :=
  scanClusters g q fuel g.rootCluster (0, d)

def fat32Open (fuel : Nat) (g : Fat32) (path : List Byte) (d : Dev) : Option (ScanResult × Dev) :=
  let path := path.dropWhile (· == 0x2f)
  if !g.mounted || path.isEmpty then some (.failed, d)
  else scanRoot fuel g (.lookup (make83 path)) d

/-- `fat32_readdir` into a buffer of `cap` bytes. -/
def fat32Readdir (fuel : Nat) (g : Fat32) (index cap : Word) (d : Dev) : Option (ScanResult × Dev) :=
  if !g.mounted || cap = 0 then some (.failed, d) else scanRoot fuel g (.list index cap) d

def clusterEntries (g : Fat32) (disk : Word → Sector) (c : Word) : List DirEntry :=
  (List.range g.sectorsPerCluster.toNat).flatMap fun s =>
    (List.range 16).map fun e => entryAt (disk (clusterLba g c + BitVec.ofNat 32 s)) e

def HasEnd (g : Fat32) (disk : Word → Sector) (c : Word) : Prop := ∃ d ∈ clusterEntries g disk c, d 0 = 0

instance (g : Fat32) (disk : Word → Sector) (c : Word) : Decidable (HasEnd g disk c) :=
  inferInstanceAs (Decidable (∃ d ∈ _, _))

def scanList (q : Query) (es : List DirEntry) (index : Word) : Except ScanResult Word :=
  es.foldlM (scanEntry q) index

/-! ## One sector and one cluster -/

section

variable {g : Fat32} {disk : Word → Sector} {q : Query} {c index : Word} {d : Dev}

theorem scanList_append (q : Query) (es fs : List DirEntry) (index : Word) :
    scanList q (es ++ fs) index = scanList q es index >>= scanList q fs := by
  unfold scanList
  exact List.foldlM_append

theorem scanSector_eq (hg : g.Valid) (q : Query) (s : Sector) (index : Word) :
    scanSector g q s index = scanList q ((List.range 16).map (entryAt s)) index := by
  unfold scanSector scanList
  rw [hg.bytes, forRangeE_eq_foldlM, List.foldlM_map]
  rfl

theorem scanList_ok {es : List DirEntry} {index' : Word} (h : scanList q es index = .ok index') :
    ∀ e ∈ es, e 0 ≠ 0 := by
  induction es generalizing index with
  | nil => simp
  | cons e es ih =>
    obtain ⟨i, he, hrest⟩ := bind_eq_ok.mp (show scanEntry q index e >>= scanList q es = _ from h)
    intro x hx
    rcases List.mem_cons.mp hx with rfl | hx
    · unfold scanEntry at he
      split at he
      · cases he
      · assumption
    · exact ih hrest x hx

def Dev.Answers (d : Dev) : Prop := ∀ n, d.answers n = true

theorem Later.answers {d' : Dev} (h : Later d d') (hd : d.Answers) : d'.Answers := by
  intro n
  unfold Dev.answers
  rw [h.block, h.ok]
  exact hd n

theorem read_answered (hd : d.Answers) (lba : Word) :
    ∃ d', Later d d' ∧ d.read lba = (some (d.block.disk lba), d') := by
  obtain ⟨hlater, hread⟩ := read_spec d lba
  refine ⟨(d.read lba).2, hlater, ?_⟩
  rcases hread with hread | ⟨-, n, -, -, hfail⟩
  · rw [← hread]
  · rw [hd n] at hfail
    cases hfail

theorem nextCluster_answered (hg : g.Valid) (hd : d.Answers) (c : Word) :
    ∃ d', Later d d' ∧ nextCluster g c d = (fatEntry g d.block.disk c, d') := by
  obtain ⟨d', hlater, hread⟩ := read_answered hd (g.fatLba + c * 4 / 512)
  refine ⟨d', hlater, ?_⟩
  unfold nextCluster fatEntry
  rw [hg.bytes]
  change (match d.read (g.fatLba + c * 4 / 512) with | (none, d) => _ | (some s, d) => _) = _
  rw [hread]

def withDev (d : Dev) : Except ScanResult Word → Except (ScanResult × Dev) (Word × Dev)
  | .error r => .error (r, d)
  | .ok index => .ok (index, d)

theorem scanSectors_spec (hg : g.Valid) (hd : d.block.disk = disk) (q : Query) (c index : Word)
    (n : Nat) :
    ∃ d', Later d d' ∧
      (forRangeE n (scanRound g q c) (index, d) = withDev d' (scanList q ((List.range n).flatMap fun s =>
          (List.range 16).map (entryAt (disk (clusterLba g c + BitVec.ofNat 32 s)))) index) ∨
        forRangeE n (scanRound g q c) (index, d) = .error (.failed, d') ∧ Failed d d') := by
  induction n with
  | zero => exact ⟨d, .refl d, .inl rfl⟩
  | succ n ih =>
    obtain ⟨d1, hlater, hn | ⟨hn, hfail⟩⟩ := ih
    · rw [forRangeE, hn, List.range_succ (n := n), List.flatMap_append, scanList_append]
      cases hscan : scanList q ((List.range n).flatMap fun s =>
          (List.range 16).map (entryAt (disk (clusterLba g c + BitVec.ofNat 32 s)))) index with
      | error r => exact ⟨d1, hlater, .inl rfl⟩
      | ok i =>
        obtain ⟨hlater1, hread⟩ := read_spec d1 (clusterLba g c + BitVec.ofNat 32 n)
        have hround : (withDev d1 (.ok i) >>= scanRound g q c n) = scanRound g q c n (i, d1) := rfl
        rw [hround]
        unfold scanRound
        dsimp only
        generalize d1.read (clusterLba g c + BitVec.ofNat 32 n) = res at hlater1 hread
        obtain ⟨sector, d2⟩ := res
        dsimp only at hlater1 hread
        refine ⟨d2, hlater.trans hlater1, ?_⟩
        rcases hread with rfl | ⟨rfl, hfail⟩
        · left
          dsimp only
          rw [scanSector_eq hg, hlater.block, hd, List.flatMap_singleton]
          change _ = withDev d2 (scanList q _ i)
          cases scanList q _ i <;> rfl
        · exact .inr ⟨rfl, hlater.failed hfail⟩
    · refine ⟨d1, hlater, .inr ⟨?_, hfail⟩⟩
      rw [forRangeE, hn]
      rfl

theorem scanCluster_spec (hg : g.Valid) (hd : d.block.disk = disk) (q : Query) (c index : Word) :
    ∃ d', Later d d' ∧
    (scanCluster g q c (index, d) = withDev d' (scanList q (clusterEntries g disk c) index) ∨
      scanCluster g q c (index, d) = .error (.failed, d') ∧ Failed d d') :=
  scanSectors_spec hg hd q c index _

theorem scanCluster_eq (hg : g.Valid) (hd : d.Answers) (q : Query) (c index : Word) :
    ∃ d', Later d d' ∧
      scanCluster g q c (index, d) = withDev d' (scanList q (clusterEntries g d.block.disk c) index) := by
  obtain ⟨d', hlater, hscan | ⟨-, n, -, -, hfail⟩⟩ := scanCluster_spec hg rfl q c index
  · exact ⟨d', hlater, hscan⟩
  · rw [hd n] at hfail
    cases hfail

theorem scanCluster_ok (hg : g.Valid) (hd : d.block.disk = disk) {index' : Word} {d' : Dev}
    (h : scanCluster g q c (index, d) = .ok (index', d')) :
    Later d d' ∧ scanList q (clusterEntries g disk c) index = .ok index' ∧ ¬HasEnd g disk c := by
  obtain ⟨d1, hlater, hscan | ⟨hscan, -⟩⟩ := scanCluster_spec hg hd q c index
  · rw [h] at hscan
    cases hlist : scanList q (clusterEntries g disk c) index with
    | error r =>
      rw [hlist] at hscan
      cases hscan
    | ok i =>
      rw [hlist] at hscan
      cases hscan
      exact ⟨hlater, rfl, fun ⟨e, he, hzero⟩ => scanList_ok hlist e he hzero⟩
  · rw [h] at hscan
    cases hscan

end

def DirEntry.name83 (d : DirEntry) : List Byte :=
  let chars (j n : Nat) := ((List.range n).map fun i => d (Fin.ofNat 32 (j + i))).takeWhile (· != 0x20)
  chars 0 8 ++ if d 8 ≠ 0x20 then 0x2e :: chars 8 3 else []

theorem copyChars_eq (d : DirEntry) {cap : Nat} (fuel j : Nat) {n : List Byte} (hn : n.length < cap) :
    copyChars d cap fuel j n =
      (n ++ ((List.range fuel).map fun i => d (Fin.ofNat 32 (j + i))).takeWhile (· != 0x20)).take
        (cap - 1) := by
  induction fuel generalizing j n with
  | zero => simp [copyChars, List.take_of_length_le (show n.length ≤ cap - 1 by omega)]
  | succ fuel ih =>
    have hrange : (List.range (fuel + 1)).map (fun i => d (Fin.ofNat 32 (j + i))) =
        d (Fin.ofNat 32 j) :: (List.range fuel).map fun i => d (Fin.ofNat 32 (j + 1 + i)) := by
      rw [List.range_succ_eq_map, List.map_cons, List.map_map]
      congr 1
      apply List.map_congr_left
      intro i _
      simp only [Function.comp_apply]
      congr 2
      omega
    rw [copyChars, hrange, List.takeWhile_cons]
    split
    · rename_i h
      have hb : (d (Fin.ofNat 32 j) != 0x20) = true := by simpa using h.2
      rw [ih (j + 1) (by simp; omega), if_pos hb, List.append_assoc, List.singleton_append]
    · rename_i h
      by_cases hb : d (Fin.ofNat 32 j) = 0x20
      · rw [if_neg (by simpa using hb), List.append_nil, List.take_of_length_le (by omega)]
      · have hfull : n.length = cap - 1 := by
          by_contra hne
          exact h ⟨by omega, hb⟩
        rw [if_pos (by simpa using hb), ← hfull, List.take_left']
        rfl

theorem shortName_eq (d : DirEntry) {cap : Word} (hcap : cap ≠ 0) :
    shortName d cap = d.name83.take (cap.toNat - 1) ++ [0] := by
  have hpos : 0 < cap.toNat := Nat.pos_of_ne_zero fun h => hcap (BitVec.eq_of_toNat_eq h)
  unfold shortName DirEntry.name83
  dsimp only
  rw [if_pos hcap]
  congr 1
  have hbase := copyChars_eq d 8 0 (n := []) hpos
  rw [List.nil_append] at hbase
  generalize ((List.range 8).map fun i => d (Fin.ofNat 32 (0 + i))).takeWhile (· != 0x20) =
    base at hbase ⊢
  rw [hbase]
  by_cases hdot : d 8 = 0x20
  · simp [hdot, List.take_take]
  · simp only [hdot, ne_eq, not_false_eq_true, true_and, if_true]
    split
    · rename_i hroom
      rw [List.length_take] at hroom
      have hshort : base.length ≤ cap.toNat - 1 := by omega
      rw [List.take_of_length_le hshort, copyChars_eq d 3 8 (by simp; omega), List.take_take,
        Nat.min_self, List.append_assoc, List.singleton_append]
    · rename_i hroom
      rw [List.length_take] at hroom
      rw [List.take_take, Nat.min_self, List.take_append_of_le_length (by omega)]

end Ceblar
