import Ceblar.Fs.JournalRun
import Ceblar.Fs.ReadFile

/-! # Writing to a volume through the journal

The log is in the sectors 8 to 39 of the device, whatever is there.
-/

namespace Ceblar

variable {j : Journal} {b : Block} {c : JournalCall} {l : Word}

def fat32WriteSector (o : Nat → Outcome) (old : Record) (g : Fat32) (j : Journal) (b : Block) (lba : Word)
    (buffer : Sector) : Except Block (Int × Journal × Block) :=
  if !g.mounted then .ok (-1, j, b)
  else if j.ready then journalWrite o old j b lba buffer
  else do
    let (ok, b) ← blockWriteSector (o 0) b lba buffer
    return (if ok then 0 else -1, j, b)

structure WriteRun where
  journal : Journal
  block : Block

def writeSectorStep (g : Fat32) (s : WriteRun) (c : JournalCall) : Option WriteRun :=
  match fat32WriteSector c.outcomes c.old g s.journal s.block c.target c.content with
  | .ok (_, j, b) => some ⟨j, b⟩
  | .error _ => none

def bootJournal (b : Block) : Journal := (journalInit b 8 32).2

def Fat32.InFat (g : Fat32) (l : Word) : Prop := g.fatLba ≤ l ∧ l < g.dataLba

def Fat32.InData (g : Fat32) (l : Word) : Prop :=
  ∃ c s : Word, validCluster c = true ∧ c.toNat < g.fatSize.toNat * 128 ∧ s < g.sectorsPerCluster ∧
    l = clusterLba g c + s

def Fat32.Owns (g : Fat32) (l : Word) : Prop := g.InFat l ∨ g.InData l

/-- Whatever is written, the other sectors of the volume keep their content. -/
def Undisturbed (g : Fat32) (b : Block) : Prop :=
  ∀ calls s, runs (writeSectorStep g) ⟨bootJournal b, b⟩ calls = some s →
    ∀ l, g.Owns l → l ∉ calls.map (·.target) → s.block.disk l = b.disk l

/-! ## One write -/

theorem result_other (ht : l ≠ c.target)
    (hs : l ≠ j.slot j.sequence) : (c.result j b).2.disk l = b.disk l := by
  unfold JournalCall.result
  split
  · rfl
  · exact store_disk_ne _ _ hs
  · exact (store_disk_ne _ _ ht).trans (store_disk_ne _ _ hs)
  · exact (store_disk_ne _ _ hs).trans ((store_disk_ne _ _ ht).trans (store_disk_ne _ _ hs))

theorem result_device :
    (c.result j b).2.present = b.present ∧ (c.result j b).2.writable = b.writable := by
  unfold JournalCall.result
  split <;> exact ⟨rfl, rfl⟩

section

variable {g : Fat32} {s s' : WriteRun} {c : JournalCall} {b : Block}

theorem writeSectorStep_eq (hg : g.mounted = true) (hj : s.journal.ready = true)
    (hb : s.block.present = true) (hw : s.block.writable = true) :
    writeSectorStep g s c =
      some ⟨{ s.journal with sequence := s.journal.sequence + 1 }, (c.result s.journal s.block).2⟩ := by
  unfold writeSectorStep fat32WriteSector
  rw [if_neg (by simp [hg]), if_pos hj, journalWrite_result hj hb hw]

theorem writeSectorStep_readonly (hg : g.mounted = true) (hj : s.journal.ready = true)
    (hw : s.block.writable = false) : writeSectorStep g s c = some s := by
  unfold writeSectorStep fat32WriteSector journalWrite
  rw [if_neg (by simp [hg]), if_pos hj, if_pos (by simp [hw])]

/-- What every write keeps: the log stays where it is, and a sector that is neither in it nor a target
keeps its content. -/
structure WriteInv (b : Block) (s : WriteRun) : Prop where
  journal : s.journal = { bootJournal b with sequence := s.journal.sequence }
  present : s.block.present = b.present
  writable : s.block.writable = b.writable

theorem bootJournal_ready (hb : b.present = true) : (bootJournal b).ready = true := by
  simp [bootJournal, journalInit, journalMaxSlots, hb]

theorem writeSectorStep_inv (hg : g.mounted = true) (hb : b.present = true) (h : WriteInv b s)
    (hstep : writeSectorStep g s c = some s') :
    WriteInv b s' ∧ ∀ l, l ≠ c.target → (b.writable = true → ∀ i < 32, l ≠ 8 + BitVec.ofNat 32 i) →
      s'.block.disk l = s.block.disk l := by
  have hj : s.journal.ready = true := by rw [h.journal]; exact bootJournal_ready hb
  cases hw : b.writable with
  | false =>
    rw [writeSectorStep_readonly hg hj (h.writable.trans hw)] at hstep
    cases hstep
    exact ⟨h, fun _ _ _ => rfl⟩
  | true =>
    rw [writeSectorStep_eq hg hj (h.present.trans hb) (h.writable.trans hw)] at hstep
    cases hstep
    refine ⟨⟨?_, result_device.1.trans h.present, result_device.2.trans h.writable⟩,
      fun l ht hl => result_other ht ?_⟩
    · rw [h.journal]
    · rw [h.journal]
      have hlt : (s.journal.sequence % 32).toNat < 32 := by
        rw [BitVec.toNat_umod]
        exact Nat.mod_lt _ (by decide)
      have := hl rfl _ hlt
      rwa [BitVec.ofNat_toNat, BitVec.setWidth_eq] at this

theorem writes_other (hg : g.mounted = true) (hb : b.present = true) {calls : List JournalCall}
    (h : WriteInv b s) (hrun : runs (writeSectorStep g) s calls = some s') {l : Word}
    (ht : l ∉ calls.map (·.target)) (hl : b.writable = true → ∀ i < 32, l ≠ 8 + BitVec.ofNat 32 i) :
    s'.block.disk l = s.block.disk l := by
  induction calls generalizing s with
  | nil =>
    cases hrun
    rfl
  | cons c calls ih =>
    rw [runs_cons, Option.bind_eq_some_iff] at hrun
    obtain ⟨s₁, h₁, hrest⟩ := hrun
    obtain ⟨hne, hmem⟩ := not_or.mp (mt List.mem_cons.mpr ht)
    obtain ⟨hinv, hkeep⟩ := writeSectorStep_inv hg hb h h₁
    rw [ih hinv hrest hmem, hkeep l hne hl]

def refusedWrite : JournalCall := ⟨0, fun _ => 0, zeroRecord, fun _ => false⟩

theorem refused_run (hg : g.mounted = true) (hj : s.journal.ready = true) (hb : s.block.present = true)
    (hw : s.block.writable = true) (n : Nat) :
    runs (writeSectorStep g) s (List.replicate n refusedWrite) =
      some ⟨{ s.journal with sequence := s.journal.sequence + BitVec.ofNat 32 n }, s.block⟩ := by
  induction n generalizing s with
  | zero => simp
  | succ n ih =>
    rw [List.replicate_succ, runs_cons, writeSectorStep_eq hg hj hb hw, Option.bind_some]
    have hrest := ih (s := ⟨{ s.journal with sequence := s.journal.sequence + 1 }, s.block⟩) hj hb hw
    refine hrest.trans ?_
    simp only [BitVec.ofNat_add, BitVec.add_assoc, BitVec.add_comm (BitVec.ofNat 32 n)]
    rfl

theorem log_sector_changes (hg : g.mounted = true) (hb : b.present = true) (hw : b.writable = true)
    {i : Nat} (hi : i < 32) :
    ∃ calls s, runs (writeSectorStep g) ⟨bootJournal b, b⟩ calls = some s ∧
      8 + BitVec.ofNat 32 i ∉ calls.map (·.target) ∧
      s.block.disk (8 + BitVec.ofNat 32 i) ≠ b.disk (8 + BitVec.ofNat 32 i) := by
  -- the first data byte of the record differs from what the sector has in its place
  let content : Sector := fun _ => b.disk (8 + BitVec.ofNat 32 i) 20 + 1
  let last : JournalCall := ⟨0, content, zeroRecord, fun _ => true⟩
  have hj := bootJournal_ready hb
  have hslot : ∀ i < 32,
      (8 : Word) + (1 + BitVec.ofNat 32 (i + 31)) % 32 = 8 + BitVec.ofNat 32 i := by decide
  have hzero : ∀ i < 32, (8 : Word) + BitVec.ofNat 32 i ≠ 0 := by decide
  let j : Journal :=
    { bootJournal b with sequence := (bootJournal b).sequence + BitVec.ofNat 32 (i + 31) }
  have hlog : j.slot j.sequence = 8 + BitVec.ofNat 32 i := hslot i hi
  refine ⟨List.replicate (i + 31) refusedWrite ++ [last],
    ⟨{ j with sequence := j.sequence + 1 }, (last.result j b).2⟩, ?_, ?_, fun h => ?_⟩
  · rw [runs_append, refused_run hg hj hb hw, Option.bind_some, runs_cons,
      writeSectorStep_eq (s := ⟨j, b⟩) hg hj hb hw, Option.bind_some, runs_nil]
  · simp only [List.map_append, List.map_replicate, List.mem_append, List.mem_replicate,
      List.map_cons, List.map_nil, List.mem_singleton]
    rintro (⟨-, h⟩ | h)
    · exact hzero i hi h
    · exact hzero i hi h
  · have hrecord : (last.result j b).2.disk (8 + BitVec.ofNat 32 i) =
        { last.record j with committed := 0 }.sector := by
      rw [← hlog]
      exact store_disk_self ..
    have hbyte : { last.record j with committed := 0 }.sector 20 = content 0 := byte_data _ 0
    rw [← hrecord, h] at hbyte
    exact absurd hbyte (by simp [content])

end

/-- Writes disturb nothing of a volume but their targets exactly if no sector of the log belongs to
the volume, or the device takes no writes at all. -/
theorem undisturbed_iff {g₀ g : Fat32} {d d' : Dev} (hmount : fat32Mount g₀ d = (true, g, d')) :
    Undisturbed g d.block ↔ (d.block.writable = true → ∀ i < 32, ¬ g.Owns (8 + BitVec.ofNat 32 i)) := by
  have hb := fat32Mount_present hmount
  have hg := (fat32Mount_valid hmount).mounted
  constructor
  · intro h hw i hi hown
    obtain ⟨calls, s, hrun, ht, hchanged⟩ := log_sector_changes hg hb hw hi
    exact hchanged (h calls s hrun _ hown ht)
  · intro h calls s hrun l hown ht
    refine writes_other hg hb ⟨rfl, rfl, rfl⟩ hrun ht fun hw i hi hl => h hw i hi ?_
    rwa [← hl]

/-- A volume of two tables of 1009 sectors each, as `mkfs.fat` makes it on 64 MiB, behind some reserved
sectors; `mkfs.fat` reserves 32. -/
def volumeDev (reserved : Byte) : Dev where
  block :=
    { present := true
      writable := true
      disk := fun lba i =>
        if lba = 0 then
          match i.val with
          | 12 => 2
          | 13 => 1
          | 14 => reserved
          | 16 => 2
          | 36 => 0xf1
          | 37 => 3
          | 44 => 2
          | 510 => 0x55
          | 511 => 0xaa
          | _ => 0
        else if lba = reserved.setWidth 32 ∧ i = 0 then 0xf8
        else 0 }
  ok := fun _ => true
  reads := []

def volumeBehindLog : Fat32 := ⟨0, 40, 2058, 1, 512, 1009, 2, true⟩

theorem volumeBehindLog_owns (h : volumeBehindLog.Owns l) : 40 ≤ l.toNat := by
  rcases h with h | ⟨c, s, hc, hlt, hs, rfl⟩
  · exact h.1
  · have hs0 : s = 0 := by
      have : s.toNat < 1 := hs
      exact BitVec.eq_of_toNat_eq (by change s.toNat = 0; omega)
    have hc2 : 2 ≤ c.toNat := (Bool.and_eq_true_iff.mp hc).1 |> of_decide_eq_true
    have hlt' : c.toNat < 1009 * 128 := hlt
    have hsub : (c - 2).toNat = c.toNat - 2 := BitVec.toNat_sub_of_le hc2
    rw [hs0, clusterLba]
    change 40 ≤ (2058#32 + (c - 2) * 1#32 + 0#32).toNat
    rw [BitVec.mul_one, BitVec.add_zero, BitVec.toNat_add, hsub]
    change 40 ≤ (2058 + (c.toNat - 2)) % 4294967296
    omega

theorem undisturbed_iff_behind_log : ∃ d', fat32Mount ⟨0, 0, 0, 0, 0, 0, 0, false⟩ (volumeDev 40) =
    (true, volumeBehindLog, d') ∧ Undisturbed volumeBehindLog (volumeDev 40).block := by
  have hmount : fat32Mount ⟨0, 0, 0, 0, 0, 0, 0, false⟩ (volumeDev 40) =
      (true, volumeBehindLog, (fat32Mount ⟨0, 0, 0, 0, 0, 0, 0, false⟩ (volumeDev 40)).2.2) :=
    Prod.ext (by decide +kernel) (Prod.ext (by decide +kernel) rfl)
  refine ⟨_, hmount, (undisturbed_iff hmount).mpr fun _ i hi hown => ?_⟩
  have hlow : ∀ i < 32, ((8 : Word) + BitVec.ofNat 32 i).toNat < 40 := by decide
  have := volumeBehindLog_owns hown
  have := hlow i hi
  omega

/-- The volume that `mkfs.fat` makes has its first table in the last sectors of the log. -/
def volumeInLog : Fat32 := ⟨0, 32, 2050, 1, 512, 1009, 2, true⟩

/-- The 24th write, to a sector of the data area like all before it, overwrites the start of the first
table. -/
theorem log_overwrites_table :
    ∃ d', fat32Mount ⟨0, 0, 0, 0, 0, 0, 0, false⟩ (volumeDev 32) = (true, volumeInLog, d') ∧
    (runs (writeSectorStep volumeInLog) ⟨bootJournal (volumeDev 32).block, (volumeDev 32).block⟩
      (List.replicate 24 ⟨5000, fun _ => 0, zeroRecord, fun _ => true⟩)).map (·.block.disk 32 0) =
        some 0x4c ∧
    (volumeDev 32).block.disk 32 0 = 0xf8 ∧ ¬ Undisturbed volumeInLog (volumeDev 32).block := by
  have hmount : fat32Mount ⟨0, 0, 0, 0, 0, 0, 0, false⟩ (volumeDev 32) =
      (true, volumeInLog, (fat32Mount ⟨0, 0, 0, 0, 0, 0, 0, false⟩ (volumeDev 32)).2.2) :=
    Prod.ext (by decide +kernel) (Prod.ext (by decide +kernel) rfl)
  have hrun : (runs (writeSectorStep volumeInLog) ⟨bootJournal (volumeDev 32).block, (volumeDev 32).block⟩
      (List.replicate 24 ⟨5000, fun _ => 0, zeroRecord, fun _ => true⟩)).map (·.block.disk 32 0) =
        some 0x4c := by
    decide +kernel
  refine ⟨_, hmount, hrun, rfl, fun h => ?_⟩
  obtain ⟨s, hs, hbyte⟩ := Option.map_eq_some_iff.mp hrun
  rw [h _ s hs 32 (.inl (by unfold Fat32.InFat; decide)) (by simp)] at hbyte
  exact absurd hbyte (by decide)

end Ceblar
