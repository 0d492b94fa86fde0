import Ceblar.Lib.Run
import Ceblar.Fs.ReadFile

/-! # Mounting again

`fat32_mount` stores what it reads from the boot sector before it checks it, and a call that fails
does not take the volume that is mounted back.
-/

namespace Ceblar

def bootSector (d : Dev) : Option Sector :=
  if !d.block.present then none
  else
    match d.read 0 with
    | (none, _) => none
    | (some s, d) => (d.read (partitionStart s)).1

def Accepted (b : Sector) : Prop :=
  le16At b 11 = 512 ∧ (byteAt b 13).setWidth 32 ≠ (0 : Word) ∧ (byteAt b 16).setWidth 32 ≠ (0 : Word) ∧
    le32At b 36 ≠ 0 ∧ validCluster (le32At b 44) = true

structure Stores (b : Sector) (g : Fat32) : Prop where
  bytes : le16At b 11 = g.bytesPerSector
  sectors : (byteAt b 13).setWidth 32 = g.sectorsPerCluster
  fatSize : le32At b 36 = g.fatSize
  root : le32At b 44 = g.rootCluster

structure SameVolume (g v : Fat32) : Prop where
  bytes : g.bytesPerSector = v.bytesPerSector
  sectors : g.sectorsPerCluster = v.sectorsPerCluster
  fatSize : g.fatSize = v.fatSize
  root : g.rootCluster = v.rootCluster
  fatLba : g.fatLba = v.fatLba
  dataLba : g.dataLba = v.dataLba

structure Geometry (v : Fat32) : Prop where
  valid : v.Valid
  fatSize : v.fatSize ≠ 0
  root : validCluster v.rootCluster = true
  placed : ∃ reserved fats : Word, fats ≠ 0 ∧ v.fatLba = v.partitionLba + reserved ∧
    v.dataLba = v.fatLba + fats * v.fatSize

structure MountState where
  g : Fat32
  last : Option Fat32

def mountStep (s : MountState) (d : Dev) : Option MountState :=
  match fat32Mount s.g d with
  | (true, g, _) => some ⟨g, some g⟩
  | (false, g, _) => some ⟨g, s.last⟩

/-- If `mounted` is set, the volume is that of the last successful mount, and nothing that the other
functions divide by is 0. -/
def MountedValid (s : MountState) : Prop :=
  s.g.mounted = true → (∃ v, s.last = some v ∧ Geometry v ∧ SameVolume s.g v) ∧
    s.g.bytesPerSector ≠ 0 ∧ s.g.sectorsPerCluster ≠ 0 ∧ s.g.sectorsPerCluster * s.g.bytesPerSector ≠ 0

/-- A volume that is mounted stays as it is: the call sees no boot sector, accepts the one it sees,
or stores what is there. -/
def KeepsVolume (s : MountState) (d : Dev) : Prop :=
  s.g.mounted = true → ∀ b, bootSector d = some b → Accepted b ∨ Stores b s.g

section

variable {g v : Fat32} {d : Dev} {s s' : MountState}

theorem fat32Mount_cases (g : Fat32) (d : Dev) : ∃ lba d',
    (bootSector d = none ∧ fat32Mount g d = (false, { g with partitionLba := lba }, d')) ∨
      ∃ b, bootSector d = some b ∧
        ((¬Accepted b ∧ fat32Mount g d = (false, { g with
          partitionLba := lba
          bytesPerSector := le16At b 11
          sectorsPerCluster := (byteAt b 13).setWidth 32
          fatSize := le32At b 36
          rootCluster := le32At b 44 }, d')) ∨
        Accepted b ∧ fat32Mount g d = (true, { g with
          partitionLba := lba
          bytesPerSector := le16At b 11
          sectorsPerCluster := (byteAt b 13).setWidth 32
          fatSize := le32At b 36
          rootCluster := le32At b 44
          fatLba := lba + le16At b 14
          dataLba := lba + le16At b 14 + (byteAt b 16).setWidth 32 * le32At b 36
          mounted := true }, d')) := by
  unfold fat32Mount bootSector
  by_cases hpresent : d.block.present = true
  · simp only [hpresent, Bool.not_true, Bool.false_eq_true, if_false]
    generalize d.read 0 = r
    obtain ⟨first, d1⟩ := r
    cases first with
    | none => exact ⟨g.partitionLba, d1, .inl ⟨rfl, rfl⟩⟩
    | some s =>
      dsimp only
      generalize d1.read (partitionStart s) = r
      obtain ⟨second, d2⟩ := r
      cases second with
      | none => exact ⟨partitionStart s, d2, .inl ⟨rfl, rfl⟩⟩
      | some b =>
        refine ⟨partitionStart s, d2, .inr ⟨b, rfl, ?_⟩⟩
        by_cases hok : Accepted b
        · right
          refine ⟨hok, if_neg ?_⟩
          obtain ⟨h1, h2, h3, h4, h5⟩ := hok
          rintro (h | h | h | h | h)
          · exact h h1
          · exact h2 h
          · exact h3 h
          · exact h4 h
          · rw [h5] at h
            cases h
        · left
          refine ⟨hok, if_pos ?_⟩
          by_contra hnone
          simp only [not_or, not_not, Bool.not_eq_false] at hnone
          exact hok hnone
  · have habsent : d.block.present = false := Bool.eq_false_iff.mpr hpresent
    refine ⟨g.partitionLba, d, .inl ⟨?_, ?_⟩⟩
    · simp [habsent]
    · simp [habsent]

theorem SameVolume.refl (g : Fat32) : SameVolume g g := ⟨rfl, rfl, rfl, rfl, rfl, rfl⟩

theorem Geometry.divides (hv : Geometry v) (hg : SameVolume g v) :
    g.bytesPerSector ≠ 0 ∧ g.sectorsPerCluster ≠ 0 ∧
    g.sectorsPerCluster * g.bytesPerSector ≠ 0 := by
  have hpos := hv.valid.sectors_pos
  have hlt := hv.valid.sectors_lt
  rw [hg.bytes, hg.sectors, hv.valid.bytes]
  refine ⟨by decide, ?_, ?_⟩
  · intro h0
    rw [h0] at hpos
    exact absurd hpos (by decide)
  · intro h0
    have hnat := congrArg BitVec.toNat h0
    rw [BitVec.toNat_mul] at hnat
    change v.sectorsPerCluster.toNat * 512 % 2 ^ 32 = 0 at hnat
    omega

theorem mountedValid_of_same (hlast : s.last = some v) (hv : Geometry v) (hg : SameVolume s.g v) :
    MountedValid s :=
  fun _ => ⟨⟨v, hlast, hv, hg⟩, hv.divides hg⟩

theorem mountStep_valid (hs : MountedValid s) (hstep : mountStep s d = some s') :
    MountedValid s' ↔ KeepsVolume s d := by
  obtain ⟨lba, d', ⟨hboot, hmount⟩ | ⟨b, hboot, ⟨hok, hmount⟩ | ⟨hok, hmount⟩⟩⟩ := fat32Mount_cases s.g d
  · -- only `partition_lba` may have changed
    unfold mountStep at hstep
    rw [hmount] at hstep
    cases hstep
    refine iff_of_true (fun hmounted => ?_) fun _ b hb => ?_
    · obtain ⟨⟨v, hlast, hv, hg⟩, -⟩ := hs hmounted
      exact mountedValid_of_same (s := ⟨_, s.last⟩) hlast hv ⟨hg.1, hg.2, hg.3, hg.4, hg.5, hg.6⟩ hmounted
    · rw [hboot] at hb
      cases hb
  · unfold mountStep at hstep
    rw [hmount] at hstep
    cases hstep
    constructor
    · intro hvalid hmounted b' hb'
      rw [hboot] at hb'
      cases hb'
      obtain ⟨⟨v, hlast, -, hg⟩, -⟩ := hs hmounted
      obtain ⟨⟨v', hlast', -, hg'⟩, -⟩ := hvalid hmounted
      obtain rfl : v = v' := Option.some.inj (hlast.symm.trans hlast')
      exact .inr
        ⟨hg'.1.trans hg.1.symm, hg'.2.trans hg.2.symm, hg'.3.trans hg.3.symm, hg'.4.trans hg.4.symm⟩
    · intro hkeeps hmounted
      have hst := (hkeeps hmounted b hboot).resolve_left hok
      obtain ⟨⟨v, hlast, hv, hg⟩, -⟩ := hs hmounted
      exact mountedValid_of_same (s := ⟨_, s.last⟩) hlast hv
        ⟨hst.1.trans hg.1, hst.2.trans hg.2, hst.3.trans hg.3, hst.4.trans hg.4, hg.5, hg.6⟩ hmounted
  · have hgeo := fat32Mount_valid hmount
    unfold mountStep at hstep
    rw [hmount] at hstep
    cases hstep
    refine iff_of_true ?_ fun _ b' hb' => ?_
    · refine mountedValid_of_same (s := ⟨_, some _⟩) rfl ⟨hgeo, hok.2.2.2.1, hok.2.2.2.2, ?_⟩
        (SameVolume.refl _)
      exact ⟨le16At b 14, (byteAt b 16).setWidth 32, hok.2.2.1, rfl, rfl⟩
    · rw [hboot] at hb'
      cases hb'
      exact .inl hok

end

/-- From a start without a volume: after every call the geometry is that of the last mount exactly
if every call keeps the volume that is mounted. -/
theorem mounted_valid_iff {g : Fat32} (hg : g.mounted = false) (ds : List Dev) :
    Along (fun s d => ∀ s', mountStep s d = some s' → MountedValid s') mountStep ⟨g, none⟩ ds ↔
      Along KeepsVolume mountStep ⟨g, none⟩ ds := by
  have hstart : MountedValid ⟨g, none⟩ := by
    intro hmounted
    rw [hg] at hmounted
    cases hmounted
  refine along_congr MountedValid (fun s d hs => ?_) (fun s d s' _ hC hstep => hC s' hstep) hstart ds
  obtain ⟨s', hstep⟩ : ∃ s', mountStep s d = some s' := by
    unfold mountStep
    split
    · exact ⟨_, rfl⟩
    · exact ⟨_, rfl⟩
  constructor
  · intro h
    exact (mountStep_valid hs hstep).mp (h s' hstep)
  · intro h s'' hs''
    exact (mountStep_valid hs hs'').mpr h

def unmounted : MountState := ⟨⟨0, 0, 0, 0, 0, 0, 0, false⟩, none⟩

def blankDev (answers : Bool) : Dev := ⟨⟨true, true, fun _ _ => 0⟩, fun _ => answers, []⟩

theorem mounted_valid_deaf :
    Along (fun s d => ∀ s', mountStep s d = some s' → MountedValid s') mountStep unmounted
      [twoClusterDev, blankDev false] := by
  apply (mounted_valid_iff rfl _).mpr
  refine ⟨fun hmounted => absurd hmounted (by decide), fun s _ => ⟨fun _ b hb => ?_, fun _ _ => trivial⟩⟩
  have hnone : (bootSector (blankDev false)).isSome = false := by decide +kernel
  rw [hb] at hnone
  cases hnone

/-- Instead of that the disk of zeros: the call fails, and the volume is mounted with sectors of 0
bytes. -/
theorem remount_corrupts : ∃ s, runs mountStep unmounted [twoClusterDev, blankDev true] = some s ∧
    s.g.mounted = true ∧ s.g.bytesPerSector = 0 ∧ ¬ MountedValid s := by
  have hrun : (runs mountStep unmounted [twoClusterDev, blankDev true]).map
      (fun s => (s.g.mounted, s.g.bytesPerSector)) = some (true, 0) := by decide +kernel
  obtain ⟨s, hs, heq⟩ := Option.map_eq_some_iff.mp hrun
  obtain ⟨hmounted, hzero⟩ := Prod.mk.inj heq
  exact ⟨s, hs, hmounted, hzero, fun hvalid => (hvalid hmounted).2.1 hzero⟩

end Ceblar
