import Ceblar.Fs.Enumeration

/-! # Calls that return

`fat32_read_file` ends on any chain. `scan_root` goes round a cycle for ever, unless an entry stops
it.
-/

namespace Ceblar

/-- The loop of `fat32_read_file` over the clusters; `none` if it is not over after `fuel` rounds. -/
def readRounds (g : Fat32) (length : Word) : Nat → Word → Copy → Option (Int × Copy)
  | 0, _, _ => none
  | fuel + 1, cluster, c =>
    if c.done < length ∧ validCluster cluster then
      match readSectors g cluster length g.sectorsPerCluster.toNat
          (c.position / g.bytesPerSector % g.sectorsPerCluster) c with
      | (false, c) => some (if c.done = 0 then -1 else c.done.toInt, c)
      | (true, c) =>
        let (cluster, dev) := nextCluster g cluster c.dev
        readRounds g length fuel cluster { c with dev }
    else some (c.done.toInt, c)

def fat32ReadRounds (fuel : Nat) (g : Fat32) (f : FatFile) (out : Nat → Byte) (length : Word) (d : Dev) :
    Option ReadResult :=
  if g.mounted = false ∨ f.directory ∨ f.size ≤ f.position then some ⟨0, out, f, d⟩
  else
    let length := if f.size - f.position < length then f.size - f.position else length
    let skip := f.position / (g.sectorsPerCluster * g.bytesPerSector)
    let (cluster, dev) := skipClusters g skip.toNat f.firstCluster d
    (readRounds g length fuel cluster { out, done := 0, position := f.position, dev }).map fun (rc, c) =>
      ⟨rc, c.out, { f with position := c.position }, c.dev⟩

structure Terminates (g : Fat32) (block : Block) : Prop where
  opens : ∀ path d, d.block = block → ∃ fuel r, fat32Open fuel g path d = some r
  lists : ∀ index cap d, d.block = block → ∃ fuel r, fat32Readdir fuel g index cap d = some r
  reads : ∀ f out length d, d.block = block → ∃ fuel r, fat32ReadRounds fuel g f out length d = some r

/-- Following the root directory comes to an entry that ends it, or to a link that is no cluster. -/
def RootEnds (g : Fat32) (disk : Word → Sector) : Prop :=
  ∃ m, validCluster (chain g disk g.rootCluster m) = false ∨ HasEnd g disk (chain g disk g.rootCluster m)

section

variable {g : Fat32} {disk : Word → Sector} {length cluster : Word} {c : Copy} {d : Dev} {q : Query}
variable {wanted : List Byte}

theorem take_done (hg : g.Valid) (hlt : c.done < length) (sector : Sector) :
    c.done < (c.take g length sector).done ∧ (c.take g length sector).done ≤ length := by
  have hwanted := wanted_toNat hg hlt
  have hmod := Nat.mod_lt c.position.toNat (show 0 < 512 by decide)
  have hlt' : c.done.toNat < length.toNat := hlt
  have hmax := length.isLt
  have hdone : (c.take g length sector).done.toNat = c.done.toNat + (c.wanted g length).toNat := by
    unfold Copy.take
    exact Nat.mod_eq_of_lt (by omega)
  rw [BitVec.lt_def, BitVec.le_def]
  omega

variable (cluster) in
theorem readSectors_done (hg : g.Valid) (hle : c.done ≤ length) (n : Nat) (s : Word) :
    c.done ≤ (readSectors g cluster length n s c).2.done ∧
    (readSectors g cluster length n s c).2.done ≤ length := by
  induction n generalizing s c with
  | zero => exact ⟨BitVec.le_refl _, hle⟩
  | succ n ih =>
    unfold readSectors
    split
    · rename_i hmore
      generalize c.dev.read (clusterLba g cluster + s) = res
      obtain ⟨_ | sector, dev⟩ := res
      · exact ⟨BitVec.le_refl _, hle⟩
      · have htake := take_done (c := { c with dev }) hg hmore.2 sector
        have hrest := ih (c := ({ c with dev } : Copy).take g length sector) htake.2 (s + 1)
        exact ⟨BitVec.le_trans (BitVec.le_of_lt htake.1) hrest.1, hrest.2⟩
    · exact ⟨BitVec.le_refl _, hle⟩

theorem readSectors_progress (hg : g.Valid) (hlt : c.done < length) {c' : Copy}
    (h : readSectors g cluster length g.sectorsPerCluster.toNat
      (c.position / g.bytesPerSector % g.sectorsPerCluster) c =
      (true, c')) : c.done < c'.done ∧ c'.done ≤ length := by
  obtain ⟨n, hn⟩ := Nat.exists_eq_succ_of_ne_zero hg.sectors_pos.ne'
  have hs : c.position / g.bytesPerSector % g.sectorsPerCluster < g.sectorsPerCluster := by
    rw [BitVec.lt_def, BitVec.toNat_umod]
    exact Nat.mod_lt _ hg.sectors_pos
  rw [hn, readSectors, if_pos ⟨hs, hlt⟩] at h
  generalize c.dev.read
    (clusterLba g cluster + c.position / g.bytesPerSector % g.sectorsPerCluster) = res at h
  obtain ⟨_ | sector, dev⟩ := res
  · cases h
  · have htake := take_done (c := { c with dev }) hg hlt sector
    have hrest := readSectors_done cluster hg htake.2 n
      (c.position / g.bytesPerSector % g.sectorsPerCluster + 1)
    dsimp only at h
    rw [h] at hrest
    exact ⟨Nat.lt_of_lt_of_le htake.1 hrest.1, hrest.2⟩

theorem readRounds_eq (hg : g.Valid) {n : Nat} (hle : c.done ≤ length)
    (hn : length.toNat ≤ c.done.toNat + n) :
    readRounds g length (n + 1) cluster c = some (readClusters g length n cluster c) := by
  induction n generalizing cluster c with
  | zero =>
    have hend : ¬c.done < length := by
      rw [BitVec.lt_def]
      omega
    rw [readRounds, if_neg fun h => hend h.1, readClusters]
  | succ n ih =>
    rw [readRounds, readClusters]
    split
    · rename_i hmore
      cases hsectors : readSectors g cluster length g.sectorsPerCluster.toNat
          (c.position / g.bytesPerSector % g.sectorsPerCluster) c with
      | mk b c' =>
        cases b with
        | false => rfl
        | true =>
          obtain ⟨hlt, hle'⟩ := readSectors_progress hg hmore.1 hsectors
          rw [BitVec.lt_def] at hlt
          exact ih (c := { c' with dev := (nextCluster g cluster c'.dev).2 }) hle' (by dsimp only; omega)
    · rfl

theorem fat32ReadRounds_eq (hg : g.Valid) (f : FatFile) (out : Nat → Byte) (length : Word) (d : Dev) :
    ∃ fuel, fat32ReadRounds fuel g f out length d = some (fat32ReadFile g f out length d) := by
  unfold fat32ReadRounds fat32ReadFile
  split
  · exact ⟨0, rfl⟩
  · dsimp only
    generalize (if f.size - f.position < length then f.size - f.position else length) = len
    refine ⟨len.toNat + 1, ?_⟩
    rw [readRounds_eq hg (Nat.zero_le _) (Nat.le_add_left _ _)]
    rfl

/-! ## Scanning the root directory -/

theorem scanClusters_stops (hg : g.Valid) {first index : Word} {n k : Nat} (hd : d.block.disk = disk)
    (hend : validCluster (chain g disk first (k + n)) = false ∨
      HasEnd g disk (chain g disk first (k + n))) :
    ∃ r, scanClusters g q (n + 1) (chain g disk first k) (index, d) = some r := by
  induction n generalizing k index d with
  | zero =>
    rw [scanClusters]
    split
    · rename_i hvalid
      have hhas := hend.resolve_left (by simp [hvalid])
      cases hscan : scanCluster g q (chain g disk first k) (index, d) with
      | error r => exact ⟨r, rfl⟩
      | ok st => exact absurd hhas (scanCluster_ok hg hd hscan).2.2
    · exact ⟨_, rfl⟩
  | succ n ih =>
    rw [scanClusters]
    split
    · cases hscan : scanCluster g q (chain g disk first k) (index, d) with
      | error r => exact ⟨r, rfl⟩
      | ok st =>
        obtain ⟨index', d1⟩ := st
        dsimp only
        have hlater := (scanCluster_ok hg hd hscan).1
        obtain ⟨hlater1, hnext⟩ :=
          nextCluster_spec (d := d1) hg (by rw [hlater.block, hd]) (chain g disk first k)
        generalize nextCluster g (chain g disk first k) d1 = r at hlater1 hnext
        obtain ⟨next, d2⟩ := r
        dsimp only at hlater1 hnext ⊢
        split
        · exact ⟨_, rfl⟩
        · rcases hnext with rfl | ⟨hbad, -⟩
          · exact ih (k := k + 1) (by rw [hlater1.block, hlater.block, hd])
              (by rwa [show k + 1 + n = k + (n + 1) by omega])
          · rw [scanClusters, if_neg (by simp [hbad])]
            exact ⟨_, rfl⟩
    · exact ⟨_, rfl⟩

theorem scanList_deleted (hw : wanted[0]? = some 0xe5) {es : List DirEntry}
    (hes : ∀ e ∈ es, e 0 ≠ 0) (index : Word) :
    ∃ index', scanList (.lookup wanted) es index = .ok index' := by
  induction es generalizing index with
  | nil => exact ⟨index, rfl⟩
  | cons e es ih =>
    obtain ⟨i, hi⟩ : ∃ i, scanEntry (.lookup wanted) index e = .ok i := by
      unfold scanEntry
      rw [if_neg (hes e (by simp))]
      split
      · exact ⟨_, rfl⟩
      · rename_i hskip
        split
        · exact ⟨_, rfl⟩
        · dsimp only
          rw [if_neg]
          · exact ⟨_, rfl⟩
          · intro hall
            have hfirst := hall 0
            rw [Fin.val_zero, hw] at hfirst
            have hdeleted : e 0 = 0xe5 := Option.some.inj hfirst
            simp [DirEntry.skipped, hdeleted] at hskip
    obtain ⟨index', hrest⟩ := ih (fun x hx => hes x (by simp [hx])) i
    refine ⟨index', ?_⟩
    change scanEntry (.lookup wanted) index e >>= scanList (.lookup wanted) es = _
    rw [hi]
    exact hrest

theorem scanCluster_deleted (hg : g.Valid) (hw : wanted[0]? = some 0xe5) (hd : d.Answers) {c : Word}
    (hnone : ¬HasEnd g d.block.disk c) (index : Word) : ∃ index' d1 d2,
      scanCluster g (.lookup wanted) c (index, d) = .ok (index', d1) ∧
        nextCluster g c d1 = (fatEntry g d.block.disk c, d2) ∧ Later d d2 := by
  obtain ⟨d1, hlater, hscan⟩ := scanCluster_eq hg hd (.lookup wanted) c index
  obtain ⟨index', hlist⟩ := scanList_deleted hw (fun e he hz => hnone ⟨e, he, hz⟩) index
  obtain ⟨d2, hlater2, hnext⟩ := nextCluster_answered hg (hlater.answers hd) c
  rw [hlater.block] at hnext
  exact ⟨index', d1, d2, by rw [hscan, hlist]; rfl, hnext, hlater.trans hlater2⟩

theorem not_eoc (h : validCluster cluster = true) : ¬(0x0ffffff8 : Word) ≤ cluster := by
  intro heoc
  rw [not_valid_of_eoc heoc] at h
  cases h

theorem scanClusters_endless (hg : g.Valid) {first : Word} (hw : wanted[0]? = some 0xe5)
    (hd : d.Answers) (hvalid : ∀ m, validCluster (chain g d.block.disk first m) = true)
    (hnone : ∀ m, ¬HasEnd g d.block.disk (chain g d.block.disk first m)) (fuel k : Nat) (index : Word) :
    scanClusters g (.lookup wanted) fuel (chain g d.block.disk first k) (index, d) = none := by
  induction fuel generalizing k index d with
  | zero => rfl
  | succ fuel ih =>
    obtain ⟨index', d1, d2, hscan, hnext, hlater⟩ := scanCluster_deleted hg hw hd (hnone k) index
    have hrest := ih (hlater.answers hd) (by rwa [hlater.block]) (by rwa [hlater.block]) (k + 1) index'
    rw [hlater.block] at hrest
    rw [scanClusters, if_pos (hvalid k), hscan]
    dsimp only
    rw [hnext]
    dsimp only
    rw [if_neg (show ¬_ ≤ fatEntry g d.block.disk (chain g d.block.disk first k) from not_eoc
      (hvalid (k + 1)))]
    exact hrest

theorem open_endless (hg : g.Valid) (hd : d.Answers) (hends : ¬RootEnds g d.block.disk) (fuel : Nat) :
    fat32Open fuel g [0xe5] d = none := by
  unfold RootEnds at hends
  push Not at hends
  unfold fat32Open
  dsimp only
  rw [if_neg (by simp [hg.mounted])]
  exact scanClusters_endless hg (by decide) hd
    (fun m => by simpa using (hends m).1) (fun m => (hends m).2) fuel 0 0

end

/-- Every call on a mounted volume returns exactly if its root directory ends. -/
theorem fat32_terminates_iff {g₀ g : Fat32} {d₀ d₁ : Dev} (hmount : fat32Mount g₀ d₀ = (true, g, d₁)) :
    Terminates g d₀.block ↔ RootEnds g d₀.block.disk := by
  have hg := fat32Mount_valid hmount
  have hpresent : d₀.block.present = true := fat32Mount_present hmount
  constructor
  · intro h
    by_contra hends
    obtain ⟨fuel, r, hopen⟩ := h.opens [0xe5] ⟨d₀.block, fun _ => true, []⟩ rfl
    have hnone := open_endless (d := ⟨d₀.block, fun _ => true, []⟩) hg
        (fun _ => by simp [Dev.answers, hpresent]) hends fuel
    rw [hnone] at hopen
    cases hopen
  · rintro ⟨m, hend⟩
    have hscan : ∀ q d, d.block = d₀.block → ∃ fuel r, scanRoot fuel g q d = some r := fun q d hd =>
      ⟨m + 1, scanClusters_stops (k := 0) hg (by rw [hd]) (by rwa [Nat.zero_add])⟩
    refine ⟨fun path d hd => ?_, fun index cap d hd => ?_, fun f out length d _ => ?_⟩
    · unfold fat32Open
      dsimp only
      split
      · exact ⟨0, _, rfl⟩
      · exact hscan _ d hd
    · unfold fat32Readdir
      split
      · exact ⟨0, _, rfl⟩
      · exact hscan _ d hd
    · obtain ⟨fuel, hread⟩ := fat32ReadRounds_eq hg f out length d
      exact ⟨fuel, _, hread⟩

theorem fat32_terminates_letters : Terminates twoClusterVolume letterDev.block := by
  obtain ⟨d₁, hmount⟩ := letterDev_mounts
  exact (fat32_terminates_iff hmount).mpr ⟨1, .inl letterDisk_ends.last⟩

def loopDisk : Word → Sector := fun lba i =>
  if lba = 1 then if i = 8 then 2 else 0 else twoClusterDisk lba i

def loopDev : Dev := ⟨⟨true, true, loopDisk⟩, fun _ => true, []⟩

theorem loopDisk_chain (m : Nat) : chain twoClusterVolume loopDisk 2 m = 2 := by
  induction m with
  | zero => rfl
  | succ m ih =>
    rw [chain, ih]
    decide +kernel

/-- The volume is mounted, but a file that is not there is looked for without end. -/
theorem open_hangs :
    (∃ d₁, fat32Mount ⟨0, 0, 0, 0, 0, 0, 0, false⟩ loopDev = (true, twoClusterVolume, d₁)) ∧
    ∀ fuel, fat32Open fuel twoClusterVolume [0xe5] loopDev = none := by
  have hg : twoClusterVolume.Valid := ⟨rfl, rfl, by decide, by decide⟩
  refine ⟨⟨_, Prod.ext (by decide +kernel) (Prod.ext (by decide +kernel) rfl)⟩, fun fuel => ?_⟩
  refine open_endless hg (fun _ => rfl) ?_ fuel
  rintro ⟨m, hend⟩
  have hchain : chain twoClusterVolume loopDev.block.disk twoClusterVolume.rootCluster m = 2 :=
    loopDisk_chain m
  rw [hchain] at hend
  revert hend
  change ¬(validCluster 2 = false ∨ HasEnd twoClusterVolume loopDisk 2)
  decide +kernel

end Ceblar
