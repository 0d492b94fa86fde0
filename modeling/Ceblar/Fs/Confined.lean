import Ceblar.Fs.Accesses
import Ceblar.Fs.Lookup

/-! # Where cluster numbers lead

`valid_cluster` knows the largest number that a FAT32 volume can have, not how many entries the table
of this volume has, and cluster numbers come from the disk.
-/

namespace Ceblar

/-- The handles that a program can have: `fat32_open` makes them and `fat32_read_file` moves them on. -/
inductive Handle (g : Fat32) (block : Block) : FatFile → Prop where
  | opened {fuel : Nat} {path : List Byte} {d d' : Dev} {f : FatFile} (hd : d.block = block)
      (h : fat32Open fuel g path d = some (.found f, d')) : Handle g block f
  | read {f : FatFile} (h : Handle g block f) (out : Nat → Byte) (length : Word) (d : Dev)
    (hd : d.block = block) :
      Handle g block (fat32ReadFile g f out length d).file

def FatCall.Made (g : Fat32) (block : Block) : FatCall → Prop
  | .read f _ _ => Handle g block f
  | _ => True

def Access.Confined (g : Fat32) : Access → Prop
  | .table c =>
    g.fatLba.toNat ≤ (g.fatLba + c * 4 / g.bytesPerSector).toNat ∧
      (g.fatLba + c * 4 / g.bytesPerSector).toNat < g.fatLba.toNat + g.fatSize.toNat
  | .data c =>
    (clusterLba g c).toNat = g.dataLba.toNat + (c.toNat - 2) * g.sectorsPerCluster.toNat ∧
      g.dataLba ≤ clusterLba g c

instance (g : Fat32) (a : Access) : Decidable (a.Confined g) := by
  cases a <;> exact inferInstanceAs (Decidable (_ ∧ _))

/-! ## Conditions on a cluster number -/

def Fat32.InTable (g : Fat32) (c : Word) : Prop :=
  c.toNat / 128 < g.fatSize.toNat ∧ g.fatLba.toNat + c.toNat / 128 < 2 ^ 32

def Fat32.HasData (g : Fat32) (c : Word) : Prop :=
  g.dataLba.toNat + (c.toNat - 2) * g.sectorsPerCluster.toNat < 2 ^ 32

def RootTame (g : Fat32) (disk : Word → Sector) : Prop :=
  ∀ m, (∀ i ≤ m, validCluster (chain g disk g.rootCluster i) = true) →
    (∀ i < m, ¬HasEnd g disk (chain g disk g.rootCluster i)) →
    g.HasData (chain g disk g.rootCluster m) ∧
      (¬HasEnd g disk (chain g disk g.rootCluster m) → g.InTable (chain g disk g.rootCluster m))

def FileTame (g : Fat32) (disk : Word → Sector) (f : FatFile) : Prop :=
  ∀ m, m * g.clusterSize < f.size.toNat → (∀ i ≤ m, validCluster (chain g disk f.firstCluster i) = true) →
    g.InTable (chain g disk f.firstCluster m) ∧ g.HasData (chain g disk f.firstCluster m)

section

variable {g : Fat32} {disk : Word → Sector} {c : Word} {d : Dev} {q : Query}
variable {fuel k n : Nat} {a : Access}

theorem valid_bounds (h : validCluster c = true) : 2 ≤ c.toNat ∧ c.toNat ≤ 0x0ffffff6 := by
  unfold validCluster at h
  simp only [Bool.and_eq_true, decide_eq_true_eq, BitVec.le_def] at h
  exact h

theorem confined_table_iff (hg : g.Valid) (hc : validCluster c = true) :
    (Access.table c).Confined g ↔ g.InTable c := by
  obtain ⟨-, hmax⟩ := valid_bounds hc
  have hlba : (g.fatLba + c * 4 / 512).toNat = (g.fatLba.toNat + c.toNat / 128) % 2 ^ 32 := by
    rw [BitVec.toNat_add, BitVec.toNat_udiv, BitVec.toNat_mul]
    change (_ + c.toNat * 4 % 2 ^ 32 / 512) % _ = _
    rw [Nat.mod_eq_of_lt (by omega : c.toNat * 4 < 2 ^ 32)]
    omega
  unfold Access.Confined Fat32.InTable
  dsimp only
  rw [hg.bytes]
  change g.fatLba.toNat ≤ (g.fatLba + c * 4 / 512).toNat ∧ (g.fatLba + c * 4 / 512).toNat < _ ↔ _
  rw [hlba]
  have := g.fatLba.isLt
  omega

theorem confined_data_iff (hc : validCluster c = true) : (Access.data c).Confined g ↔ g.HasData c := by
  obtain ⟨hmin, -⟩ := valid_bounds hc
  have hsub : (c - 2).toNat = c.toNat - 2 := BitVec.toNat_sub_of_le (by rw [BitVec.le_def]; exact hmin)
  have hlba : (clusterLba g c).toNat =
      (g.dataLba.toNat + (c.toNat - 2) * g.sectorsPerCluster.toNat) % 2 ^ 32 := by
    unfold clusterLba
    rw [BitVec.toNat_add, BitVec.toNat_mul, hsub, Nat.add_mod_mod]
  unfold Access.Confined Fat32.HasData
  dsimp only
  rw [BitVec.le_def, hlba]
  generalize (c.toNat - 2) * g.sectorsPerCluster.toNat = x
  omega

theorem scanAccesses_invalid (hc : validCluster c = false) (fuel : Nat) (st : Word × Dev) :
    scanAccesses g q fuel c st = [] := by
  cases fuel with
  | zero => rfl
  | succ fuel => rw [scanAccesses, if_neg (by simp [hc])]

theorem scanAccesses_spec (hg : g.Valid) {index : Word} {first : Word}
    (hd : d.block.disk = disk) (hbefore : ∀ i < k, validCluster (chain g disk first i) = true ∧
      ¬HasEnd g disk (chain g disk first i))
    (ha : a ∈ scanAccesses g q fuel (chain g disk first k) (index, d)) :
    ∃ m, (∀ i ≤ m, validCluster (chain g disk first i) = true) ∧
      (∀ i < m, ¬HasEnd g disk (chain g disk first i)) ∧
      (a = .data (chain g disk first m) ∨
        a = .table (chain g disk first m) ∧ ¬HasEnd g disk (chain g disk first m)) := by
  induction fuel generalizing k index d with
  | zero => cases ha
  | succ fuel ih =>
    rw [scanAccesses] at ha
    split at ha
    · rename_i hvalid
      have hall : ∀ i ≤ k, validCluster (chain g disk first i) = true := by
        intro i hi
        rcases Nat.lt_or_eq_of_le hi with hlt | rfl
        · exact (hbefore i hlt).1
        · exact hvalid
      rcases List.mem_cons.mp ha with rfl | ha
      · exact ⟨k, hall, fun i hi => (hbefore i hi).2, .inl rfl⟩
      · split at ha
        · cases ha
        · rename_i index' d1 hscan
          obtain ⟨hlater, -, hnone⟩ := scanCluster_ok hg hd hscan
          obtain ⟨hlater1, hnext⟩ := nextCluster_spec (d := d1) hg (by rw [hlater.block, hd])
            (chain g disk first k)
          generalize nextCluster g (chain g disk first k) d1 = r at hlater1 hnext ha
          obtain ⟨next, d2⟩ := r
          dsimp only at hlater1 hnext ha
          rcases List.mem_cons.mp ha with rfl | ha
          · exact ⟨k, hall, fun i hi => (hbefore i hi).2, .inr ⟨rfl, hnone⟩⟩
          · split at ha
            · cases ha
            · rcases hnext with rfl | ⟨hbad, -⟩
              · refine ih (k := k + 1) (by rw [hlater1.block, hlater.block, hd]) (fun i hi => ?_) ha
                rcases Nat.lt_succ_iff_lt_or_eq.mp hi with hlt | rfl
                · exact hbefore i hlt
                · exact ⟨hvalid, hnone⟩
              · rw [scanAccesses_invalid hbad] at ha
                cases ha
    · cases ha

theorem scanAccesses_reaches (hg : g.Valid) {wanted : List Byte} (hw : wanted[0]? = some 0xe5)
    (hd : d.Answers)
    (hvalid : ∀ i ≤ k + n, validCluster (chain g d.block.disk g.rootCluster i) = true)
    (hnone : ∀ i < k + n, ¬HasEnd g d.block.disk (chain g d.block.disk g.rootCluster i))
    (index : Word) :
    .data (chain g d.block.disk g.rootCluster (k + n)) ∈
        scanAccesses g (.lookup wanted) (n + 1) (chain g d.block.disk g.rootCluster k) (index, d) ∧
      (¬HasEnd g d.block.disk (chain g d.block.disk g.rootCluster (k + n)) →
        .table (chain g d.block.disk g.rootCluster (k + n)) ∈
          scanAccesses g (.lookup wanted) (n + 1) (chain g d.block.disk g.rootCluster k) (index, d)) := by
  induction n generalizing k index d with
  | zero =>
    simp only [Nat.add_zero] at hvalid ⊢
    rw [scanAccesses, if_pos (hvalid k (Nat.le_refl k))]
    refine ⟨by simp, fun hno => ?_⟩
    obtain ⟨index', d1, d2, hscan, -⟩ := scanCluster_deleted hg hw hd hno index
    rw [hscan]
    simp
  | succ n ih =>
    obtain ⟨index', d1, d2, hscan, hnext, hlater⟩ :=
      scanCluster_deleted hg hw hd (hnone k (by omega)) index
    have hk : k + 1 + n = k + (n + 1) := by omega
    obtain ⟨hdata, htable⟩ := ih (d := d2) (k := k + 1) (hlater.answers hd) (by rwa [hlater.block, hk])
      (by rwa [hlater.block, hk]) index'
    rw [hlater.block, hk] at hdata htable
    rw [scanAccesses, if_pos (hvalid k (by omega)), hscan]
    dsimp only
    rw [hnext]
    dsimp only
    rw [if_neg (show ¬_ ≤ fatEntry g d.block.disk (chain g d.block.disk g.rootCluster k) from
      not_eoc (hvalid (k + 1) (by omega)))]
    exact ⟨List.mem_cons_of_mem _ (List.mem_cons_of_mem _ hdata),
      fun hno => List.mem_cons_of_mem _ (List.mem_cons_of_mem _ (htable hno))⟩

/-! ## Reading a file -/

variable {first length : Word} {start : Nat} {out : Nat → Byte} {copy : Copy}

theorem skipAccesses_spec (hg : g.Valid) (hd : d.block.disk = disk)
    (ha : a ∈ skipAccesses g n (chain g disk first k) d) :
    ∃ i, k ≤ i ∧ i < k + n ∧ (∀ j, k ≤ j → j ≤ i → validCluster (chain g disk first j) = true) ∧
      a = .table (chain g disk first i) := by
  induction n generalizing k d with
  | zero => cases ha
  | succ n ih =>
    rw [skipAccesses] at ha
    split at ha
    · rename_i hvalid
      obtain ⟨hlater, hnext⟩ := nextCluster_spec hg hd (chain g disk first k)
      generalize nextCluster g (chain g disk first k) d = r at hlater hnext ha
      obtain ⟨next, d1⟩ := r
      dsimp only at hlater hnext ha
      rcases List.mem_cons.mp ha with rfl | ha
      · refine ⟨k, le_rfl, by omega, fun j h1 h2 => ?_, rfl⟩
        rwa [Nat.le_antisymm h2 h1]
      · rcases hnext with rfl | ⟨hbad, -⟩
        · obtain ⟨i, hki, hin, hall, he⟩ := ih (k := k + 1) (by rw [hlater.block, hd]) ha
          refine ⟨i, by omega, by omega, fun j h1 h2 => ?_, he⟩
          rcases Nat.eq_or_lt_of_le h1 with rfl | hlt
          · exact hvalid
          · exact hall j hlt h2
        · cases n with
          | zero => cases ha
          | succ n =>
            rw [skipAccesses, if_neg (by simp [hbad])] at ha
            cases ha
    · cases ha

theorem readAccesses_invalid (hc : validCluster c = false) (fuel : Nat) :
    readAccesses g length fuel c copy = [] := by
  cases fuel with
  | zero => rfl
  | succ fuel => rw [readAccesses, if_neg (by simp [hc])]

def ReadingAt (g : Fat32) (length : Word) (k : Nat) (c : Copy) : Prop :=
  c.done = length ∨ k * g.clusterSize ≤ c.position.toNat ∧ c.position.toNat < (k + 1) * g.clusterSize

theorem sectors_read (hg : g.Valid) (hfit : start + length.toNat < 2 ^ 32)
    (h : CopiedFrom g disk first start out length copy) (hd : copy.dev.block.disk = disk)
    (hlo : k * g.clusterSize ≤ copy.position.toNat)
    (hhi : copy.position.toNat < (k + 1) * g.clusterSize) :
    SectorsRead g disk first start out length k copy (readSectors g (chain g disk first k) length
      g.sectorsPerCluster.toNat (copy.position / g.bytesPerSector % g.sectorsPerCluster) copy) := by
  rw [first_sector hg]
  exact readSectors_spec hg hfit (by omega) h hd (.inr (inSector_of_cluster hlo hhi))

theorem ReadingAt.next (hg : g.Valid) {c : Copy} (dev : Dev)
    (h : c.done = length ∨ c.position.toNat = (k + 1) * g.clusterSize) :
    ReadingAt g length (k + 1) { c with dev } := by
  refine h.imp id fun hp => ⟨hp.ge, ?_⟩
  have := hg.sectors_pos
  dsimp only
  rw [hp, Nat.add_mul (k + 1) 1, Fat32.clusterSize]
  omega

theorem readAccesses_spec (hg : g.Valid) (hfit : start + length.toNat < 2 ^ 32)
    (h : CopiedFrom g disk first start out length copy) (hd : copy.dev.block.disk = disk)
    (hat : ReadingAt g length k copy) (ha : a ∈ readAccesses g length fuel (chain g disk first k) copy) :
    ∃ i, k ≤ i ∧ i * g.clusterSize < start + length.toNat ∧
      (∀ j, k ≤ j → j ≤ i → validCluster (chain g disk first j) = true) ∧
      (a = .data (chain g disk first i) ∨ a = .table (chain g disk first i)) := by
  induction fuel generalizing k copy with
  | zero => cases ha
  | succ fuel ih =>
    rw [readAccesses] at ha
    split at ha
    · rename_i hmore
      obtain ⟨hlt, hvalid⟩ := hmore
      have hlt' : copy.done.toNat < length.toNat := hlt
      obtain ⟨hlo, hhi⟩ := hat.resolve_left fun he => BitVec.lt_irrefl _ (he ▸ hlt)
      have hpos := h.position
      have hself : ∀ j, k ≤ j → j ≤ k → validCluster (chain g disk first j) = true := fun j h1 h2 => by
        rwa [Nat.le_antisymm h2 h1]
      have hsectors := sectors_read hg hfit h hd hlo hhi
      rcases List.mem_cons.mp ha with rfl | ha
      · exact ⟨k, le_rfl, by omega, hself, .inl rfl⟩
      · split at ha
        · cases ha
        · rename_i c' hread
          rw [hread] at hsectors
          have hd' : c'.dev.block.disk = disk := by rw [hsectors.later.block, hd]
          obtain ⟨hlater, hnext⟩ := nextCluster_spec hg hd' (chain g disk first k)
          generalize nextCluster g (chain g disk first k) c'.dev = r at hlater hnext ha
          obtain ⟨next, dev⟩ := r
          dsimp only at hlater hnext ha
          rcases List.mem_cons.mp ha with rfl | ha
          · exact ⟨k, le_rfl, by omega, hself, .inr rfl⟩
          · rcases hnext with rfl | ⟨hbad, -⟩
            · obtain ⟨i, hki, hsize, hall, he⟩ := ih (k := k + 1) (hsectors.copied.dev dev)
                (by rw [← hd', ← hlater.block]) (ReadingAt.next hg _ (hsectors.ended rfl)) ha
              refine ⟨i, by omega, hsize, fun j h1 h2 => ?_, he⟩
              rcases Nat.eq_or_lt_of_le h1 with rfl | hjk
              · exact hvalid
              · exact hall j hjk h2
            · rw [readAccesses_invalid hbad] at ha
              cases ha
    · cases ha

theorem take_within (hg : g.Valid) (hlt : copy.done < length) (sector : Sector) :
    (copy.take g length sector).position.toNat ≤ copy.position.toNat +
      (512 - copy.position.toNat % 512) := by
  have hwanted := wanted_toNat hg hlt
  have hmoved : (copy.take g length sector).position.toNat =
      (copy.position.toNat + (copy.wanted g length).toNat) % 2 ^ 32 :=
    rfl
  have := Nat.mod_le (copy.position.toNat + (copy.wanted g length).toNat) (2 ^ 32)
  omega

theorem readSectors_within (hg : g.Valid) (hfit : start + length.toNat < 2 ^ 32) {s : Nat}
    (h : CopiedFrom g disk first start out length copy) (hd : copy.dev.block.disk = disk)
    (hin : copy.done = length ∨ InSector g k s copy.position.toNat)
    (hle : copy.position.toNat ≤ (k + 1) * g.clusterSize) :
    (readSectors g (chain g disk first k) length n (BitVec.ofNat 32 s) copy).2.position.toNat ≤
      (k + 1) * g.clusterSize := by
  induction n generalizing s copy with
  | zero => exact hle
  | succ n ih =>
    unfold readSectors
    split
    · rename_i hmore
      obtain ⟨hsw, hlt⟩ := hmore
      obtain ⟨r, hr, hp, -, -⟩ := hin.resolve_left fun he => BitVec.lt_irrefl _ (he ▸ hlt)
      have hs : s < g.sectorsPerCluster.toNat := by
        rw [BitVec.lt_def, BitVec.toNat_ofNat, Nat.mod_eq_of_lt (by have := hg.sectors_lt; omega)] at hsw
        exact hsw
      obtain ⟨hlater, hread⟩ :=
        read_spec copy.dev (clusterLba g (chain g disk first k) + BitVec.ofNat 32 s)
      generalize copy.dev.read (clusterLba g (chain g disk first k) + BitVec.ofNat 32 s) =
        res at hlater hread
      obtain ⟨sector, dev⟩ := res
      dsimp only at hlater hread ⊢
      rcases hread with rfl | ⟨rfl, -⟩
      · rw [hd]
        obtain ⟨hcopied, -, hnext⟩ := (h.dev dev).take hg hfit hlt hs hr hp rfl
        have hrest := ih (s := s + 1) hcopied (by rw [← hd, ← hlater.block]; rfl)
          (hnext.imp id fun hq => ⟨0, by omega, hq, hs, fun _ => rfl⟩) ?_
        · rwa [BitVec.ofNat_add] at hrest
        · have hwithin := @take_within _ _ { copy with dev } hg hlt
            (disk (clusterLba g (chain g disk first k) + BitVec.ofNat 32 s))
          have hroom := Nat.mul_le_mul_right 512 (Nat.succ_le_of_lt hs)
          have hr' : copy.position.toNat % 512 = r := by
            rw [hp, Fat32.clusterSize, ← Nat.mul_assoc]
            omega
          rw [Nat.add_mul, Nat.one_mul]
          change _ ≤ _ + g.sectorsPerCluster.toNat * 512
          dsimp only at hwithin
          omega
      · exact hle
    · exact hle

theorem read_round (hg : g.Valid) (hfit : start + length.toNat < 2 ^ 32)
    (h : CopiedFrom g disk first start out length copy) (hd : copy.dev.block.disk = disk)
    (hok : copy.dev.Answers) (hlo : k * g.clusterSize ≤ copy.position.toNat)
    (hhi : copy.position.toNat < (k + 1) * g.clusterSize) :
    ∃ c' dev, readSectors g (chain g disk first k) length g.sectorsPerCluster.toNat
        (copy.position / g.bytesPerSector % g.sectorsPerCluster) copy = (true, c') ∧
      nextCluster g (chain g disk first k) c'.dev = (chain g disk first (k + 1), dev) ∧
        Later copy.dev dev ∧
      CopiedFrom g disk first start out length c' ∧ c'.position.toNat ≤ (k + 1) * g.clusterSize ∧
      (c'.done = length ∨ c'.position.toNat = (k + 1) * g.clusterSize) := by
  have hsectors := sectors_read hg hfit h hd hlo hhi
  have hwithin := readSectors_within (n := g.sectorsPerCluster.toNat) hg hfit h hd
    (.inr (inSector_of_cluster hlo hhi)) hhi.le
  rw [← first_sector hg] at hwithin
  generalize readSectors g (chain g disk first k) length g.sectorsPerCluster.toNat
    (copy.position / g.bytesPerSector % g.sectorsPerCluster) copy = r at hsectors hwithin
  obtain ⟨_ | _, c'⟩ := r
  · obtain ⟨m, -, -, hfail⟩ := hsectors.failed rfl
    rw [hok m] at hfail
    cases hfail
  · obtain ⟨dev, hlater, hnext⟩ :=
      nextCluster_answered hg (hsectors.later.answers hok) (chain g disk first k)
    rw [hsectors.later.block, hd] at hnext
    exact ⟨c', dev, rfl, hnext, hsectors.later.trans hlater, hsectors.copied, hwithin, hsectors.ended rfl⟩

theorem readAccesses_reaches (hg : g.Valid) (hfit : start + length.toNat < 2 ^ 32)
    (h : CopiedFrom g disk first start out length copy) (hd : copy.dev.block.disk = disk)
    (hok : copy.dev.Answers) (hlt : copy.done < length)
    (hlo : k * g.clusterSize ≤ copy.position.toNat)
    (hhi : copy.position.toNat < (k + 1) * g.clusterSize) (hfuel : n < fuel)
    (hsize : (k + n) * g.clusterSize < start + length.toNat)
    (hvalid : ∀ i, k ≤ i → i ≤ k + n → validCluster (chain g disk first i) = true) :
    .data (chain g disk first (k + n)) ∈ readAccesses g length fuel (chain g disk first k) copy ∧
      .table (chain g disk first (k + n)) ∈ readAccesses g length fuel (chain g disk first k) copy := by
  induction n generalizing k copy fuel with
  | zero =>
    obtain ⟨fuel, rfl⟩ := Nat.exists_eq_succ_of_ne_zero (Nat.ne_zero_of_lt hfuel)
    obtain ⟨c', dev, hread, hnext, -⟩ := read_round hg hfit h hd hok hlo hhi
    rw [readAccesses, if_pos ⟨hlt, hvalid k le_rfl (by omega)⟩, hread]
    simp
  | succ n ih =>
    obtain ⟨fuel, rfl⟩ := Nat.exists_eq_succ_of_ne_zero (Nat.ne_zero_of_lt hfuel)
    obtain ⟨c', dev, hread, hnext, hlater, hcopied, hwithin, hended⟩ :=
      read_round hg hfit h hd hok hlo hhi
    have hk : k + 1 + n = k + (n + 1) := by omega
    -- there is more to read behind the cluster
    have hmore : (k + 1) * g.clusterSize < start + length.toNat :=
      lt_of_le_of_lt (Nat.mul_le_mul_right _ (by omega)) hsize
    have hposition := hcopied.position
    have hlt' : c'.done < length := by
      rw [BitVec.lt_def]
      omega
    have hp : c'.position.toNat = (k + 1) * g.clusterSize :=
      hended.resolve_left fun he => BitVec.lt_irrefl _ (he ▸ hlt')
    obtain ⟨-, hhi'⟩ :=
      (ReadingAt.next hg dev hended).resolve_left fun he => BitVec.lt_irrefl _ (he ▸ hlt')
    obtain ⟨hdata, htable⟩ := ih (k := k + 1) (hcopied.dev dev) (by rw [hlater.block, hd])
      (hlater.answers hok) hlt' hp.ge hhi' (show n < fuel by omega) (by rwa [hk])
      (fun i h1 h2 => hvalid i (by omega) (by omega))
    rw [hk] at hdata htable
    rw [readAccesses, if_pos ⟨hlt, hvalid k le_rfl (by omega)⟩, hread]
    dsimp only
    rw [hnext]
    exact ⟨List.mem_cons_of_mem _ (List.mem_cons_of_mem _ hdata),
      List.mem_cons_of_mem _ (List.mem_cons_of_mem _ htable)⟩

/-! ## Calls -/

variable {f : FatFile}

theorem readingAt_start (hg : g.Valid) (dev : Dev) :
    ReadingAt g length (f.position.toNat / g.clusterSize) ⟨out, 0, f.position, dev⟩ := by
  have hcs : 0 < g.clusterSize := Nat.mul_pos hg.sectors_pos (by decide)
  refine .inr ⟨Nat.div_mul_le_self _ _, ?_⟩
  rw [Nat.mul_comm]
  exact Nat.lt_mul_div_succ _ hcs

theorem fileAccesses_spec (hg : g.Valid) (hd : d.block.disk = disk)
    (ha : a ∈ fileAccesses g f out length d) :
    ∃ m, m * g.clusterSize < f.size.toNat ∧
      (∀ i ≤ m, validCluster (chain g disk f.firstCluster i) = true) ∧
      (a = .data (chain g disk f.firstCluster m) ∨ a = .table (chain g disk f.firstCluster m)) := by
  unfold fileAccesses at ha
  split at ha
  · cases ha
  rename_i hsome
  simp only [not_or, BitVec.not_le] at hsome
  have hpos := hsome.2.2
  have hpos' : f.position.toNat < f.size.toNat := hpos
  have hlen := read_length hpos length
  have hsize := f.size.isLt
  have hskip := Nat.div_mul_le_self f.position.toNat g.clusterSize
  dsimp only at ha
  rw [clusters_before hg] at ha
  generalize (if f.size - f.position < length then f.size - f.position else length) = len at ha hlen
  rcases List.mem_append.mp ha with ha | ha
  · obtain ⟨i, -, hi, hall, he⟩ := skipAccesses_spec (k := 0) hg hd ha
    refine ⟨i, ?_, fun j hj => hall j (Nat.zero_le _) hj, .inr he⟩
    have := Nat.mul_le_mul_right g.clusterSize (show i ≤ f.position.toNat / g.clusterSize by omega)
    omega
  · obtain ⟨hlater, hat⟩ := skipClusters_spec f.firstCluster (k := 0)
      (n := f.position.toNat / g.clusterSize) hg hd
    rw [chain] at hlater hat
    generalize skipClusters g (f.position.toNat / g.clusterSize) f.firstCluster d = r at ha hlater hat
    obtain ⟨cluster, dev⟩ := r
    dsimp only at ha hlater hat
    rcases hat with ⟨rfl, hbefore⟩ | ⟨hbad, -⟩
    · rw [Nat.zero_add] at ha hbefore
      obtain ⟨i, hki, hi, hall, he⟩ := readAccesses_spec hg (by omega) (.initial f.position dev)
        (by rw [hlater.block, hd]) (readingAt_start hg dev) ha
      refine ⟨i, by omega, fun j hj => ?_, he⟩
      rcases Nat.lt_or_ge j (f.position.toNat / g.clusterSize) with hlt | hge
      · exact hbefore j (Nat.zero_le _) hlt
      · exact hall j hge hj
    · rw [readAccesses_invalid hbad] at ha
      cases ha

/-- Access `a` is to a cluster that the call comes to by the links: of the root directory, up to the first
cluster with an end marker, or of the file as far as its size goes. -/
def FatCall.Follows (g : Fat32) (disk : Word → Sector) (a : Access) : FatCall → Prop
  | .read f _ _ => ∃ m, m * g.clusterSize < f.size.toNat ∧
    (∀ i ≤ m, validCluster (chain g disk f.firstCluster i) = true) ∧
    (a = .data (chain g disk f.firstCluster m) ∨ a = .table (chain g disk f.firstCluster m))
  | _ => ∃ m, (∀ i ≤ m, validCluster (chain g disk g.rootCluster i) = true) ∧
    (∀ i < m, ¬HasEnd g disk (chain g disk g.rootCluster i)) ∧
    (a = .data (chain g disk g.rootCluster m) ∨
      a = .table (chain g disk g.rootCluster m) ∧ ¬HasEnd g disk (chain g disk g.rootCluster m))

theorem accesses_follow (hg : g.Valid) (hd : d.block.disk = disk) {call : FatCall}
    (ha : a ∈ call.accesses g fuel d) : call.Follows g disk a := by
  cases call with
  | openPath | readdir =>
    unfold FatCall.accesses at ha
    dsimp only at ha
    split at ha
    · cases ha
    · exact scanAccesses_spec (k := 0) hg hd (by simp) ha
  | read f out length => exact fileAccesses_spec hg hd ha

theorem RootTame.confined (hg : g.Valid) (htame : RootTame g disk) {m : Nat}
    (hall : ∀ i ≤ m, validCluster (chain g disk g.rootCluster i) = true)
    (hnone : ∀ i < m, ¬HasEnd g disk (chain g disk g.rootCluster i))
    (ha : a = .data (chain g disk g.rootCluster m) ∨
      a = .table (chain g disk g.rootCluster m) ∧ ¬HasEnd g disk (chain g disk g.rootCluster m)) :
    a.Confined g := by
  obtain ⟨hdata, htable⟩ := htame m hall hnone
  rcases ha with rfl | ⟨rfl, hno⟩
  · exact (confined_data_iff (hall m le_rfl)).mpr hdata
  · exact (confined_table_iff hg (hall m le_rfl)).mpr (htable hno)

variable (out) in
theorem fileAccesses_reaches (hg : g.Valid) (hd : d.Answers) (hdir : f.directory = false)
    (hpos : f.position = 0) {m : Nat} (hm : m * g.clusterSize < f.size.toNat)
    (hvalid : ∀ i ≤ m, validCluster (chain g d.block.disk f.firstCluster i) = true) :
    .data (chain g d.block.disk f.firstCluster m) ∈ fileAccesses g f out 0xffffffff d ∧
      .table (chain g d.block.disk f.firstCluster m) ∈ fileAccesses g f out 0xffffffff d := by
  have hcs : 0 < g.clusterSize := Nat.mul_pos hg.sectors_pos (by decide)
  have hlt : f.position < f.size := by
    rw [hpos, BitVec.lt_def]
    exact Nat.zero_lt_of_lt hm
  have hsize := f.size.isLt
  have hlen := read_length hlt 0xffffffff
  unfold fileAccesses
  rw [if_neg (by simp [hg.mounted, hdir, BitVec.not_le.mpr hlt])]
  dsimp only
  generalize (if f.size - f.position < 0xffffffff then f.size - f.position else 0xffffffff) = len at hlen
  rw [hpos] at hlen ⊢
  change len.toNat = min 0xffffffff (f.size.toNat - 0) at hlen
  rw [clusters_before hg, show (0 : Word).toNat / g.clusterSize = 0 from Nat.zero_div _]
  have hmle : m ≤ m * g.clusterSize := Nat.le_mul_of_pos_right m hcs
  have hcopied : CopiedFrom g d.block.disk f.firstCluster 0 out len ⟨out, 0, 0, d⟩ := .initial 0 d
  have h := readAccesses_reaches (n := m) (k := 0) hg (by omega) hcopied rfl hd
    (by rw [BitVec.lt_def]; change 0 < len.toNat; omega) (by simp) (by simpa using hcs)
      (show m < len.toNat by omega)
    (by rw [Nat.zero_add]; omega)
    (fun i _ hi => hvalid i (by omega))
  rw [Nat.zero_add] at h
  exact h

theorem Handle.names (hg : g.Valid) {block : Block} (h : Handle g block f) :
    ∃ path f₀, Names g block.disk path f₀ ∧ f.firstCluster = f₀.firstCluster ∧ f.size = f₀.size := by
  induction h with
  | opened hd h => exact ⟨_, _, names_of_open hg (by rw [hd]) h, rfl, rfl⟩
  | read h out length d hd ih =>
    obtain ⟨path, f₀, hnames, hfirst, hsize⟩ := ih
    refine ⟨path, f₀, hnames, ?_, ?_⟩
    · unfold fat32ReadFile
      split
      · exact hfirst
      · exact hfirst
    · unfold fat32ReadFile
      split
      · exact hsize
      · exact hsize

end

/-- In every run of calls on the volume, whatever the device answers, cluster numbers lead to
sectors of the table and of the data. -/
def VolumeConfined (g : Fat32) (block : Block) : Prop :=
  ∀ call : FatCall, call.Made g block → ∀ fuel d, d.block = block →
    ∀ a ∈ call.accesses g fuel d, a.Confined g

/-- They do exactly if the root directory and all files in it do. -/
theorem volume_confined_iff {g₀ g : Fat32} {d₀ d₁ : Dev} (hmount : fat32Mount g₀ d₀ = (true, g, d₁)) :
    VolumeConfined g d₀.block ↔
      RootTame g d₀.block.disk ∧ ∀ path f, Names g d₀.block.disk path f → FileTame g d₀.block.disk f := by
  have hg := fat32Mount_valid hmount
  have hpresent : d₀.block.present = true := fat32Mount_present hmount
  constructor
  · intro h
    have hd : (⟨d₀.block, fun _ => true, []⟩ : Dev).Answers := fun _ => by simp [Dev.answers, hpresent]
    refine ⟨fun m hvalid hnone => ?_, fun path f hnames m hm hvalid => ?_⟩
    · -- a name that no entry can have is looked for to the end
      have hopen := h (.openPath [0xe5]) trivial (m + 1) ⟨d₀.block, fun _ => true, []⟩ rfl
      unfold FatCall.accesses at hopen
      dsimp only at hopen
      rw [if_neg (by simp [hg.mounted])] at hopen
      obtain ⟨hdata, htable⟩ := scanAccesses_reaches (n := m) (k := 0) hg
        (show (make83 [0xe5])[0]? = some 0xe5 by decide) hd
        (by simpa using hvalid) (by simpa using hnone) 0
      rw [Nat.zero_add] at hdata htable
      have hm := hvalid m le_rfl
      exact ⟨(confined_data_iff hm).mp (hopen _ hdata),
        fun hno => (confined_table_iff hg hm).mp (hopen _ (htable hno))⟩
    · -- a file that can be opened can be read
      obtain ⟨fuel, d', hopen⟩ := open_of_names hg hd hnames
      obtain ⟨hdir, hpos, -⟩ := hnames.found
      have hread :=
        h (.read f (fun _ => 0) 0xffffffff)
          (.opened (d := ⟨d₀.block, fun _ => true, []⟩) rfl hopen) 0 ⟨d₀.block, fun _ => true, []⟩ rfl
      obtain ⟨hdata, htable⟩ := fileAccesses_reaches (fun _ => 0) hg hd hdir hpos hm hvalid
      have hm := hvalid m le_rfl
      exact ⟨(confined_table_iff hg hm).mp (hread _ htable), (confined_data_iff hm).mp (hread _ hdata)⟩
  · rintro ⟨hroot, hfiles⟩ call hmade fuel d hd
    have hdisk : d.block.disk = d₀.block.disk := by rw [hd]
    intro a ha
    have hfollows := accesses_follow hg hdisk ha
    cases call with
    | openPath | readdir =>
      obtain ⟨m, hall, hnone, he⟩ := hfollows
      exact hroot.confined hg hall hnone he
    | read f out length =>
      obtain ⟨m, hm, hall, he⟩ := hfollows
      obtain ⟨path, f₀, hnames, hfirst, hsize⟩ := Handle.names hg hmade
      rw [hfirst] at hall he
      rw [hsize] at hm
      obtain ⟨htable, hdata⟩ := hfiles path f₀ hnames m hm hall
      rcases he with rfl | rfl
      · exact (confined_data_iff (hall m le_rfl)).mpr hdata
      · exact (confined_table_iff hg (hall m le_rfl)).mpr htable

theorem letterDisk_tame : RootTame twoClusterVolume letterDisk := by
  intro m _ hnone
  have hend : HasEnd twoClusterVolume letterDisk (chain twoClusterVolume letterDisk 2 0) := by
    decide +kernel
  obtain rfl : m = 0 := by
    by_contra hm
    exact hnone 0 (by omega) hend
  refine ⟨?_, fun hno => absurd hend hno⟩
  change 2 + (2 - 2) * 2 < 2 ^ 32
  decide

theorem volume_confined_letters : VolumeConfined twoClusterVolume letterDev.block := by
  obtain ⟨d₁, hmount⟩ := letterDev_mounts
  refine (volume_confined_iff hmount).mpr ⟨letterDisk_tame, fun path f hnames m _ hvalid => ?_⟩
  -- no entry of the directory has a cluster
  obtain ⟨-, -, n, hroot, e, he, hfirst, -⟩ := hnames.found
  have hn : n ≤ 1 := by
    by_contra hn
    exact absurd ((hroot 1 (by omega)).symm.trans letterDisk_ends.last) (by decide)
  have hmem : e ∈ rootEntries twoClusterVolume letterDisk 1 := by
    obtain ⟨i, hi, hentry⟩ := List.mem_flatMap.mp he
    exact List.mem_flatMap.mpr ⟨i, List.mem_range.mpr (by have := List.mem_range.mp hi; omega), hentry⟩
  have hnone : (rootEntries twoClusterVolume letterDisk 1).all
      (fun e => !validCluster (e.le16 20 <<< 16 ||| e.le16 26)) = true := by decide +kernel
  have hbad := List.all_eq_true.mp hnone e hmem
  have hzero := hvalid 0 (Nat.zero_le _)
  rw [chain, hfirst] at hzero
  rw [hzero] at hbad
  cases hbad

def strayDisk : Word → Sector := fun lba i =>
  if lba = 1 then if i = 8 then 200 else 0 else twoClusterDisk lba i

def strayDev : Dev := ⟨⟨true, true, strayDisk⟩, fun _ => true, []⟩

/-- The volume is mounted. To go on behind cluster 200 the scan takes the sector behind the table,
which is one of the data, for one of the table. -/
theorem link_leaves_table :
    (∃ d₁, fat32Mount ⟨0, 0, 0, 0, 0, 0, 0, false⟩ strayDev = (true, twoClusterVolume, d₁)) ∧
    .table 200 ∈ (FatCall.openPath [0xe5]).accesses twoClusterVolume 2 strayDev ∧
    (nextCluster twoClusterVolume 200 strayDev).2.reads = [2] ∧
    ¬(2 : Word).toNat < twoClusterVolume.fatLba.toNat + twoClusterVolume.fatSize.toNat ∧
    ¬VolumeConfined twoClusterVolume strayDev.block := by
  have hmem : Access.table 200 ∈
      (FatCall.openPath [0xe5]).accesses twoClusterVolume 2 strayDev := by decide +kernel
  refine ⟨⟨_, Prod.ext (by decide +kernel) (Prod.ext (by decide +kernel) rfl)⟩,
    hmem, by decide +kernel, by decide, ?_⟩
  intro h
  have hconfined := h (.openPath [0xe5]) trivial 2 strayDev rfl _ hmem
  revert hconfined
  decide +kernel

/-- Whatever the device answers and however far a call has come, all that it has read belongs to the
clusters that the links lead to. -/
theorem reads_on_chain {g₀ g : Fat32} {d₀ d₁ : Dev} (hmount : fat32Mount g₀ d₀ = (true, g, d₁))
    (call : FatCall) (fuel : Nat) {d : Dev} (hd : d.block = d₀.block) :
    (∀ d', call.leaves g fuel d = some d' → call.after g fuel d = d') ∧
    ∃ l, (call.after g fuel d).reads = l ++ d.reads ∧
      ∀ lba ∈ l, ∃ a, call.Follows g d₀.block.disk a ∧ a.Reads g lba := by
  obtain ⟨l, hl, hreads⟩ := call_traced (g := g) call fuel d
  refine ⟨fun d' => call_after, l, hl, fun lba hlba => ?_⟩
  obtain ⟨a, ha, hread⟩ := hreads lba hlba
  exact ⟨a, accesses_follow (fat32Mount_valid hmount) (by rw [hd]) ha, hread⟩

/-- Three rounds of a scan that never returns. -/
theorem reads_on_chain_loop : (FatCall.openPath [0xe5]).leaves twoClusterVolume 3 loopDev = none ∧
    ((FatCall.openPath [0xe5]).after twoClusterVolume 3 loopDev).reads = [1, 3, 2, 1, 3, 2, 1, 3, 2] ∧
    ∃ l, ((FatCall.openPath [0xe5]).after twoClusterVolume 3 loopDev).reads = l ++ loopDev.reads ∧
      ∀ lba ∈ l, ∃ a, (FatCall.openPath [0xe5]).Follows twoClusterVolume loopDisk a ∧
        a.Reads twoClusterVolume lba := by
  have hmount : fat32Mount ⟨0, 0, 0, 0, 0, 0, 0, false⟩ loopDev =
      (true, twoClusterVolume, (fat32Mount ⟨0, 0, 0, 0, 0, 0, 0, false⟩ loopDev).2.2) :=
    Prod.ext (by decide +kernel) (Prod.ext (by decide +kernel) rfl)
  refine ⟨?_, by decide +kernel, (reads_on_chain hmount _ 3 rfl).2⟩
  rw [FatCall.leaves, Option.map_eq_none_iff, ← Option.isNone_iff_eq_none]
  decide +kernel

end Ceblar
