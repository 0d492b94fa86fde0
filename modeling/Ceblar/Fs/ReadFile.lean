import Ceblar.Fs.Fat32
import Ceblar.Lib.Run

/-! # Reading a file in pieces

A file is the clusters of its chain one after another. Every call finds its place again from the
position alone.
-/

namespace Ceblar

/-! ## Volumes and chains -/

structure Fat32.Valid (g : Fat32) : Prop where
  mounted : g.mounted = true
  bytes : g.bytesPerSector = 512
  sectors_pos : 0 < g.sectorsPerCluster.toNat
  sectors_lt : g.sectorsPerCluster.toNat < 256

theorem fat32Mount_present {g₀ g : Fat32} {d d' : Dev} (h : fat32Mount g₀ d = (true, g, d')) :
    d.block.present = true := by
  unfold fat32Mount at h
  split at h
  next => cases h
  next hp => simpa using hp

theorem fat32Mount_valid {g₀ g : Fat32} {d d' : Dev} (h : fat32Mount g₀ d = (true, g, d')) : g.Valid := by
  unfold fat32Mount at h
  split at h
  next => cases h
  next =>
    split at h
    next => cases h
    next =>
      dsimp only at h
      split at h
      next => cases h
      next s2 d2 h2 =>
        split at h
        next => cases h
        next hok =>
          cases h
          simp only [not_or, not_not] at hok
          have hpos : (byteAt s2 13).setWidth 32 ≠ 0#32 := hok.2.1
          refine ⟨rfl, hok.1, ?_, ?_⟩
          · exact Nat.pos_of_ne_zero fun hz => hpos (BitVec.eq_of_toNat_eq hz)
          · simp only [BitVec.toNat_setWidth]
            omega

def fatEntry (g : Fat32) (disk : Word → Sector) (c : Word) : Word :=
  le32At (disk (g.fatLba + c * 4 / 512)) (c * 4 % 512).toNat &&& 0x0fffffff

def chain (g : Fat32) (disk : Word → Sector) (first : Word) : Nat → Word
  | 0 => first
  | n + 1 => fatEntry g disk (chain g disk first n)

def Fat32.clusterSize (g : Fat32) : Nat := g.sectorsPerCluster.toNat * 512

def fileByte (g : Fat32) (disk : Word → Sector) (first : Word) (k : Nat) : Byte :=
  byteAt (disk (clusterLba g (chain g disk first (k / g.clusterSize)) +
    BitVec.ofNat 32 (k / 512 % g.sectorsPerCluster.toNat))) (k % 512)

def LongEnough (g : Fat32) (disk : Word → Sector) (f : FatFile) : Prop :=
  ∀ i, i * g.clusterSize < f.size.toNat → validCluster (chain g disk f.firstCluster i) = true

section

variable {g : Fat32} {disk : Word → Sector} {first : Word}
variable {k n position r s : Nat} {d' d'' : Dev} {cluster : Word}

theorem fileByte_at (hs : s < g.sectorsPerCluster.toNat) (hr : r < 512) :
    fileByte g disk first (k * g.clusterSize + s * 512 + r) =
      byteAt (disk (clusterLba g (chain g disk first k) + BitVec.ofNat 32 s)) r := by
  have hsectors : (k * g.clusterSize + s * 512 + r) / 512 = k * g.sectorsPerCluster.toNat + s := by
    unfold Fat32.clusterSize
    rw [← Nat.mul_assoc]
    omega
  have hcluster : (k * g.clusterSize + s * 512 + r) / g.clusterSize = k := by
    apply Nat.div_eq_of_lt_le
    · omega
    · have : s * 512 + r < g.clusterSize := by
        unfold Fat32.clusterSize
        omega
      rw [Nat.add_mul]
      omega
  have hbyte : (k * g.clusterSize + s * 512 + r) % 512 = r := by
    unfold Fat32.clusterSize
    rw [← Nat.mul_assoc]
    omega
  rw [fileByte, hcluster, hsectors, hbyte, Nat.mul_add_mod', Nat.mod_eq_of_lt hs]

/-! ## The device -/

def Dev.answers (d : Dev) (n : Nat) : Bool := d.block.present && d.ok n

structure Later (d d' : Dev) : Prop where
  block : d'.block = d.block
  ok : d'.ok = d.ok
  reads : d.reads.length ≤ d'.reads.length

def Failed (d d' : Dev) : Prop := ∃ n, d.reads.length ≤ n ∧ n < d'.reads.length ∧ d.answers n = false

theorem Later.refl (d : Dev) : Later d d := ⟨rfl, rfl, le_rfl⟩

theorem Later.trans {d : Dev} (h : Later d d') (h' : Later d' d'') : Later d d'' :=
  ⟨h'.block.trans h.block, h'.ok.trans h.ok, h.reads.trans h'.reads⟩

theorem Later.failed {d : Dev} (h : Later d d') (h' : Failed d' d'') : Failed d d'' := by
  obtain ⟨n, hle, hlt, hn⟩ := h'
  refine ⟨n, h.reads.trans hle, hlt, ?_⟩
  rwa [Dev.answers, h.block, h.ok] at hn

theorem read_spec (d : Dev) (lba : Word) : Later d (d.read lba).2 ∧
    ((d.read lba).1 = some (d.block.disk lba) ∨ (d.read lba).1 = none ∧ Failed d (d.read lba).2) := by
  refine ⟨⟨rfl, rfl, by simp [Dev.read]⟩, ?_⟩
  simp only [Dev.read, blockReadSector]
  split
  next => exact .inl rfl
  next h => exact .inr ⟨rfl, d.reads.length, le_rfl, by simp, Bool.eq_false_iff.mpr h⟩

variable {d : Dev}

theorem nextCluster_spec (hg : g.Valid) (hd : d.block.disk = disk) (c : Word) :
    Later d (nextCluster g c d).2 ∧ ((nextCluster g c d).1 = fatEntry g disk c ∨
      validCluster (nextCluster g c d).1 = false ∧ Failed d (nextCluster g c d).2) := by
  obtain ⟨hlater, hread⟩ := read_spec d (g.fatLba + c * 4 / 512)
  subst hd
  unfold nextCluster fatEntry
  rw [hg.bytes]
  generalize d.read (g.fatLba + c * 4 / 512) = r at hlater hread
  obtain ⟨sector, d'⟩ := r
  rcases hread with rfl | ⟨rfl, hfail⟩
  · exact ⟨hlater, .inl rfl⟩
  · exact ⟨hlater, .inr ⟨rfl, hfail⟩⟩

variable (first) in
theorem skipClusters_spec (hg : g.Valid) (hd : d.block.disk = disk) :
    Later d (skipClusters g n (chain g disk first k) d).2 ∧
      ((skipClusters g n (chain g disk first k) d).1 = chain g disk first (k + n) ∧
          (∀ i, k ≤ i → i < k + n → validCluster (chain g disk first i) = true) ∨
        validCluster (skipClusters g n (chain g disk first k) d).1 = false ∧
          (Failed d (skipClusters g n (chain g disk first k) d).2 ∨
            ∃ i < k + n, validCluster (chain g disk first i) = false)) := by
  induction n generalizing k d with
  | zero => exact ⟨.refl d, .inl ⟨rfl, fun i h1 h2 => absurd h1 (by omega)⟩⟩
  | succ n ih =>
    obtain ⟨hlater, hnext⟩ := nextCluster_spec hg hd (chain g disk first k)
    unfold skipClusters
    cases hvalid : validCluster (chain g disk first k) with
    | false => exact ⟨.refl d, .inr ⟨hvalid, .inr ⟨k, by omega, hvalid⟩⟩⟩
    | true =>
      rw [if_pos rfl]
      generalize nextCluster g (chain g disk first k) d = r at hlater hnext
      obtain ⟨c, d'⟩ := r
      dsimp only at hlater hnext ⊢
      rcases hnext with rfl | ⟨hbad, hfail⟩
      · obtain ⟨hlater1, hrest⟩ := ih (k := k + 1) (d := d') (by rw [hlater.block, hd])
        rw [show k + 1 + n = k + (n + 1) by omega] at hrest
        refine ⟨hlater.trans hlater1, hrest.imp (fun h => ⟨h.1, fun i h1 h2 => ?_⟩)
          fun h => ⟨h.1, h.2.imp hlater.failed id⟩⟩
        rcases Nat.eq_or_lt_of_le h1 with rfl | hlt
        · exact hvalid
        · exact h.2 i hlt h2
      · have hstop : skipClusters g n c d' = (c, d') := by
          cases n
          · rfl
          · rw [skipClusters, if_neg (by simp [hbad])]
        rw [hstop]
        exact ⟨hlater, .inr ⟨hbad, .inl hfail⟩⟩

/-! ## The loops -/

/-- What the loops keep: the bytes so far are those from `start` on, and the rest of the buffer is
as it was. -/
structure CopiedFrom (g : Fat32) (disk : Word → Sector) (first : Word) (start : Nat)
    (out : Nat → Byte) (length : Word) (c : Copy) : Prop where
  le : c.done.toNat ≤ length.toNat
  position : c.position.toNat = start + c.done.toNat
  bytes : ∀ i, c.out i = if i < c.done.toNat then fileByte g disk first (start + i) else out i

variable {start : Nat} {out : Nat → Byte} {length : Word} {c : Copy}

theorem CopiedFrom.initial (position : Word) (dev : Dev) :
    CopiedFrom g disk first position.toNat out length { out, done := 0, position, dev } :=
  ⟨Nat.zero_le _, rfl, fun _ => rfl⟩

theorem CopiedFrom.dev (h : CopiedFrom g disk first start out length c) (dev : Dev) :
    CopiedFrom g disk first start out length { c with dev } := ⟨h.le, h.position, h.bytes⟩

theorem CopiedFrom.lt_of_ne (h : CopiedFrom g disk first start out length c)
    (hne : c.done ≠ length) : c.done < length :=
  Nat.lt_of_le_of_ne h.le fun he => hne (BitVec.eq_of_toNat_eq he)

theorem take_toNat {done : Word} (position : Word) (hlt : done < length) :
    (if length - done < 512 - position % 512 then length - done else 512 - position % 512).toNat =
      min (length.toNat - done.toNat) (512 - position.toNat % 512) := by
  have hoff : (position % 512).toNat = position.toNat % 512 := BitVec.toNat_umod
  have hrest : (length - done).toNat = length.toNat - done.toNat :=
    BitVec.toNat_sub_of_le (BitVec.le_of_lt hlt)
  have hroom : (512 - position % 512 : Word).toNat = 512 - position.toNat % 512 := by
    rw [BitVec.toNat_sub_of_le (by rw [BitVec.le_def, hoff]; exact (Nat.mod_lt _ (by decide)).le), hoff]
    rfl
  have hiff : length - done < 512 - position % 512 ↔
      length.toNat - done.toNat < 512 - position.toNat % 512 := by
    rw [BitVec.lt_def, hrest, hroom]
  split
  next h => rw [hrest, Nat.min_eq_left (hiff.mp h).le]
  next h => rw [hroom, Nat.min_eq_right (Nat.le_of_not_lt (mt hiff.mpr h))]

theorem wanted_toNat (hg : g.Valid) (hlt : c.done < length) :
    (c.wanted g length).toNat = min (length.toNat - c.done.toNat) (512 - c.position.toNat % 512) := by
  unfold Copy.wanted
  rw [hg.bytes]
  exact take_toNat c.position hlt

theorem CopiedFrom.take (hg : g.Valid) (hfit : start + length.toNat < 2 ^ 32)
    (h : CopiedFrom g disk first start out length c) (hlt : c.done < length)
    (hs : s < g.sectorsPerCluster.toNat) (hr : r < 512)
    (hpos : c.position.toNat = k * g.clusterSize + s * 512 + r) {c' : Copy}
    (hc' : c' = c.take g length (disk (clusterLba g (chain g disk first k) + BitVec.ofNat 32 s))) :
    CopiedFrom g disk first start out length c' ∧ c.done < c'.done ∧
      (c'.done = length ∨ c'.position.toNat = k * g.clusterSize + (s + 1) * 512) := by
  have hlt' : c.done.toNat < length.toNat := hlt
  have hposition := h.position
  have hoff : c.position.toNat % 512 = r := by
    rw [hpos, Fat32.clusterSize, ← Nat.mul_assoc]
    omega
  have htake := wanted_toNat hg hlt
  rw [hoff] at htake
  have hdone : c'.done.toNat = c.done.toNat + (c.wanted g length).toNat := by
    rw [hc']
    exact Nat.mod_eq_of_lt (by omega)
  have hmoved : c'.position.toNat = c.position.toNat + (c.wanted g length).toNat := by
    rw [hc']
    exact Nat.mod_eq_of_lt (by omega)
  have hoffset : (c.position % g.bytesPerSector).toNat = r := by
    rw [hg.bytes, ← hoff]
    exact BitVec.toNat_umod
  refine ⟨⟨by omega, by omega, fun i => ?_⟩, ?_, ?_⟩
  · rw [hdone, hc', Copy.take]
    dsimp only
    rw [hoffset]
    split
    next hi =>
      rw [if_pos hi.2, show start + i = k * g.clusterSize + s * 512 + (r + (i - c.done.toNat)) by omega,
        fileByte_at hs (by omega)]
    next hi =>
      rw [h.bytes]
      by_cases hlo : i < c.done.toNat
      · rw [if_pos hlo, if_pos (by omega)]
      · rw [if_neg hlo, if_neg (by omega)]
  · rw [BitVec.lt_def]
    omega
  · by_cases hend : length.toNat - c.done.toNat ≤ 512 - r
    · exact .inl (BitVec.eq_of_toNat_eq (by omega))
    · exact .inr (by omega)

def InSector (g : Fat32) (k s position : Nat) : Prop :=
  ∃ r, r < 512 ∧ position = k * g.clusterSize + s * 512 + r ∧ s ≤ g.sectorsPerCluster.toNat ∧
    (s = g.sectorsPerCluster.toNat → r = 0)

theorem InSector.at_end (h : InSector g k s position) (hs : g.sectorsPerCluster.toNat ≤ s) :
    position = (k + 1) * g.clusterSize := by
  obtain ⟨r, -, rfl, hle, hr⟩ := h
  obtain rfl := le_antisymm hle hs
  rw [hr rfl, Nat.add_mul, Fat32.clusterSize]
  omega

theorem inSector_of_cluster (hlo : k * g.clusterSize ≤ position)
    (hhi : position < (k + 1) * g.clusterSize) :
    InSector g k (position / 512 % g.sectorsPerCluster.toNat) position := by
  obtain ⟨q, rfl⟩ := Nat.exists_eq_add_of_le hlo
  have hq : q < g.sectorsPerCluster.toNat * 512 := by
    rw [Nat.add_mul, Nat.one_mul] at hhi
    exact Nat.lt_of_add_lt_add_left hhi
  have hsectors : (k * g.clusterSize + q) / 512 = k * g.sectorsPerCluster.toNat + q / 512 := by
    unfold Fat32.clusterSize
    rw [← Nat.mul_assoc]
    omega
  have hlt : q / 512 < g.sectorsPerCluster.toNat := by omega
  rw [hsectors, Nat.mul_add_mod', Nat.mod_eq_of_lt hlt]
  exact ⟨q % 512, by omega, by omega, hlt.le, fun h => by omega⟩

structure SectorsRead (g : Fat32) (disk : Word → Sector) (first : Word) (start : Nat) (out : Nat → Byte)
    (length : Word) (k : Nat) (c : Copy) (r : Bool × Copy) : Prop where
  copied : CopiedFrom g disk first start out length r.2
  later : Later c.dev r.2.dev
  ended : r.1 = true → r.2.done = length ∨ r.2.position.toNat = (k + 1) * g.clusterSize
  failed : r.1 = false → Failed c.dev r.2.dev
  mono : c.done ≤ r.2.done

theorem readSectors_spec (hg : g.Valid) (hfit : start + length.toNat < 2 ^ 32)
    (hfuel : g.sectorsPerCluster.toNat ≤ s + n) (h : CopiedFrom g disk first start out length c)
    (hd : c.dev.block.disk = disk) (hat : c.done = length ∨ InSector g k s c.position.toNat) :
    SectorsRead g disk first start out length k c
      (readSectors g (chain g disk first k) length n (BitVec.ofNat 32 s) c) := by
  induction n generalizing s c with
  | zero =>
    refine ⟨h, .refl _, fun _ => hat.imp id ?_, nofun, BitVec.le_refl _⟩
    exact fun hin => hin.at_end (by omega)
  | succ n ih =>
    unfold readSectors
    split
    next hmore =>
      obtain ⟨hsw, hlt⟩ := hmore
      obtain ⟨r, hr, hp, hle, -⟩ := hat.resolve_left fun he => BitVec.lt_irrefl _ (he ▸ hlt)
      have hs : s < g.sectorsPerCluster.toNat := by
        rw [BitVec.lt_def, BitVec.toNat_ofNat, Nat.mod_eq_of_lt (by have := hg.sectors_lt; omega)] at hsw
        exact hsw
      obtain ⟨hlater, hread⟩ := read_spec c.dev (clusterLba g (chain g disk first k) + BitVec.ofNat 32 s)
      generalize c.dev.read (clusterLba g (chain g disk first k) + BitVec.ofNat 32 s) =
        res at hlater hread
      obtain ⟨sector, dev⟩ := res
      dsimp only at hlater hread ⊢
      rcases hread with rfl | ⟨rfl, hfail⟩
      · rw [hd]
        obtain ⟨hcopied, hmore, hnext⟩ := (h.dev dev).take hg hfit hlt hs hr hp rfl
        have hrest := ih (s := s + 1) (by omega) hcopied (by rw [← hd, ← hlater.block]; rfl)
            (hnext.imp id fun hq =>
          ⟨0, by omega, hq, hs, fun _ => rfl⟩)
        rw [BitVec.ofNat_add] at hrest
        exact ⟨hrest.copied, hlater.trans hrest.later, hrest.ended,
          fun hf => hlater.failed (hrest.failed hf),
          BitVec.le_trans (BitVec.le_of_lt hmore) hrest.mono⟩
      · exact ⟨h.dev dev, hlater, nofun, fun _ => hfail, BitVec.le_refl _⟩
    next hstop =>
      refine ⟨h, .refl _, fun _ => ?_, nofun, BitVec.le_refl _⟩
      rcases hat with hend | hin
      · exact .inl hend
      · by_cases hend : c.done = length
        · exact .inl hend
        · refine .inr (hin.at_end ?_)
          by_contra hs
          refine hstop ⟨?_, h.lt_of_ne hend⟩
          rw [BitVec.lt_def, BitVec.toNat_ofNat, Nat.mod_eq_of_lt (by have := hg.sectors_lt; omega)]
          omega

structure ClustersRead (g : Fat32) (disk : Word → Sector) (first : Word) (start : Nat) (out : Nat → Byte)
    (length : Word) (d : Dev) (r : Int × Copy) : Prop where
  copied : CopiedFrom g disk first start out length r.2
  later : Later d r.2.dev
  ended : r.2.done = length ∨ Failed d r.2.dev
  result : r.1 = r.2.done.toNat ∨ r.1 = -1 ∧ r.2.done = 0 ∧ Failed d r.2.dev

def AtCluster (g : Fat32) (disk : Word → Sector) (first : Word) (d d' : Dev) (cluster : Word)
    (position : Nat) : Prop :=
  (∃ k, cluster = chain g disk first k ∧ k * g.clusterSize ≤ position ∧
    position < (k + 1) * g.clusterSize) ∨ validCluster cluster = false ∧ Failed d d'

theorem toInt_done (hlength : length.toNat < 2 ^ 31) (h : CopiedFrom g disk first start out length c) :
    c.done.toInt = c.done.toNat := by
  have := h.le
  exact BitVec.toInt_eq_toNat_of_lt (by omega)

theorem first_sector (hg : g.Valid) (position : Word) :
    position / g.bytesPerSector % g.sectorsPerCluster =
    BitVec.ofNat 32 (position.toNat / 512 % g.sectorsPerCluster.toNat) := by
  apply BitVec.eq_of_toNat_eq
  rw [hg.bytes, BitVec.toNat_umod, BitVec.toNat_udiv, BitVec.toNat_ofNat]
  have hmod := Nat.mod_lt (position.toNat / 512) hg.sectors_pos
  exact (Nat.mod_eq_of_lt (hmod.trans g.sectorsPerCluster.isLt)).symm

theorem readClusters_spec (hg : g.Valid) (hfit : start + length.toNat < 2 ^ 32)
    (hlength : length.toNat < 2 ^ 31)
    (hvalid : ∀ i, i * g.clusterSize < start + length.toNat → validCluster (chain g disk first i) = true)
    {fuel : Nat} (hfuel : length.toNat ≤ c.done.toNat + fuel)
    (h : CopiedFrom g disk first start out length c) (hd : c.dev.block.disk = disk)
    (hlater : Later d c.dev)
    (hat : c.done = length ∨ AtCluster g disk first d c.dev cluster c.position.toNat) :
    ClustersRead g disk first start out length d (readClusters g length fuel cluster c) := by
  induction fuel generalizing cluster c with
  | zero =>
    have hend : c.done = length := BitVec.eq_of_toNat_eq (le_antisymm h.le (by omega))
    exact ⟨h, hlater, .inl hend, .inl (toInt_done hlength h)⟩
  | succ fuel ih =>
    unfold readClusters
    split
    next hmore =>
      obtain ⟨hlt, hcluster⟩ := hmore
      have hlt' : c.done.toNat < length.toNat := hlt
      obtain ⟨k, rfl, hlo, hhi⟩ :=
        (hat.resolve_left fun he => BitVec.lt_irrefl _ (he ▸ hlt)).resolve_right
        fun hbad => by simp [hbad.1] at hcluster
      have hsectors := readSectors_spec (n := g.sectorsPerCluster.toNat) hg hfit (by omega) h hd
        (.inr (inSector_of_cluster hlo hhi))
      rw [first_sector hg]
      generalize readSectors g (chain g disk first k) length g.sectorsPerCluster.toNat
        (BitVec.ofNat 32 (c.position.toNat / 512 % g.sectorsPerCluster.toNat)) c = r at hsectors
      obtain ⟨b, c'⟩ := r
      have hd' : c'.dev.block.disk = disk := by rw [hsectors.later.block, hd]
      cases b with
      | false =>
        have hfail := hlater.failed (hsectors.failed rfl)
        refine ⟨hsectors.copied, hlater.trans hsectors.later, .inr hfail, ?_⟩
        dsimp only
        split
        next hz => exact .inr ⟨rfl, hz, hfail⟩
        next => exact .inl (toInt_done hlength hsectors.copied)
      | true =>
        dsimp only
        obtain ⟨hlater', hnext⟩ := nextCluster_spec hg hd' (chain g disk first k)
        generalize nextCluster g (chain g disk first k) c'.dev = r at hlater' hnext
        obtain ⟨cluster, dev⟩ := r
        have hended := hsectors.ended rfl
        have hposition := hsectors.copied.position
        dsimp only at hlater' hnext hended hposition ⊢
        refine ih ?_ (hsectors.copied.dev dev) (by rw [← hd', ← hlater'.block])
          ((hlater.trans hsectors.later).trans hlater') (hended.imp id fun hp => ?_)
        · have := h.position
          rcases hended with hend | hp
          · rw [hend]
            omega
          · dsimp only
            omega
        · rcases hnext with rfl | ⟨hbad, hfail⟩
          · refine .inl ⟨k + 1, rfl, hp.ge, ?_⟩
            have := hg.sectors_pos
            change c'.position.toNat < _
            rw [hp, Nat.add_mul (k + 1) 1, Fat32.clusterSize]
            omega
          · exact .inr ⟨hbad, (hlater.trans hsectors.later).failed hfail⟩
    next hstop =>
      refine ⟨h, hlater, ?_, .inl (toInt_done hlength h)⟩
      by_cases hend : c.done = length
      · exact .inl hend
      · have hlt : c.done < length := h.lt_of_ne hend
        rcases hat.resolve_left hend with ⟨k, rfl, hlo, -⟩ | ⟨-, hfail⟩
        · have := h.position
          have hlt' : c.done.toNat < length.toNat := hlt
          exact absurd ⟨hlt, hvalid k (by omega)⟩ hstop
        · exact .inr hfail

/-- What a call that asks for `length` bytes of `f` owes to its caller. -/
structure ReadsFile (g : Fat32) (disk : Word → Sector) (f : FatFile) (out : Nat → Byte)
    (length : Word) (d : Dev) (r : ReadResult) : Prop where
  /-- With every sector it asked for it returns all there is. -/
  complete : (∀ n, d.reads.length ≤ n → n < r.dev.reads.length → d.answers n = true) →
    r.rc = (min length.toNat (f.size.toNat - f.position.toNat) : Nat)
  /-- In any case it returns -1 and has done nothing, or the number of bytes that it has copied and
  that the position has moved by. -/
  counted : (r.rc = -1 ∧ r.file = f ∧ r.out = out) ∨ ∃ n : Nat, r.rc = n ∧
    n ≤ min length.toNat (f.size.toNat - f.position.toNat) ∧
    r.file = { f with position := BitVec.ofNat 32 (f.position.toNat + n) } ∧
    ∀ i, r.out i = if i < n then fileByte g disk f.firstCluster (f.position.toNat + i) else out i

variable {f : FatFile}

theorem readsFile_at_end (hend : f.size ≤ f.position) :
    ReadsFile g disk f out length d ⟨0, out, f, d⟩ := by
  have hzero : f.size.toNat - f.position.toNat = 0 := Nat.sub_eq_zero_of_le hend
  refine ⟨fun _ => ?_, .inr ⟨0, rfl, Nat.zero_le _, ?_, fun i => by simp⟩⟩
  · simp [hzero]
  · rw [Nat.add_zero, BitVec.ofNat_toNat, BitVec.setWidth_eq]

theorem read_length (hpos : f.position < f.size) (length : Word) :
    (if f.size - f.position < length then f.size - f.position else length).toNat =
      min length.toNat (f.size.toNat - f.position.toNat) := by
  have hrest : (f.size - f.position).toNat = f.size.toNat - f.position.toNat :=
    BitVec.toNat_sub_of_le (BitVec.le_of_lt hpos)
  split
  next h =>
    rw [BitVec.lt_def, hrest] at h
    omega
  next h =>
    rw [BitVec.lt_def, hrest] at h
    omega

theorem clusters_before (hg : g.Valid) (position : Word) :
    (position / (g.sectorsPerCluster * g.bytesPerSector)).toNat = position.toNat / g.clusterSize := by
  rw [hg.bytes, BitVec.toNat_udiv, BitVec.toNat_mul, Fat32.clusterSize]
  have := hg.sectors_lt
  congr 1
  exact Nat.mod_eq_of_lt (by change _ * 512 < _; omega)

theorem skipClusters_position (hg : g.Valid) (hlong : LongEnough g disk f)
    (hpos : f.position.toNat < f.size.toNat) (hd : d.block.disk = disk) {dev : Dev}
    (h : skipClusters g (f.position.toNat / g.clusterSize) f.firstCluster d = (cluster, dev)) :
    Later d dev ∧ AtCluster g disk f.firstCluster d dev cluster f.position.toNat := by
  have hcs : 0 < g.clusterSize := Nat.mul_pos hg.sectors_pos (by decide)
  have hlo := Nat.div_mul_le_self f.position.toNat g.clusterSize
  have hvalid : ∀ i, i < 0 + f.position.toNat / g.clusterSize →
      validCluster (chain g disk f.firstCluster i) = true := by
    intro i hi
    apply hlong
    have := Nat.mul_le_mul_right g.clusterSize (show i ≤ f.position.toNat / g.clusterSize by omega)
    omega
  obtain ⟨hlater, hcluster⟩ := skipClusters_spec f.firstCluster (k := 0) hg hd
  rw [chain, h] at hlater hcluster
  have hnone : ¬∃ i < 0 + f.position.toNat / g.clusterSize,
      validCluster (chain g disk f.firstCluster i) = false :=
    fun ⟨i, hi, hbad⟩ => by simp [hvalid i hi] at hbad
  refine ⟨hlater, hcluster.imp (fun hc => ⟨_, hc.1, ?_, ?_⟩) fun hc => ⟨hc.1, hc.2.resolve_right hnone⟩⟩
  · rwa [Nat.zero_add]
  · rw [Nat.zero_add, Nat.mul_comm]
    exact Nat.lt_mul_div_succ _ hcs

theorem fat32ReadFile_spec (hg : g.Valid) (hdir : f.directory = false) (hlong : LongEnough g disk f)
    (hlength : length.toNat < 2 ^ 31) (hd : d.block.disk = disk) :
    ReadsFile g disk f out length d (fat32ReadFile g f out length d) := by
  unfold fat32ReadFile
  split
  next hnone =>
    have hend : f.size ≤ f.position := by
      simpa [hg.mounted, hdir] using hnone
    exact readsFile_at_end hend
  next hsome =>
    have hpos : f.position.toNat < f.size.toNat := by
      simpa [hg.mounted, hdir, BitVec.le_def] using hsome
    have hsize := f.size.isLt
    have hn := read_length hpos length
    dsimp only
    rw [clusters_before hg]
    generalize (if f.size - f.position < length then f.size - f.position else length) = n at hn
    rcases hsk : skipClusters g (f.position.toNat / g.clusterSize) f.firstCluster d with ⟨cluster, dev⟩
    obtain ⟨hlater, hat⟩ := skipClusters_position hg hlong hpos hd hsk
    have hread : ClustersRead g disk f.firstCluster f.position.toNat out n d
        (readClusters g n n.toNat cluster { out, done := 0, position := f.position, dev }) := by
      refine readClusters_spec hg (by omega) (by omega) (fun i hi => hlong i (by omega))
        (by simp) ?_ ?_ hlater (.inr hat)
      · exact .initial f.position dev
      · rw [← hd, ← hlater.block]
    generalize readClusters g n n.toNat cluster { out, done := 0, position := f.position, dev } =
      r at hread
    obtain ⟨rc, c⟩ := r
    obtain ⟨hcopied, -, hended, hresult⟩ := hread
    have hle := hcopied.le
    have hp : c.position = BitVec.ofNat 32 (f.position.toNat + c.done.toNat) := by
      rw [← hcopied.position, BitVec.ofNat_toNat, BitVec.setWidth_eq]
    dsimp only at *
    refine ⟨fun hall => ?_, ?_⟩
    · have hnot : ¬ Failed d c.dev := by
        rintro ⟨m, hm, hlt, hfail⟩
        rw [hall m hm hlt] at hfail
        cases hfail
      obtain rfl := hended.resolve_right hnot
      rw [← hn]
      exact hresult.resolve_right fun h => hnot h.2.2
    · rcases hresult with rfl | ⟨rfl, hz, -⟩
      · exact .inr ⟨c.done.toNat, rfl, by omega, by rw [hp], hcopied.bytes⟩
      · refine .inl ⟨rfl, ?_, funext fun i => ?_⟩
        · rw [hp, hz]
          simp
        · simp [hcopied.bytes, hz]

/-! ## Any sequence of calls -/

structure FileRead where
  length : Word
  out : Nat → Byte
  ok : Nat → Bool

def fileReadStep (g : Fat32) (block : Block) (f : FatFile) (call : FileRead) : Option FatFile :=
  if call.length.toNat < 2 ^ 31 then
    some (fat32ReadFile g f call.out call.length { block, ok := call.ok, reads := [] }).file
  else none

theorem fileReadStep_same (hg : g.Valid) {block : Block} {f f' : FatFile} {call : FileRead}
    (hdir : f.directory = false) (hle : f.position ≤ f.size) (hlong : LongEnough g block.disk f)
    (h : fileReadStep g block f call = some f') :
    f' = { f with position := f'.position } ∧ f'.position ≤ f.size := by
  unfold fileReadStep at h
  split at h <;> cases h
  next hlength =>
    have hspec : ReadsFile g block.disk f call.out call.length { block, ok := call.ok, reads := [] } _ :=
      fat32ReadFile_spec hg hdir hlong hlength rfl
    have hle' : f.position.toNat ≤ f.size.toNat := hle
    rcases hspec.counted with ⟨-, hf, -⟩ | ⟨n, -, hn, hf, -⟩
    · rw [hf]
      exact ⟨rfl, hle⟩
    · rw [hf]
      refine ⟨rfl, ?_⟩
      have := f.size.isLt
      rw [BitVec.le_def, BitVec.toNat_ofNat, Nat.mod_eq_of_lt] <;> omega

end

/-- Whatever the calls before it were, a call on a mounted volume returns the bytes of the file that
come next. -/
theorem reads_return_file {g₀ g : Fat32} {d₀ d₁ : Dev} (hmount : fat32Mount g₀ d₀ = (true, g, d₁))
    {block : Block} {f₀ : FatFile} (hdir : f₀.directory = false) (hpos : f₀.position ≤ f₀.size)
    (hlong : LongEnough g block.disk f₀) {calls : List FileRead} {f : FatFile}
    (hrun : runs (fileReadStep g block) f₀ calls = some f) {length : Word}
    (hlength : length.toNat < 2 ^ 31) (out : Nat → Byte) {d : Dev} (hd : d.block = block) :
    f.firstCluster = f₀.firstCluster ∧ f.size = f₀.size ∧
      ReadsFile g block.disk f out length d (fat32ReadFile g f out length d) := by
  have hg := fat32Mount_valid hmount
  have hinv : f = { f₀ with position := f.position } ∧ f.position ≤ f₀.size := by
    refine runs_inv (fun f => f = { f₀ with position := f.position } ∧ f.position ≤ f₀.size) ?_
      ⟨rfl, hpos⟩ hrun
    rintro f call f' ⟨hf, hle⟩ hstep
    obtain ⟨hf', hle'⟩ := fileReadStep_same hg (by rw [hf]; exact hdir) (by rw [hf]; exact hle)
      (by rw [hf]; exact hlong) hstep
    rw [hf] at hf' hle'
    exact ⟨hf', hle'⟩
  obtain ⟨hf, -⟩ := hinv
  refine ⟨by rw [hf], by rw [hf],
    fat32ReadFile_spec hg (by rw [hf]; exact hdir) (by rw [hf]; exact hlong) hlength
    (by rw [hd])⟩

/-- A volume with clusters of two sectors, its table in sector 1, and a file in the clusters 3 and 4. -/
def twoClusterDisk : Word → Sector := fun lba i =>
  if lba = 0 then
    match i.val with
    | 12 | 13 => 2
    | 14 | 16 | 36 => 1
    | 44 => 2
    | _ => 0
  else if lba = 1 then
    match i.val with
    | 12 => 4
    | 16 | 17 | 18 => 0xff
    | 19 => 0x0f
    | _ => 0
  else lba.setWidth 8

def twoClusterDev : Dev := ⟨⟨true, true, twoClusterDisk⟩, fun _ => true, []⟩

def twoClusterFile : FatFile := ⟨3, 1500, 0, false⟩

def twoClusterVolume : Fat32 := ⟨0, 1, 2, 2, 512, 1, 2, true⟩

theorem reads_return_file_twice : ∃ d₁ f,
    fat32Mount ⟨0, 0, 0, 0, 0, 0, 0, false⟩ twoClusterDev = (true, twoClusterVolume, d₁) ∧
    runs (fileReadStep twoClusterVolume twoClusterDev.block) twoClusterFile
      [⟨700, fun _ => 0, fun _ => true⟩] = some f ∧
    f.position = 700 ∧ (fat32ReadFile twoClusterVolume f (fun _ => 0) 900 twoClusterDev).rc = 800 ∧
    ReadsFile twoClusterVolume twoClusterDisk f (fun _ => 0) 900 twoClusterDev
      (fat32ReadFile twoClusterVolume f (fun _ => 0) 900 twoClusterDev) := by
  have hmount : fat32Mount ⟨0, 0, 0, 0, 0, 0, 0, false⟩ twoClusterDev =
      (true, twoClusterVolume, (fat32Mount ⟨0, 0, 0, 0, 0, 0, 0, false⟩ twoClusterDev).2.2) :=
    Prod.ext (by decide +kernel) (Prod.ext (by decide +kernel) rfl)
  have hrun : runs (fileReadStep twoClusterVolume twoClusterDev.block) twoClusterFile
      [⟨700, fun _ => 0, fun _ => true⟩] = some ⟨3, 1500, 700, false⟩ := by
    decide +kernel
  refine ⟨_, _, hmount, hrun, rfl, by decide +kernel, ?_⟩
  refine (reads_return_file hmount rfl (by decide) (fun i hi => ?_) hrun (by decide) _ rfl).2.2
  obtain rfl | rfl : i = 0 ∨ i = 1 := by
    have : i * 1024 < 1500 := hi
    omega
  · decide +kernel
  · decide +kernel

end Ceblar
