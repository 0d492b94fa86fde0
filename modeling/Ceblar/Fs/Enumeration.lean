import Ceblar.Fs.Directory
import Mathlib.Data.Fintype.EquivFin

/-! # Listing the root directory

On a device that answers, the scan of a chain that ends is a scan of its entries in order.
-/

namespace Ceblar

structure ChainEnds (g : Fat32) (disk : Word → Sector) (first : Word) (n : Nat) : Prop where
  valid : ∀ m < n, validCluster (chain g disk first m) = true
  last : validCluster (chain g disk first n) = false

def Acyclic (g : Fat32) (disk : Word → Sector) (first : Word) : Prop :=
  ∀ i j, i < j → (∀ m ≤ j, validCluster (chain g disk first m) = true) →
    chain g disk first i ≠ chain g disk first j

def rootEntries (g : Fat32) (disk : Word → Sector) (n : Nat) : List DirEntry :=
  (List.range n).flatMap fun m => clusterEntries g disk (chain g disk g.rootCluster m)

def liveEntries (es : List DirEntry) : List DirEntry := (es.takeWhile (· 0 != 0)).filter (!·.skipped)

section

variable {g : Fat32} {disk : Word → Sector} {first : Word} {q : Query} {d : Dev}
variable {n : Nat} {c : Word} {st : Word × Dev} {r : ScanResult × Dev}

theorem Acyclic.ends (h : Acyclic g disk first) : ∃ n, ChainEnds g disk first n := by
  by_cases hall : ∀ m, validCluster (chain g disk first m) = true
  · have hinj : Function.Injective fun m => (chain g disk first m).toFin := by
      intro i j hij
      have he : chain g disk first i = chain g disk first j := BitVec.eq_of_toFin_eq hij
      rcases Nat.lt_trichotomy i j with hlt | heq | hlt
      · exact absurd he (h i j hlt fun m _ => hall m)
      · exact heq
      · exact absurd he.symm (h j i hlt fun m _ => hall m)
    exact absurd hinj (not_injective_infinite_finite _)
  · push Not at hall
    have hex : ∃ m, validCluster (chain g disk first m) = false := by
      obtain ⟨m, hm⟩ := hall
      exact ⟨m, by simpa using hm⟩
    refine ⟨Nat.find hex, fun m hm => ?_, Nat.find_spec hex⟩
    simpa using Nat.find_min hex hm

theorem ChainEnds.unique {m : Nat} (hn : ChainEnds g disk first n) (hm : ChainEnds g disk first m) :
    n = m := by
  rcases Nat.lt_trichotomy n m with h | h | h
  · exact absurd (hm.valid n h) (by simp [hn.last])
  · exact h
  · exact absurd (hn.valid m h) (by simp [hm.last])

/-! ## The whole scan -/

def scanResult : Except ScanResult Word → ScanResult
  | .error r => r
  | .ok _ => .failed

theorem scanClusters_mono {fuel : Nat}
    (h : scanClusters g q fuel c st = some r) (k : Nat) : scanClusters g q (fuel + k) c st = some r := by
  induction fuel generalizing c st with
  | zero => cases h
  | succ fuel ih =>
    rw [Nat.add_right_comm]
    unfold scanClusters at h ⊢
    split
    · rename_i hc
      rw [if_pos hc] at h
      cases hscan : scanCluster g q c st with
      | error e =>
        rw [hscan] at h
        exact h
      | ok st' =>
        rw [hscan] at h
        dsimp only at h ⊢
        split
        · rename_i he
          rwa [if_pos he] at h
        · rename_i he
          rw [if_neg he] at h
          exact ih h
    · rename_i hc
      rwa [if_neg hc] at h

theorem scanClusters_unique {f f' : Nat} {r' : ScanResult × Dev}
    (h : scanClusters g q f c st = some r) (h' : scanClusters g q f' c st = some r') : r = r' := by
  have h1 := scanClusters_mono h f'
  have h2 := scanClusters_mono h' f
  rw [Nat.add_comm f' f, h1] at h2
  exact Option.some.inj h2

theorem not_valid_of_eoc (h : (0x0ffffff8 : Word) ≤ c) : validCluster c = false := by
  have hlt : ¬c ≤ (0x0ffffff6 : Word) := by
    rw [BitVec.le_def] at h ⊢
    have : (0x0ffffff8 : Word).toNat = 0x0ffffff8 := rfl
    have : (0x0ffffff6 : Word).toNat = 0x0ffffff6 := rfl
    omega
  unfold validCluster
  rw [decide_eq_false hlt, Bool.and_false]

theorem scanClusters_eq (hg : g.Valid) (hd : d.Answers) {k : Nat}
    (hends : ChainEnds g d.block.disk first (k + n)) (index : Word) :
    ∃ d', scanClusters g q (n + 1) (chain g d.block.disk first k) (index, d) =
      some (scanResult (scanList q ((List.range' k n).flatMap fun m =>
        clusterEntries g d.block.disk (chain g d.block.disk first m)) index), d') := by
  induction n generalizing k d index with
  | zero =>
    refine ⟨d, ?_⟩
    have hlast : validCluster (chain g d.block.disk first k) = false := hends.last
    rw [scanClusters, if_neg (by simp [hlast])]
    rfl
  | succ n ih =>
    obtain ⟨d1, hlater, hscan⟩ := scanCluster_eq hg hd q (chain g d.block.disk first k) index
    rw [scanClusters, if_pos (hends.valid k (by omega)), hscan, List.range'_succ, List.flatMap_cons,
      scanList_append]
    cases scanList q (clusterEntries g d.block.disk (chain g d.block.disk first k)) index with
    | error r => exact ⟨d1, rfl⟩
    | ok index' =>
      obtain ⟨d2, hlater2, hnext⟩ :=
        nextCluster_answered hg (hlater.answers hd) (chain g d.block.disk first k)
      have hchain : fatEntry g d1.block.disk (chain g d.block.disk first k) =
          chain g d.block.disk first (k + 1) := by
        rw [hlater.block]
        rfl
      have hdisk : d2.block.disk = d.block.disk := by rw [hlater2.block, hlater.block]
      obtain ⟨d3, hrest⟩ := ih (d := d2) (k := k + 1) ((hlater.trans hlater2).answers hd)
        (by rwa [hdisk, show k + 1 + n = k + (n + 1) by omega]) index'
      rw [hdisk] at hrest
      dsimp only [withDev]
      rw [hnext, hchain]
      dsimp only
      split
      · -- the link that ends the chain: no cluster is left
        rename_i heoc
        obtain rfl : n = 0 := by
          by_contra hn
          have hvalid := hends.valid (k + 1) (by omega)
          rw [not_valid_of_eoc heoc] at hvalid
          cases hvalid
        exact ⟨d2, rfl⟩
      · exact ⟨d3, hrest⟩

theorem scanRoot_eq (hg : g.Valid) (hd : d.Answers) (hends : ChainEnds g d.block.disk g.rootCluster n) :
    ∃ d', scanRoot (n + 1) g q d =
      some (scanResult (scanList q (rootEntries g d.block.disk n) 0), d') := by
  have h := scanClusters_eq (q := q) (k := 0) hg hd ((Nat.zero_add n).symm ▸ hends) 0
  rw [← List.range_eq_range'] at h
  exact h

def dirAt (wanted : Word) : List DirEntry → Word → Option DirEntry
  | [], _ => none
  | e :: es, index => if e.isDir ∧ wanted = index then some e else dirAt wanted es (index + 1)

theorem scanList_list (wanted cap index : Word) (es : List DirEntry) :
    scanResult (scanList (.list wanted cap) es index) =
      match dirAt wanted (liveEntries es) index with
      | some e => .listed (shortName e cap) e.size
      | none => .failed := by
  induction es generalizing index with
  | nil => rfl
  | cons e es ih =>
    change scanResult (scanEntry (.list wanted cap) index e >>= scanList (.list wanted cap) es) = _
    unfold scanEntry
    by_cases hend : e 0 = 0
    · simp [hend, liveEntries, dirAt, bind, Except.bind, scanResult]
    · have hkeep : (e 0 != 0) = true := by simpa using hend
      rw [if_neg hend]
      by_cases hskip : e.skipped = true
      · have hlive : liveEntries (e :: es) = liveEntries es := by
          unfold liveEntries
          rw [List.takeWhile_cons, if_pos hkeep, List.filter_cons, if_neg (by simp [hskip])]
        rw [if_pos hskip, hlive]
        exact ih index
      · have hlive : liveEntries (e :: es) = e :: liveEntries es := by
          unfold liveEntries
          rw [List.takeWhile_cons, if_pos hkeep, List.filter_cons, if_pos (by simpa using hskip)]
        rw [if_neg hskip, hlive, dirAt]
        by_cases hdir : e.isDir = true
        · by_cases hidx : wanted = index
          · simp [hdir, hidx, bind, Except.bind, scanResult]
          · simpa [hdir, hidx, bind, Except.bind] using ih (index + 1)
        · simpa [hdir, bind, Except.bind] using ih (index + 1)

theorem dirAt_eq_some {wanted index : Word} {es : List DirEntry} {e : DirEntry} :
    dirAt wanted es index = some e ↔ ∃ m, es[m]? = some e ∧ e.isDir = true ∧
    wanted = index + BitVec.ofNat 32 m ∧
      ∀ m' < m, ∀ e', es[m']? = some e' → wanted = index + BitVec.ofNat 32 m' → e'.isDir = false := by
  induction es generalizing index with
  | nil => simp [dirAt]
  | cons x es ih =>
    have hshift : ∀ m, index + BitVec.ofNat 32 (m + 1) = index + 1 + BitVec.ofNat 32 m := by
      intro m
      rw [BitVec.ofNat_add, BitVec.add_comm (BitVec.ofNat 32 m), ← BitVec.add_assoc]
      rfl
    rw [dirAt]
    split
    · rename_i hx
      constructor
      · rintro h
        cases h
        exact ⟨0, rfl, hx.1, by simp [hx.2], by simp⟩
      · rintro ⟨m, hm, -, -, hfirst⟩
        cases m with
        | zero => exact hm
        | succ m =>
          have := hfirst 0 (by omega) x rfl (by simp [hx.2])
          rw [hx.1] at this
          cases this
    · rename_i hx
      rw [ih]
      constructor
      · rintro ⟨m, hm, hdir, hidx, hfirst⟩
        refine ⟨m + 1, hm, hdir, by rw [hshift]; exact hidx, fun m' hm' e' he' hi => ?_⟩
        cases m' with
        | zero =>
          cases he'
          simpa using fun hd => hx ⟨hd, by simpa using hi⟩
        | succ m' => exact hfirst m' (by omega) e' he' (by rw [← hshift]; exact hi)
      · rintro ⟨m, hm, hdir, hidx, hfirst⟩
        cases m with
        | zero =>
          cases hm
          exact absurd ⟨hdir, by simpa using hidx⟩ hx
        | succ m =>
          refine ⟨m, hm, hdir, by rw [← hshift]; exact hidx, fun m' hm' e' he' hi => ?_⟩
          exact hfirst (m' + 1) (by omega) e' he' (by rw [hshift]; exact hi)

end

/-! ## What it owes -/

def DirEntry.shown (e : DirEntry) (cap : Word) : ScanResult :=
  .listed (e.name83.take (cap.toNat - 1) ++ [0]) e.size

def listing (live : List DirEntry) (i cap : Word) : ScanResult :=
  match live[i.toNat]? with
  | some e => e.shown cap
  | none => .failed

/-- The entry at `i`, if there is one, is a directory. The other case takes a list of more than 2^32
entries: the first directory whose place is `i` modulo 2^32 gives the same answer. -/
def Listable (live : List DirEntry) (i cap : Word) : Prop :=
  ∀ e, live[i.toNat]? = some e → e.isDir = true ∨
    ∃ m e', i.toNat < m ∧ m % 2 ^ 32 = i.toNat ∧ live[m]? = some e' ∧ e'.isDir = true ∧
      (∀ m' < m, ∀ e'', live[m']? = some e'' → m' % 2 ^ 32 = i.toNat → e''.isDir = false) ∧
      e'.shown cap = e.shown cap

theorem ofNat_eq_iff {i : Word} {m : Nat} : i = 0 + BitVec.ofNat 32 m ↔ m % 2 ^ 32 = i.toNat := by
  change i = 0#32 + _ ↔ _
  rw [BitVec.zero_add, ← BitVec.toNat_inj, BitVec.toNat_ofNat]
  exact eq_comm

theorem listing_iff {live : List DirEntry} {i cap : Word} :
    (match dirAt i live 0 with | some e => e.shown cap | none => .failed) = listing live i cap ↔
    Listable live i cap := by
  have hlt := i.isLt
  constructor
  · intro h e he
    unfold listing at h
    rw [he] at h
    cases hdir : dirAt i live 0 with
    | none =>
      rw [hdir] at h
      cases h
    | some e' =>
      rw [hdir] at h
      obtain ⟨m, hm, hd, hidx, hfirst⟩ := dirAt_eq_some.mp hdir
      have hmod := ofNat_eq_iff.mp hidx
      rcases Nat.lt_trichotomy m i.toNat with hmi | rfl | hmi
      · rw [Nat.mod_eq_of_lt (by omega)] at hmod
        omega
      · rw [hm] at he
        cases he
        exact .inl hd
      · exact .inr ⟨m, e', hmi, hmod, hm, hd,
          fun m' hm' e'' he'' hi => hfirst m' hm' e'' he'' (ofNat_eq_iff.mpr hi), h⟩
  · intro h
    unfold listing
    cases hi : live[i.toNat]? with
    | none =>
      have hnone : dirAt i live 0 = none := by
        rw [Option.eq_none_iff_forall_ne_some]
        intro e' hdir
        obtain ⟨m, hm, -, hidx, -⟩ := dirAt_eq_some.mp hdir
        have hmlt := (List.getElem?_eq_some_iff.mp hm).1
        have hle := List.getElem?_eq_none_iff.mp hi
        have hmod := ofNat_eq_iff.mp hidx
        rw [Nat.mod_eq_of_lt (by omega)] at hmod
        omega
      rw [hnone]
    | some e =>
      rcases h e hi with hd | ⟨m, e', hmi, hmod, hm, hd, hfirst, hsame⟩
      · have hdir : dirAt i live 0 = some e := by
          refine dirAt_eq_some.mpr
            ⟨i.toNat, hi, hd, ofNat_eq_iff.mpr (Nat.mod_eq_of_lt hlt), fun m' hm' e' _ hidx => ?_⟩
          have hmod := ofNat_eq_iff.mp hidx
          rw [Nat.mod_eq_of_lt (by omega)] at hmod
          omega
        rw [hdir]
      · have hdir : dirAt i live 0 = some e' :=
          dirAt_eq_some.mpr ⟨m, hm, hd, ofNat_eq_iff.mpr hmod, fun m' hm' e'' he'' hidx =>
            hfirst m' hm' e'' he'' (ofNat_eq_iff.mp hidx)⟩
        rw [hdir]
        exact hsame

/-- On a mounted volume whose root directory ends, and a device that answers: `fat32_readdir` returns
entry `i`, or -1 beyond the last one, exactly if entry `i` is not a file. -/
theorem readdir_complete_iff {g₀ g : Fat32} {d₀ d₁ : Dev}
    (hmount : fat32Mount g₀ d₀ = (true, g, d₁)) {d : Dev} (hd : d.Answers)
    (hacyclic : Acyclic g d.block.disk g.rootCluster) (i : Word) {cap : Word} (hcap : cap ≠ 0) :
    ∃ n, ChainEnds g d.block.disk g.rootCluster n ∧
      ((∃ fuel d', fat32Readdir fuel g i cap d =
          some (listing (liveEntries (rootEntries g d.block.disk n)) i cap, d')) ↔
        Listable (liveEntries (rootEntries g d.block.disk n)) i cap) := by
  have hg := fat32Mount_valid hmount
  obtain ⟨n, hends⟩ := hacyclic.ends
  refine ⟨n, hends, ?_⟩
  obtain ⟨d', hscan⟩ := scanRoot_eq (q := .list i cap) hg hd hends
  rw [scanList_list] at hscan
  simp only [shortName_eq _ hcap] at hscan
  rw [← listing_iff]
  have hcall : ∀ fuel, fat32Readdir fuel g i cap d = scanRoot fuel g (.list i cap) d := fun fuel => by
    unfold fat32Readdir
    rw [hg.mounted, if_neg (by simpa using hcap)]
  constructor
  · rintro ⟨fuel, d2, h⟩
    rw [hcall] at h
    exact congrArg Prod.fst (scanClusters_unique hscan h)
  · intro h
    refine ⟨n + 1, d', ?_⟩
    rw [hcall, ← h]
    exact hscan

/-- A volume like `twoClusterDisk` with a file `A` and a directory `B` in its root directory. -/
def letterDisk : Word → Sector := fun lba i =>
  if lba = 0 then twoClusterDisk 0 i
  else if lba = 2 then
    match i.val with
    | 0 => 0x41
    | 11 => 0x20
    | 28 => 5
    | 32 => 0x42
    | 43 => 0x10
    | n => if n < 11 ∨ 32 < n ∧ n < 43 then 0x20 else 0
  else 0

def letterDev : Dev := ⟨⟨true, true, letterDisk⟩, fun _ => true, []⟩

theorem letterDev_mounts :
    ∃ d₁, fat32Mount ⟨0, 0, 0, 0, 0, 0, 0, false⟩ letterDev = (true, twoClusterVolume, d₁) :=
  ⟨_, Prod.ext (by decide +kernel) (Prod.ext (by decide +kernel) rfl)⟩

theorem letterDev_answers : letterDev.Answers := fun _ => rfl

theorem letterDisk_ends : ChainEnds twoClusterVolume letterDisk 2 1 := by
  refine ⟨fun m hm => ?_, by decide +kernel⟩
  obtain rfl : m = 0 := by omega
  decide +kernel

theorem letterDisk_acyclic : Acyclic twoClusterVolume letterDisk 2 := by
  intro i j hij hall
  have hlast := letterDisk_ends.last
  rw [hall 1 (by omega)] at hlast
  cases hlast

theorem readdir_complete_iff_letters :
    ∃ fuel d', fat32Readdir fuel twoClusterVolume 1 13 letterDev = some (.listed [0x42, 0] 0, d') := by
  obtain ⟨d₁, hmount⟩ := letterDev_mounts
  obtain ⟨n, hends, h⟩ := readdir_complete_iff hmount letterDev_answers letterDisk_acyclic 1
    (show (13 : Word) ≠ 0 by decide)
  obtain rfl := hends.unique letterDisk_ends
  obtain ⟨fuel, d', hlist⟩ := h.mpr fun e he => .inl (by
    have hdir : (liveEntries (rootEntries twoClusterVolume letterDisk 1))[1]?.map DirEntry.isDir =
      some true := by
      decide +kernel
    exact Option.some.inj ((congrArg (Option.map DirEntry.isDir) he).symm.trans hdir))
  refine ⟨fuel, d', hlist.trans ?_⟩
  have hshown : listing (liveEntries (rootEntries twoClusterVolume letterDisk 1)) 1 13 =
      .listed [0x42, 0] 0 := by
    decide +kernel
  exact congrArg (fun r => some (r, d')) hshown

/-- The file is the first of two entries, but there is none at index 0. -/
theorem file_not_listed :
    (∃ d₁, fat32Mount ⟨0, 0, 0, 0, 0, 0, 0, false⟩ letterDev = (true, twoClusterVolume, d₁)) ∧
    letterDev.Answers ∧ Acyclic twoClusterVolume letterDisk 2 ∧
    ChainEnds twoClusterVolume letterDisk 2 1 ∧
    listing (liveEntries (rootEntries twoClusterVolume letterDisk 1)) 0 13 = .listed [0x41, 0] 5 ∧
    (fat32Readdir 2 twoClusterVolume 0 13 letterDev).map Prod.fst = some .failed :=
  ⟨letterDev_mounts, letterDev_answers, letterDisk_acyclic,
    letterDisk_ends, by decide +kernel, by decide +kernel⟩

end Ceblar
