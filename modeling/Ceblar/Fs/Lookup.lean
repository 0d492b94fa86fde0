import Ceblar.Fs.Termination

/-! # Looking up a path

What `fat32_open` finds depends on the disk only: on the first entry with the name among the
clusters that the scan can reach.
-/

namespace Ceblar

def Names (g : Fat32) (disk : Word → Sector) (path : List Byte) (f : FatFile) : Prop :=
  path.dropWhile (· == 0x2f) ≠ [] ∧ ∃ n, (∀ m < n, validCluster (chain g disk g.rootCluster m) = true) ∧
    scanList (.lookup (make83 (path.dropWhile (· == 0x2f)))) (rootEntries g disk n) 0 = .error (.found f)

section

variable {g : Fat32} {disk : Word → Sector} {d : Dev} {q : Query} {first : Word} {f : FatFile}
variable {index : Word} {path : List Byte}

theorem scanClusters_found (hg : g.Valid) (hd : d.block.disk = disk) {fuel k : Nat} {d' : Dev}
    (h : scanClusters g q fuel (chain g disk first k) (index, d) = some (.found f, d')) :
    ∃ n, (∀ m, k ≤ m → m < k + n → validCluster (chain g disk first m) = true) ∧
      scanList q ((List.range' k n).flatMap fun m => clusterEntries g disk (chain g disk first m)) index =
        .error (.found f) := by
  induction fuel generalizing k index d with
  | zero => cases h
  | succ fuel ih =>
    rw [scanClusters] at h
    split at h
    · rename_i hvalid
      cases hscan : scanCluster g q (chain g disk first k) (index, d) with
      | error r =>
        rw [hscan] at h
        cases h
        obtain ⟨d1, -, hlist | ⟨hfail, -⟩⟩ := scanCluster_spec hg hd q (chain g disk first k) index
        · refine ⟨1, fun m h1 h2 => ?_, ?_⟩
          · rwa [show m = k by omega]
          · rw [hscan] at hlist
            cases hentries : scanList q (clusterEntries g disk (chain g disk first k)) index with
            | error r =>
              rw [hentries] at hlist
              cases hlist
              simpa using hentries
            | ok i =>
              rw [hentries] at hlist
              cases hlist
        · rw [hscan] at hfail
          cases hfail
      | ok st =>
        obtain ⟨index', d1⟩ := st
        obtain ⟨hlater, hlist, -⟩ := scanCluster_ok hg hd hscan
        rw [hscan] at h
        dsimp only at h
        obtain ⟨hlater1, hnext⟩ :=
          nextCluster_spec (d := d1) hg (by rw [hlater.block, hd]) (chain g disk first k)
        generalize nextCluster g (chain g disk first k) d1 = r at hlater1 hnext h
        obtain ⟨next, d2⟩ := r
        dsimp only at hlater1 hnext h
        split at h
        · cases h
        · rcases hnext with rfl | ⟨hbad, -⟩
          · obtain ⟨n, hall, hrest⟩ := ih (k := k + 1) (by rw [hlater1.block, hlater.block, hd]) h
            refine ⟨n + 1, fun m h1 h2 => ?_, ?_⟩
            · rcases Nat.eq_or_lt_of_le h1 with rfl | hlt
              · exact hvalid
              · exact hall m hlt (by omega)
            · rw [List.range'_succ, List.flatMap_cons, scanList_append, hlist]
              exact hrest
          · cases fuel with
            | zero => cases h
            | succ fuel =>
              rw [scanClusters, if_neg (by simp [hbad])] at h
              cases h
    · cases h

theorem scanClusters_finds (hg : g.Valid) (hd : d.Answers) {n k : Nat} {r : ScanResult}
    (hvalid : ∀ m, k ≤ m → m < k + n → validCluster (chain g d.block.disk first m) = true)
    (hlist : scanList q
      ((List.range' k n).flatMap fun m => clusterEntries g d.block.disk (chain g d.block.disk first m))
      index = .error r) :
    ∃ d', scanClusters g q n (chain g d.block.disk first k) (index, d) = some (r, d') := by
  induction n generalizing k d index with
  | zero => cases hlist
  | succ n ih =>
    obtain ⟨d1, hlater, hscan⟩ := scanCluster_eq hg hd q (chain g d.block.disk first k) index
    rw [List.range'_succ, List.flatMap_cons, scanList_append] at hlist
    rw [scanClusters, if_pos (hvalid k le_rfl (by omega)), hscan]
    cases hfirst : scanList q (clusterEntries g d.block.disk (chain g d.block.disk first k)) index with
    | error r' =>
      rw [hfirst] at hlist
      cases hlist
      exact ⟨d1, rfl⟩
    | ok index' =>
      rw [hfirst] at hlist
      obtain ⟨d2, hlater2, hnext⟩ :=
        nextCluster_answered hg (hlater.answers hd) (chain g d.block.disk first k)
      have hblock := (hlater.trans hlater2).block
      have hn : n ≠ 0 := by
        rintro rfl
        cases hlist
      obtain ⟨d3, hrest⟩ := ih (k := k + 1) ((hlater.trans hlater2).answers hd)
        (by rw [hblock]; exact fun m h1 h2 => hvalid m (by omega) (by omega))
          (by rw [hblock]; exact hlist)
      rw [hblock] at hrest
      rw [hlater.block] at hnext
      dsimp only [withDev]
      rw [hnext]
      dsimp only
      rw [if_neg (show ¬_ ≤ fatEntry g d.block.disk (chain g d.block.disk first k) from
        not_eoc (hvalid (k + 1) (by omega) (by omega)))]
      exact ⟨d3, hrest⟩

theorem names_of_open (hg : g.Valid) (hd : d.block.disk = disk) {fuel : Nat} {d' : Dev}
    (h : fat32Open fuel g path d = some (.found f, d')) : Names g disk path f := by
  unfold fat32Open at h
  dsimp only at h
  split at h
  · cases h
  · rename_i hsome
    obtain ⟨n, hvalid, hlist⟩ := scanClusters_found (k := 0) hg hd h
    rw [← List.range_eq_range'] at hlist
    refine ⟨?_, n, fun m hm => hvalid m (Nat.zero_le _) (by omega), hlist⟩
    intro hnil
    rw [hnil] at hsome
    simp at hsome

theorem open_of_names (hg : g.Valid) (hd : d.Answers) (h : Names g d.block.disk path f) :
    ∃ fuel d', fat32Open fuel g path d = some (.found f, d') := by
  obtain ⟨hpath, n, hvalid, hlist⟩ := h
  unfold rootEntries at hlist
  rw [List.range_eq_range'] at hlist
  obtain ⟨d', hscan⟩ := scanClusters_finds (k := 0) hg hd
    (fun m _ hm => hvalid m (by omega)) hlist
  refine ⟨n, d', ?_⟩
  unfold fat32Open
  dsimp only
  rw [if_neg (by simpa [hg.mounted] using hpath)]
  exact hscan

theorem scanList_found {es : List DirEntry} (h : scanList q es index = .error (.found f)) :
    f.directory = false ∧ f.position = 0 ∧
      ∃ e ∈ es, f.firstCluster = e.le16 20 <<< 16 ||| e.le16 26 ∧ f.size = e.size := by
  induction es generalizing index with
  | nil => cases h
  | cons e es ih =>
    change scanEntry q index e >>= scanList q es = _ at h
    cases he : scanEntry q index e with
    | ok i =>
      rw [he] at h
      obtain ⟨hdir, hpos, x, hx, hsame⟩ := ih h
      exact ⟨hdir, hpos, x, List.mem_cons_of_mem _ hx, hsame⟩
    | error r =>
      rw [he] at h
      cases h
      unfold scanEntry at he
      split at he
      · cases he
      · split at he
        · cases he
        · split at he
          · split at he
            · split at he <;> cases he
            · cases he
          · split at he
            · split at he
              · cases he
                exact ⟨rfl, rfl, e, by simp, rfl, rfl⟩
              · cases he
            · cases he

theorem Names.found (h : Names g disk path f) : f.directory = false ∧ f.position = 0 ∧
    ∃ n, (∀ m < n, validCluster (chain g disk g.rootCluster m) = true) ∧
      ∃ e ∈ rootEntries g disk n, f.firstCluster = e.le16 20 <<< 16 ||| e.le16 26 ∧ f.size = e.size := by
  obtain ⟨-, n, hvalid, hlist⟩ := h
  obtain ⟨hdir, hpos, hentry⟩ := scanList_found hlist
  exact ⟨hdir, hpos, n, hvalid, hentry⟩

end

end Ceblar
