import Ceblar.Fs.Termination

/-! # The clusters that a call uses

What the loops of `fat32.c` pass to `next_cluster` and `cluster_lba`. The device reads nothing else,
also in a scan that never returns.
-/

namespace Ceblar

/-- `next_cluster(c)` or `cluster_lba(c)`. -/
inductive Access where
  | table (c : Word)
  | data (c : Word)
  deriving DecidableEq

/-- What the loop of `scan_root` passes to the two, in `fuel` rounds at most. -/
def scanAccesses (g : Fat32) (q : Query) : Nat → Word → Word × Dev → List Access
  | 0, _, _ => []
  | fuel + 1, cluster, st =>
    if validCluster cluster then
      .data cluster ::
        match scanCluster g q cluster st with
        | .error _ => []
        | .ok (index, d) =>
          let (next, d) := nextCluster g cluster d
          .table cluster :: if 0x0ffffff8 ≤ next then [] else scanAccesses g q fuel next (index, d)
    else []

def skipAccesses (g : Fat32) : Nat → Word → Dev → List Access
  | 0, _, _ => []
  | skip + 1, cluster, d =>
    if validCluster cluster then
      let (next, d) := nextCluster g cluster d
      .table cluster :: skipAccesses g skip next d
    else []

def readAccesses (g : Fat32) (length : Word) : Nat → Word → Copy → List Access
  | 0, _, _ => []
  | fuel + 1, cluster, c =>
    if c.done < length ∧ validCluster cluster then
      .data cluster ::
        match readSectors g cluster length g.sectorsPerCluster.toNat
            (c.position / g.bytesPerSector % g.sectorsPerCluster) c with
        | (false, _) => []
        | (true, c) =>
          let (next, dev) := nextCluster g cluster c.dev
          .table cluster :: readAccesses g length fuel next { c with dev }
    else []

def fileAccesses (g : Fat32) (f : FatFile) (out : Nat → Byte) (length : Word) (d : Dev) : List Access :=
  if g.mounted = false ∨ f.directory ∨ f.size ≤ f.position then []
  else
    let length := if f.size - f.position < length then f.size - f.position else length
    let skip := f.position / (g.sectorsPerCluster * g.bytesPerSector)
    let (cluster, dev) := skipClusters g skip.toNat f.firstCluster d
    skipAccesses g skip.toNat f.firstCluster d ++
      readAccesses g length length.toNat cluster { out, done := 0, position := f.position, dev }

inductive FatCall where
  | openPath (path : List Byte)
  | readdir (index cap : Word)
  | read (f : FatFile) (out : Nat → Byte) (length : Word)

/-- The clusters that a call uses, in the first `fuel` rounds of its scan. -/
def FatCall.accesses (g : Fat32) (fuel : Nat) (d : Dev) : FatCall → List Access
  | .openPath path =>
    let path := path.dropWhile (· == 0x2f)
    if !g.mounted ||
      path.isEmpty then [] else scanAccesses g (.lookup (make83 path)) fuel g.rootCluster (0, d)
  | .readdir index cap =>
    if !g.mounted || cap = 0 then [] else scanAccesses g (.list index cap) fuel g.rootCluster (0, d)
  | .read f out length => fileAccesses g f out length d

/-! ## The sectors that a call reads -/

def Access.Reads (g : Fat32) : Access → Word → Prop
  | .table c, lba => lba = g.fatLba + c * 4 / g.bytesPerSector
  | .data c, lba => ∃ s < g.sectorsPerCluster.toNat, lba = clusterLba g c + BitVec.ofNat 32 s

def ReadTrace (g : Fat32) (as : List Access) (d d' : Dev) : Prop :=
  ∃ l, d'.reads = l ++ d.reads ∧ ∀ lba ∈ l, ∃ a ∈ as, a.Reads g lba

/-- The device after the first `fuel` rounds of `scan_root`, which may have more to come. -/
def scanAfter (g : Fat32) (q : Query) : Nat → Word → Word × Dev → Dev
  | 0, _, st => st.2
  | fuel + 1, cluster, st =>
    if validCluster cluster then
      match scanCluster g q cluster st with
      | .error r => r.2
      | .ok (index, d) =>
        let (next, d) := nextCluster g cluster d
        if 0x0ffffff8 ≤ next then d else scanAfter g q fuel next (index, d)
    else st.2

/-- The device after the first `fuel` rounds of a call's scan. A read is over. -/
def FatCall.after (g : Fat32) (fuel : Nat) (d : Dev) : FatCall → Dev
  | .openPath path =>
    let path := path.dropWhile (· == 0x2f)
    if !g.mounted || path.isEmpty then d
    else scanAfter g (.lookup (make83 path)) fuel g.rootCluster (0, d)
  | .readdir index cap =>
    if !g.mounted || cap = 0 then d else scanAfter g (.list index cap) fuel g.rootCluster (0, d)
  | .read f out length => (fat32ReadFile g f out length d).dev

def FatCall.leaves (g : Fat32) (fuel : Nat) (d : Dev) : FatCall → Option Dev
  | .openPath path => (fat32Open fuel g path d).map Prod.snd
  | .readdir index cap => (fat32Readdir fuel g index cap d).map Prod.snd
  | .read f out length => some (fat32ReadFile g f out length d).dev

section

variable {g : Fat32} {as bs : List Access} {d d' d'' : Dev} {c : Word} {q : Query}

theorem ReadTrace.refl (as : List Access) (d : Dev) : ReadTrace g as d d := ⟨[], rfl, by simp⟩

theorem ReadTrace.trans (h : ReadTrace g as d d') (h' : ReadTrace g as d' d'') :
    ReadTrace g as d d'' := by
  obtain ⟨l, hl, hreads⟩ := h
  obtain ⟨l', hl', hreads'⟩ := h'
  refine ⟨l' ++ l, by rw [hl', hl, List.append_assoc], fun lba hmem => ?_⟩
  rcases List.mem_append.mp hmem with hmem | hmem
  · exact hreads' lba hmem
  · exact hreads lba hmem

theorem ReadTrace.mono (h : ReadTrace g as d d') (hsub : as ⊆ bs) : ReadTrace g bs d d' := by
  obtain ⟨l, hl, hreads⟩ := h
  refine ⟨l, hl, fun lba hmem => ?_⟩
  obtain ⟨a, ha, hlba⟩ := hreads lba hmem
  exact ⟨a, hsub ha, hlba⟩

theorem traced_read {a : Access} {lba : Word} (h : a.Reads g lba) (d : Dev) :
    ReadTrace g [a] d (d.read lba).2 :=
  ⟨[lba], rfl, by simpa using h⟩

theorem nextCluster_traced (c : Word) (d : Dev) : ReadTrace g [.table c] d (nextCluster g c d).2 := by
  have h := traced_read (g := g) (a := .table c) rfl d
  unfold nextCluster
  generalize d.read (g.fatLba + c * 4 / g.bytesPerSector) = r at h
  obtain ⟨_ | s, d'⟩ := r <;> exact h

theorem scanCluster_traced (st : Word × Dev) : Exits (fun r => ReadTrace g [.data c] st.2 r.2)
    (fun r => ReadTrace g [.data c] st.2 r.2) (scanCluster g q c st) := by
  refine forRangeE_exits _ _ (fun s hs st' h => ?_) (.refl _ _)
  have hread := h.trans (traced_read (a := .data c) ⟨s, hs, rfl⟩ st'.2)
  unfold scanRound
  generalize st'.2.read (clusterLba g c + BitVec.ofNat 32 s) = r at hread
  obtain ⟨_ | sector, d'⟩ := r
  · exact exits_error hread
  · dsimp only
    split
    · exact exits_error hread
    · exact exits_ok hread

theorem scanAfter_eq {fuel : Nat} {st : Word × Dev} {r : ScanResult × Dev}
    (h : scanClusters g q fuel c st = some r) : scanAfter g q fuel c st = r.2 := by
  induction fuel generalizing c st with
  | zero => cases h
  | succ fuel ih =>
    rw [scanClusters] at h
    rw [scanAfter]
    split at h
    · rename_i hc
      rw [if_pos hc]
      cases hr : scanCluster g q c st with
      | error e =>
        rw [hr] at h
        cases h
        rfl
      | ok st' =>
        rw [hr] at h
        dsimp only at h ⊢
        split at h
        · rename_i he
          rw [if_pos he]
          cases h
          rfl
        · rename_i he
          rw [if_neg he]
          exact ih h
    · rename_i hc
      rw [if_neg hc]
      cases h
      rfl

theorem scanAfter_traced (fuel : Nat) (st : Word × Dev) :
    ReadTrace g (scanAccesses g q fuel c st) st.2 (scanAfter g q fuel c st) := by
  induction fuel generalizing c st with
  | zero => exact .refl _ _
  | succ fuel ih =>
    have hscan := scanCluster_traced (g := g) (q := q) (c := c) st
    rw [scanAfter, scanAccesses]
    split
    · cases hr : scanCluster g q c st with
      | error e => exact hscan.error _ hr
      | ok st' =>
        have hnext := nextCluster_traced (g := g) c st'.2
        dsimp only
        generalize nextCluster g c st'.2 = n at hnext
        obtain ⟨next, d2⟩ := n
        dsimp only at hnext ⊢
        refine ((hscan.ok _ hr).mono (by simp)).trans ((hnext.mono (by simp)).trans ?_)
        split
        · exact .refl _ _
        · exact (ih (st'.1, d2)).mono fun a ha => by simp [ha]
    · exact .refl _ _

theorem skipClusters_traced (n : Nat) :
    ReadTrace g (skipAccesses g n c d) d (skipClusters g n c d).2 := by
  induction n generalizing c d with
  | zero => exact .refl _ _
  | succ n ih =>
    have hnext := nextCluster_traced (g := g) c d
    rw [skipAccesses, skipClusters]
    split
    · generalize nextCluster g c d = r at hnext
      obtain ⟨next, d'⟩ := r
      dsimp only at hnext ⊢
      exact (hnext.mono (by simp)).trans (ih.mono (by simp))
    · exact .refl _ _

theorem readSectors_traced (length : Word) (n : Nat) (s : Word) (copy : Copy) :
    ReadTrace g [.data c] copy.dev (readSectors g c length n s copy).2.dev := by
  induction n generalizing s copy with
  | zero => exact .refl _ _
  | succ n ih =>
    rw [readSectors]
    split
    · rename_i hmore
      have hreads : (Access.data c).Reads g (clusterLba g c + s) := ⟨s.toNat, hmore.1, by simp⟩
      have hread := traced_read hreads copy.dev
      generalize copy.dev.read (clusterLba g c + s) = r at hread
      obtain ⟨_ | sector, dev⟩ := r
      · exact hread
      · exact hread.trans (ih (s + 1) _)
    · exact .refl _ _

theorem readClusters_traced {length : Word} (fuel : Nat) (copy : Copy) :
    ReadTrace g (readAccesses g length fuel c copy) copy.dev
      (readClusters g length fuel c copy).2.dev := by
  induction fuel generalizing c copy with
  | zero => exact .refl _ _
  | succ fuel ih =>
    rw [readAccesses, readClusters]
    split
    · have hread := readSectors_traced (g := g) (c := c) length g.sectorsPerCluster.toNat
        (copy.position / g.bytesPerSector % g.sectorsPerCluster) copy
      generalize readSectors g c length g.sectorsPerCluster.toNat
        (copy.position / g.bytesPerSector % g.sectorsPerCluster) copy = r at hread
      obtain ⟨_ | _, copy'⟩ := r
      · exact hread
      · have hnext := nextCluster_traced (g := g) c copy'.dev
        dsimp only at hread ⊢
        generalize nextCluster g c copy'.dev = r at hnext
        obtain ⟨next, dev⟩ := r
        dsimp only at hnext ⊢
        refine (hread.mono (by simp)).trans ((hnext.mono (by simp)).trans ?_)
        exact (ih { copy' with dev }).mono fun a ha => by simp [ha]
    · exact .refl _ _

theorem call_after {call : FatCall} {fuel : Nat} (h : call.leaves g fuel d = some d') :
    call.after g fuel d = d' := by
  cases call with
  | openPath path =>
    obtain ⟨r, hr, rfl⟩ := Option.map_eq_some_iff.mp h
    unfold fat32Open at hr
    unfold FatCall.after
    dsimp only at hr ⊢
    split at hr
    · rename_i hc
      rw [if_pos hc]
      cases hr
      rfl
    · rename_i hc
      rw [if_neg hc]
      exact scanAfter_eq hr
  | readdir index cap =>
    obtain ⟨r, hr, rfl⟩ := Option.map_eq_some_iff.mp h
    unfold fat32Readdir at hr
    unfold FatCall.after
    dsimp only
    split at hr
    · rename_i hc
      rw [if_pos hc]
      cases hr
      rfl
    · rename_i hc
      rw [if_neg hc]
      exact scanAfter_eq hr
  | read f out length => exact Option.some.inj h

theorem call_traced (call : FatCall) (fuel : Nat) (d : Dev) :
    ReadTrace g (call.accesses g fuel d) d (call.after g fuel d) := by
  cases call with
  | openPath path =>
    unfold FatCall.accesses FatCall.after
    dsimp only
    split
    · exact .refl _ _
    · exact scanAfter_traced fuel (0, d)
  | readdir index cap =>
    unfold FatCall.accesses FatCall.after
    dsimp only
    split
    · exact .refl _ _
    · exact scanAfter_traced fuel (0, d)
  | read f out length =>
    change ReadTrace g (fileAccesses g f out length d) d (fat32ReadFile g f out length d).dev
    unfold fileAccesses fat32ReadFile
    split
    · exact .refl _ _
    · dsimp only
      refine ((skipClusters_traced _).mono (List.subset_append_left _ _)).trans ?_
      exact (readClusters_traced _ _).mono (List.subset_append_right _ _)

end

end Ceblar
