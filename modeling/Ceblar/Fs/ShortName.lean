import Ceblar.Fs.Lookup

/-! # The names that `fat32_open` takes

A short name has two encodings: the text that a path spells and the eleven bytes of a directory
entry.
-/

namespace Ceblar

/-! ## Short names -/

def NameChar (c : Byte) : Prop := c ≠ 0 ∧ c ≠ 0x20 ∧ c ≠ 0x2e ∧ c ≠ 0x2f ∧ upper c = c

structure ShortName where
  base : List Byte
  ext : List Byte
  base_pos : base ≠ []
  base_le : base.length ≤ 8
  ext_le : ext.length ≤ 3
  base_char : ∀ c ∈ base, NameChar c
  ext_char : ∀ c ∈ ext, NameChar c

def ShortName.text (n : ShortName) : List Byte := n.base ++ if n.ext = [] then [] else 0x2e :: n.ext

def ShortName.bytes (n : ShortName) : List Byte :=
  n.base ++ List.replicate (8 - n.base.length) 0x20 ++ n.ext ++ List.replicate (3 - n.ext.length) 0x20

theorem name_le_entry : 11 ≤ 32 := by decide

def DirEntry.stored (d : DirEntry) : List Byte := List.ofFn fun i : Fin 11 => d (i.castLE name_le_entry)

/-- The path is the name of the entry, case aside. An entry whose bytes hold no name has none. -/
def Spells (path : List Byte) (d : DirEntry) : Prop :=
  ∃ n : ShortName, d.stored = n.bytes ∧ path.map upper = n.text

section

variable {n n' : ShortName} {d : DirEntry} {p : List Byte} {l : List Byte}

theorem map_upper_of_char (h : ∀ c ∈ l, NameChar c) : l.map upper = l := by
  exact (List.map_congr_left fun c hc => (h c hc).2.2.2.2).trans (List.map_id l)

theorem ShortName.text_upper (n : ShortName) : n.text.map upper = n.text := by
  unfold ShortName.text
  rw [List.map_append, map_upper_of_char n.base_char]
  split
  · rfl
  · rw [List.map_cons, map_upper_of_char n.ext_char]
    rfl

theorem ShortName.text_ne_nil (n : ShortName) : n.text ≠ [] := by
  simp [ShortName.text, n.base_pos]

/-! ## The two encodings -/

theorem takeWhile_padded (h : ∀ c ∈ l, NameChar c) (k : Nat) :
    (l ++ List.replicate k 0x20).takeWhile (· != 0x20) = l := by
  rw [List.takeWhile_append_of_pos fun c hc => by simpa using (h c hc).2.1]
  cases k with
  | zero => simp
  | succ k => simp [List.replicate_succ]

theorem ShortName.padded_length {k : Nat} (h : l.length ≤ k) :
    (l ++ List.replicate (k - l.length) 0x20).length = k := by
  rw [List.length_append, List.length_replicate]
  omega

theorem ShortName.ext_eq (hb : n.base = n'.base) (he : n.ext = n'.ext) : n = n' := by
  cases n
  cases n'
  cases hb
  cases he
  rfl

theorem ShortName.bytes_inj (h : n.bytes = n'.bytes) : n = n' := by
  unfold ShortName.bytes at h
  rw [List.append_assoc _ n.ext, List.append_assoc _ n'.ext] at h
  obtain ⟨hbase, hext⟩ := List.append_inj h (by rw [padded_length n.base_le, padded_length n'.base_le])
  refine ext_eq ?_ ?_
  · rw [← takeWhile_padded n.base_char, hbase, takeWhile_padded n'.base_char]
  · rw [← takeWhile_padded n.ext_char, hext, takeWhile_padded n'.ext_char]

theorem stored_chars (d : DirEntry) : d.stored =
    ((List.range 8).map fun i => d (Fin.ofNat 32 (0 + i))) ++ (List.range 3).map fun i => d
      (Fin.ofNat 32 (8 + i)) := rfl

theorem name83_of_stored (h : d.stored = n.bytes) : d.name83 = n.text := by
  rw [stored_chars, ShortName.bytes, List.append_assoc _ n.ext] at h
  obtain ⟨hbase, hext⟩ := List.append_inj h (by rw [ShortName.padded_length n.base_le]; simp)
  have hdot : d 8 = 0x20 ↔ n.ext = [] := by
    have hfirst : d 8 = (n.ext ++ List.replicate (3 - n.ext.length) 0x20).headD 0 := by rw [← hext]; rfl
    rw [hfirst]
    cases hn : n.ext with
    | nil => simp
    | cons c ext => simpa using (n.ext_char c (by simp [hn])).2.1
  unfold DirEntry.name83 ShortName.text
  simp only
  rw [hbase, hext, takeWhile_padded n.base_char, takeWhile_padded n.ext_char]
  by_cases hnone : n.ext = []
  · rw [if_neg (not_not.mpr (hdot.mpr hnone)), if_pos hnone]
  · rw [if_pos (mt hdot.mp hnone), if_neg hnone]

/-! ## `make_83` -/

theorem NameChar.not_end {c : Byte} (h : NameChar (upper c)) : ¬(c = 0 ∨ c = 0x2f) := by
  rintro (rfl | rfl)
  · exact h.1 rfl
  · exact h.2.2.2.1 rfl

theorem nameChars_base (rest : List Byte) (h : ∀ c ∈ l, NameChar (upper c)) {fuel : Nat}
    (hfuel : l.length ≤ fuel) : nameChars fuel (l ++ rest) =
      (l.map upper ++ (nameChars (fuel - l.length) rest).1, (nameChars (fuel - l.length) rest).2) := by
  induction l generalizing fuel with
  | nil => rfl
  | cons c l ih =>
    obtain ⟨fuel, rfl⟩ : ∃ k, fuel = k + 1 := ⟨fuel - 1, by simp at hfuel; omega⟩
    have hc := h c (by simp)
    simp only [List.length_cons] at hfuel
    rw [List.cons_append, nameChars, if_neg hc.not_end, if_pos hc.2.2.1,
      ih (fun x hx => h x (by simp [hx])) (by omega)]
    simp

theorem extChars_ext (h : ∀ c ∈ l, NameChar (upper c)) {fuel : Nat} (hfuel : l.length ≤ fuel) :
    extChars fuel l = l.map upper := by
  induction l generalizing fuel with
  | nil => cases fuel <;> rfl
  | cons c l ih =>
    obtain ⟨fuel, rfl⟩ : ∃ k, fuel = k + 1 := ⟨fuel - 1, by simp at hfuel; omega⟩
    have hc := h c (by simp)
    simp only [List.length_cons] at hfuel
    rw [extChars, if_neg hc.not_end, ih (fun x hx => h x (by simp [hx])) (by omega), List.map_cons]

theorem upper_eq_dot {c : Byte} (h : upper c = 0x2e) : c = 0x2e := by
  revert c
  decide

def skipDot : List Byte → List Byte
  | 0x2e :: p => p
  | p => p

theorem make83_eq (p : List Byte) : make83 p =
    (nameChars 8 p).1 ++ List.replicate (8 - (nameChars 8 p).1.length) 0x20 ++ extChars 3
      (skipDot (nameChars 8 p).2) ++
      List.replicate (3 - (extChars 3 (skipDot (nameChars 8 p).2)).length) 0x20 := rfl

theorem skipDot_of_char (h : ∀ c ∈ l, NameChar (upper c)) : skipDot l = l := by
  unfold skipDot
  split
  · exact absurd rfl (h 0x2e (by simp)).2.2.1
  · rfl

theorem skipDot_nameChars (h : ∀ c ∈ l, NameChar (upper c)) (fuel : Nat) :
    (nameChars fuel (0x2e :: l)).1 = [] ∧ skipDot (nameChars fuel (0x2e :: l)).2 = l := by
  cases fuel with
  | zero => exact ⟨rfl, rfl⟩
  | succ fuel => exact ⟨rfl, skipDot_of_char h⟩

theorem make83_of_spelled (h : p.map upper = n.text) : make83 p = n.bytes := by
  obtain ⟨b, rest, rfl, hb, hrest⟩ := List.map_eq_append_iff.mp h
  have hchars : ∀ {l m : List Byte}, l.map upper = m →
      (∀ c ∈ m, NameChar c) → ∀ c ∈ l, NameChar (upper c) := by
    rintro l m rfl hm c hc
    exact hm _ (List.mem_map_of_mem hc)
  have hlen : b.length = n.base.length := by rw [← hb, List.length_map]
  have hname := nameChars_base rest (hchars hb n.base_char) (hlen ▸ n.base_le)
  rw [hb] at hname
  rw [make83_eq, hname, ShortName.bytes]
  split at hrest
  · rename_i hext
    cases List.map_eq_nil_iff.mp hrest
    have hend : nameChars (8 - b.length) [] = ([], []) := by cases 8 - b.length <;> rfl
    have hnone : extChars 3 (skipDot []) = [] := rfl
    simp only [hend, hnone, List.append_nil, hext]
  · obtain ⟨c, x, rfl, hc, hx⟩ := List.map_eq_cons_iff.mp hrest
    cases upper_eq_dot hc
    obtain ⟨h1, h2⟩ := skipDot_nameChars (hchars hx n.ext_char) (8 - b.length)
    have hxlen : x.length ≤ 3 := by
      have := n.ext_le
      rwa [← hx, List.length_map] at this
    simp only [h1, h2, List.append_nil, extChars_ext (hchars hx n.ext_char) hxlen, hx]

theorem Spells.stored (h : Spells p d) : d.stored = make83 p := by
  obtain ⟨n, hd, hp⟩ := h
  rw [hd, make83_of_spelled hp]

/-! ## The files of the root directory -/

def rootFiles (g : Fat32) (disk : Word → Sector) (n : Nat) : List DirEntry :=
  (liveEntries (rootEntries g disk n)).filter (!·.isDir)

/-- What `fat32_open` fills in for an entry. -/
def DirEntry.handle (d : DirEntry) : FatFile :=
  { firstCluster := d.le16 20 <<< 16 ||| d.le16 26
    size := d.size
    position := 0
    directory := false }

def FirstFile (g : Fat32) (disk : Word → Sector) (S : DirEntry → Prop) (e : DirEntry) : Prop :=
  ∃ n l r, (∀ m < n, validCluster (chain g disk g.rootCluster m) = true) ∧
    rootFiles g disk n = l ++ e :: r ∧ S e ∧ ∀ x ∈ l, ¬ S x

def IsFile (g : Fat32) (disk : Word → Sector) (e : DirEntry) : Prop :=
  ∃ n, (∀ m < n, validCluster (chain g disk g.rootCluster m) = true) ∧ e ∈ rootFiles g disk n

end

section

variable {g : Fat32} {disk : Word → Sector} {S T : DirEntry → Prop} {e : DirEntry}

theorem FirstFile.isFile (h : FirstFile g disk S e) : IsFile g disk e := by
  obtain ⟨n, l, r, hvalid, heq, -⟩ := h
  exact ⟨n, hvalid, by simp [heq]⟩

theorem FirstFile.holds (h : FirstFile g disk S e) : S e := by
  obtain ⟨n, l, r, -, -, hS, -⟩ := h
  exact hS

theorem FirstFile.congr (hST : ∀ x, IsFile g disk x → (S x ↔ T x)) (h : FirstFile g disk S e) :
    FirstFile g disk T e := by
  have hfile := h.isFile
  obtain ⟨n, l, r, hvalid, heq, hS, hnone⟩ := h
  refine ⟨n, l, r, hvalid, heq, (hST e hfile).mp hS, fun x hx => ?_⟩
  exact mt (hST x ⟨n, hvalid, by simp [heq, hx]⟩).mpr (hnone x hx)

theorem IsFile.first (h : IsFile g disk e) (hS : S e) : ∃ x, FirstFile g disk S x := by
  classical
  obtain ⟨n, hvalid, hmem⟩ := h
  have hsome : ((rootFiles g disk n).find? fun x => decide (S x)).isSome = true :=
    List.find?_isSome.mpr ⟨e, hmem, decide_eq_true hS⟩
  obtain ⟨x, hx⟩ := Option.isSome_iff_exists.mp hsome
  obtain ⟨hSx, l, r, heq, hnone⟩ := List.find?_eq_some_iff_append.mp hx
  exact ⟨x, n, l, r, hvalid, heq, of_decide_eq_true hSx, fun y hy => by simpa using hnone y hy⟩

theorem matches_iff (d : DirEntry) (w : List Byte) (hw : w.length = 11) :
    (∀ i : Fin 11, some (d (i.castLE (by decide))) = w[i.val]?) ↔ d.stored = w := by
  constructor
  · intro h
    apply List.ext_getElem?
    intro i
    by_cases hi : i < 11
    · rw [← h ⟨i, hi⟩, DirEntry.stored, List.getElem?_ofFn, dif_pos hi]
    · rw [List.getElem?_eq_none (by simpa [DirEntry.stored] using hi), List.getElem?_eq_none (by omega)]
  · rintro rfl i
    rw [DirEntry.stored, List.getElem?_ofFn, dif_pos i.isLt]

theorem scanList_lookup (w : List Byte) (hw : w.length = 11) (es : List DirEntry) (index : Word)
    (f : FatFile) :
    scanList (.lookup w) es index = .error (.found f) ↔
      ∃ e, ((liveEntries es).filter (!·.isDir)).find? (fun d => decide (d.stored = w)) = some e ∧
      f = e.handle := by
  induction es generalizing index with
  | nil =>
    constructor
    · intro h
      cases h
    · rintro ⟨e, he, -⟩
      cases he
  | cons d es ih =>
    change (scanEntry (.lookup w) index d >>= scanList (.lookup w) es) = _ ↔ _
    unfold scanEntry
    simp only [matches_iff d w hw]
    by_cases hend : d 0 = 0
    · simp [hend, liveEntries, bind, Except.bind]
    · have hkeep : (d 0 != 0) = true := by simpa using hend
      rw [if_neg hend]
      by_cases hskip : d.skipped = true
      · have hlive : liveEntries (d :: es) = liveEntries es := by
          unfold liveEntries
          rw [List.takeWhile_cons, if_pos hkeep, List.filter_cons, if_neg (by simp [hskip])]
        rw [if_pos hskip, hlive]
        exact ih index
      · have hlive : liveEntries (d :: es) = d :: liveEntries es := by
          unfold liveEntries
          rw [List.takeWhile_cons, if_pos hkeep, List.filter_cons, if_pos (by simpa using hskip)]
        rw [if_neg hskip, hlive]
        by_cases hdir : d.isDir = true
        · rw [if_pos hdir, List.filter_cons_of_neg (by simp [hdir])]
          exact ih (index + 1)
        · rw [if_neg hdir, List.filter_cons_of_pos (by simpa using hdir)]
          by_cases hmatch : d.stored = w
          · rw [if_pos hmatch, List.find?_cons_of_pos (by simpa using hmatch)]
            constructor
            · intro h
              cases h
              exact ⟨d, rfl, rfl⟩
            · rintro ⟨e, he, rfl⟩
              cases he
              rfl
          · rw [if_neg hmatch, List.find?_cons_of_neg (by simpa using hmatch)]
            exact ih (index + 1)

theorem nameChars_length (fuel : Nat) (p : List Byte) : (nameChars fuel p).1.length ≤ fuel := by
  induction fuel generalizing p with
  | zero => exact le_refl 0
  | succ fuel ih =>
    cases p with
    | nil => exact Nat.zero_le _
    | cons b p =>
      rw [nameChars]
      split
      · exact Nat.zero_le _
      · split
        · exact Nat.succ_le_succ (ih p)
        · exact Nat.zero_le _

theorem extChars_length (fuel : Nat) (p : List Byte) : (extChars fuel p).length ≤ fuel := by
  induction fuel generalizing p with
  | zero => exact le_refl 0
  | succ fuel ih =>
    cases p with
    | nil => exact Nat.zero_le _
    | cons b p =>
      rw [extChars]
      split
      · exact Nat.zero_le _
      · exact Nat.succ_le_succ (ih p)

theorem make83_length (p : List Byte) : (make83 p).length = 11 := by
  have hname := nameChars_length 8 p
  have hext := extChars_length 3 (skipDot (nameChars 8 p).2)
  rw [make83_eq]
  simp only [List.length_append, List.length_replicate]
  omega

theorem names_iff {path : List Byte} {f : FatFile} :
    Names g disk path f ↔ path.dropWhile (· == 0x2f) ≠ [] ∧
    ∃ e, FirstFile g disk (fun d => d.stored = make83 (path.dropWhile (· == 0x2f))) e ∧ f = e.handle := by
  unfold Names
  simp only [scanList_lookup _ (make83_length _)]
  constructor
  · rintro ⟨hpath, n, hvalid, e, hfind, rfl⟩
    obtain ⟨hmatch, l, r, heq, hnone⟩ := List.find?_eq_some_iff_append.mp hfind
    exact ⟨hpath, e,
      ⟨n, l, r, hvalid, heq, by simpa using hmatch, fun x hx => by simpa using hnone x hx⟩, rfl⟩
  · rintro ⟨hpath, e, ⟨n, l, r, hvalid, heq, hmatch, hnone⟩, rfl⟩
    refine ⟨hpath, n, hvalid, e,
      List.find?_eq_some_iff_append.mpr ⟨by simpa using hmatch, l, r, heq, ?_⟩, rfl⟩
    exact fun x hx => by simpa using hnone x hx

end

/-! ## Exactly the named file -/

/-- `fat32_open` opens exactly the file that the path names, leading slashes apart. -/
def OpensNamed (g : Fat32) (path : List Byte) (d : Dev) : Prop :=
  ∀ f, (∃ fuel d', fat32Open fuel g path d = some (.found f, d')) ↔
    ∃ e, FirstFile g d.block.disk (Spells (path.dropWhile (· == 0x2f))) e ∧ f = e.handle

/-- On a device that answers, exactly the named file is opened if nothing is left of the path, if it
spells a name, or if no file has the bytes that `make_83` makes of it. -/
theorem open_named_iff {g₀ g : Fat32} {d₀ d₁ : Dev} (hmount : fat32Mount g₀ d₀ = (true, g, d₁)) {d : Dev}
    (hd : d.Answers) (path : List Byte) :
    OpensNamed g path d ↔ path.dropWhile (· == 0x2f) = [] ∨
      (∃ n : ShortName, (path.dropWhile (· == 0x2f)).map upper = n.text) ∨
      ∀ e, IsFile g d.block.disk e → e.stored ≠ make83 (path.dropWhile (· == 0x2f)) := by
  have hg := fat32Mount_valid hmount
  have hopen : ∀ f, (∃ fuel d', fat32Open fuel g path d = some (.found f, d')) ↔
      Names g d.block.disk path f :=
    fun f => ⟨fun ⟨_, _, h⟩ => names_of_open hg rfl h, open_of_names hg hd⟩
  unfold OpensNamed
  simp only [hopen, names_iff]
  generalize path.dropWhile (· == 0x2f) = p
  constructor
  · intro h
    by_contra hcond
    obtain ⟨hpath, hspelled, hmatch⟩ : p ≠ [] ∧ (¬∃ n : ShortName, p.map upper = n.text) ∧ _ := by
      rwa [not_or, not_or] at hcond
    push Not at hmatch
    obtain ⟨e, hfile, hstored⟩ := hmatch
    obtain ⟨x, hx⟩ := hfile.first (S := fun d => d.stored = make83 p) hstored
    -- the file that is opened would have to be named by the path
    obtain ⟨y, hy, -⟩ := (h x.handle).mp ⟨hpath, x, hx, rfl⟩
    obtain ⟨n, -, hn⟩ := hy.holds
    exact hspelled ⟨n, hn⟩
  · intro hcond f
    constructor
    · rintro ⟨hpath, e, he, rfl⟩
      rcases hcond with rfl | ⟨n, hn⟩ | hnone
      · exact absurd rfl hpath
      · refine ⟨e, he.congr fun x _ => ⟨fun hx => ⟨n, ?_, hn⟩, Spells.stored⟩, rfl⟩
        rw [hx, make83_of_spelled hn]
      · exact absurd he.holds (hnone e he.isFile)
    · rintro ⟨e, he, rfl⟩
      obtain ⟨n, -, hn⟩ := he.holds
      refine ⟨?_, e, he.congr fun x _ => ⟨Spells.stored, fun hx => ⟨n, ?_, hn⟩⟩, rfl⟩
      · rintro rfl
        exact n.text_ne_nil hn.symm
      · rw [hx, make83_of_spelled hn]

theorem letterDisk_files {e : DirEntry} (h : IsFile twoClusterVolume letterDisk e) :
    e.stored = [0x41, 0x20, 0x20, 0x20, 0x20, 0x20, 0x20, 0x20, 0x20, 0x20, 0x20] := by
  obtain ⟨n, hvalid, hmem⟩ := h
  have hn : n = 0 ∨ n = 1 := by
    by_contra hn
    have hlast := letterDisk_ends.last
    rw [show chain twoClusterVolume letterDisk 2 1 =
      chain twoClusterVolume letterDisk twoClusterVolume.rootCluster 1
      from rfl, hvalid 1 (by omega)] at hlast
    cases hlast
  have hall : (rootFiles twoClusterVolume letterDisk 1).all (fun e =>
      e.stored == [0x41, 0x20, 0x20, 0x20, 0x20, 0x20, 0x20, 0x20, 0x20, 0x20, 0x20]) = true := by
    decide +kernel
  rcases hn with rfl | rfl
  · cases hmem
  · simpa using List.all_eq_true.mp hall e hmem

def letterName : ShortName where
  base := [0x41]
  ext := []
  base_pos := by decide
  base_le := by decide
  ext_le := by decide
  base_char := by simp [NameChar, upper]
  ext_char := by simp

theorem open_named_letter : OpensNamed twoClusterVolume [0x2f, 0x61] letterDev := by
  obtain ⟨d₁, hmount⟩ := letterDev_mounts
  exact (open_named_iff hmount letterDev_answers _).mpr (.inr (.inl ⟨letterName, rfl⟩))

/-- The path `/A/B` opens it too, which is not its name. -/
theorem open_ignores_rest :
    (∃ fuel d', fat32Open fuel twoClusterVolume [0x2f, 0x41, 0x2f, 0x42] letterDev =
      some (.found ⟨0, 5, 0, false⟩, d')) ∧
      ¬ OpensNamed twoClusterVolume [0x2f, 0x41, 0x2f, 0x42] letterDev := by
  have hrun : (fat32Open 2 twoClusterVolume [0x2f, 0x41, 0x2f, 0x42] letterDev).map (·.1) =
      some (.found ⟨0, 5, 0, false⟩) := by decide +kernel
  obtain ⟨⟨r, d'⟩, hopen, rfl⟩ := Option.map_eq_some_iff.mp hrun
  refine ⟨⟨2, d', hopen⟩, fun h => ?_⟩
  obtain ⟨e, he, -⟩ := (h _).mp ⟨2, d', hopen⟩
  obtain ⟨n, hbytes, hn⟩ := he.holds
  obtain rfl : letterName = n := ShortName.bytes_inj ((letterDisk_files he.isFile).symm.trans hbytes)
  exact absurd hn (by decide)

end Ceblar
