import Ceblar.Lib.Walk
import Ceblar.Mm.PmmInit

/-! # The walks of `pmm_init`

Both loops of `pmm_init` move by distances that they read from the boot information, in arithmetic
that wraps.
-/

namespace Ceblar

section

variable {mem : Mem} {base total stop entrySize : Word} {fuel : Nat} {off : Word}

theorem mmapEntries_isSome_iff {e : Word} {p : Pmm} :
    (mmapEntries mem base stop entrySize fuel e p).isSome ↔
    ∃ k < fuel, stop ≤ e + BitVec.ofNat 32 k * entrySize := by
  induction fuel generalizing e p with
  | zero =>
    constructor
    · intro h
      cases h
    · rintro ⟨k, hk, -⟩
      cases hk
  | succ fuel ih =>
    have hshift : ∀ k : Nat, e + BitVec.ofNat 32 (k + 1) * entrySize =
        e + entrySize + BitVec.ofNat 32 k * entrySize := by
      intro k
      rw [BitVec.ofNat_add, BitVec.add_mul, BitVec.one_mul,
        BitVec.add_comm (BitVec.ofNat 32 k * entrySize), BitVec.add_assoc]
    rw [mmapEntries]
    by_cases hin : e < stop
    · rw [if_pos hin, ih]
      constructor
      · rintro ⟨k, hk, hstop⟩
        exact ⟨k + 1, by omega, by rwa [hshift]⟩
      · rintro ⟨k, hk, hstop⟩
        cases k with
        | zero =>
          rw [BitVec.zero_mul, BitVec.add_zero] at hstop
          exact absurd hin (BitVec.not_lt.mpr hstop)
        | succ k => exact ⟨k, by omega, by rwa [← hshift]⟩
    · rw [if_neg hin]
      refine ⟨fun _ => ⟨0, by omega, ?_⟩, fun _ => rfl⟩
      rw [BitVec.zero_mul, BitVec.add_zero]
      exact BitVec.not_lt.mp hin

def nextTag (mem : Mem) (base total off : Word) : Option Word :=
  if off + 8 ≤ total ∧ 8 ≤ load32 mem (base + off + 4) then
    some ((off + load32 mem (base + off + 4) + 7) &&& ~~~7#32)
  else none

def EntriesEnd (mem : Mem) (base total off : Word) : Prop :=
  off + 8 ≤ total → load32 mem (base + off) = 6 →
    ∃ k : Nat,
    off + load32 mem (base + off + 4) ≤ off + 16 + BitVec.ofNat 32 k * load32 mem (base + off + 8)

structure TagsEnd (mem : Mem) (base total off : Word) : Prop where
  tags : ∃ n, walkAt (nextTag mem base total) n off = none
  entries : ∀ n o, walkAt (nextTag mem base total) n off = some o → EntriesEnd mem base total o

theorem tagsEnd_iff :
    TagsEnd mem base total off ↔
      EntriesEnd mem base total off ∧ ∀ o, nextTag mem base total off = some o →
      TagsEnd mem base total o := by
  constructor
  · rintro ⟨⟨n, hn⟩, hentries⟩
    refine ⟨hentries 0 off rfl, fun o ho => ⟨⟨n, ?_⟩, fun i o' hi => hentries (i + 1) o' ?_⟩⟩
    · have hlater := walkAt_none hn (Nat.le_succ n)
      rwa [walkAt, ho] at hlater
    · rw [walkAt, ho]
      exact hi
  · rintro ⟨hhere, hrest⟩
    cases hnext : nextTag mem base total off with
    | none =>
      refine ⟨⟨1, by rw [walkAt, hnext]; rfl⟩, fun n o hn => ?_⟩
      cases n with
      | zero =>
        cases hn
        exact hhere
      | succ n =>
        rw [walkAt, hnext] at hn
        cases hn
    | some o =>
      obtain ⟨⟨n, hn⟩, hentries⟩ := hrest o hnext
      refine ⟨⟨n + 1, by rw [walkAt, hnext]; exact hn⟩, fun i o' hi => ?_⟩
      cases i with
      | zero =>
        cases hi
        exact hhere
      | succ i =>
        rw [walkAt, hnext] at hi
        exact hentries i o' hi

def TagsWithin (mem : Mem) (base total : Word) : Nat → Word → Prop
  | 0, _ => False
  | fuel + 1, off =>
    (off + 8 ≤ total → load32 mem (base + off) = 6 → ∃ k < fuel,
      off + load32 mem (base + off + 4) ≤ off + 16 + BitVec.ofNat 32 k * load32 mem (base + off + 8)) ∧
    ∀ o, nextTag mem base total off = some o → TagsWithin mem base total fuel o

theorem mbiTags_isSome_iff {p : Pmm} :
    (mbiTags mem base total fuel off p).isSome ↔ TagsWithin mem base total fuel off := by
  induction fuel generalizing off p with
  | zero =>
    constructor
    · intro h
      cases h
    · exact False.elim
  | succ fuel ih =>
    rw [mbiTags, TagsWithin]
    by_cases hin : off + 8 ≤ total
    · have hhere : (if load32 mem (base + off) = 6 then
            mmapEntries mem base (off + load32 mem (base + off + 4))
              (load32 mem (base + off + 8)) fuel (off + 16) p
          else some p).isSome ↔
          (off + 8 ≤ total → load32 mem (base + off) = 6 → ∃ k < fuel,
            off + load32 mem (base + off + 4) ≤ off + 16 + BitVec.ofNat 32 k * load32 mem
              (base + off + 8)) := by
        by_cases hmap : load32 mem (base + off) = 6
        · rw [if_pos hmap, mmapEntries_isSome_iff]
          exact ⟨fun h _ _ => h, fun h => h hin hmap⟩
        · rw [if_neg hmap]
          exact ⟨fun _ _ h => absurd h hmap, fun _ => rfl⟩
      rw [if_pos hin, ← hhere]
      dsimp only
      generalize (if load32 mem (base + off) = 6 then
        mmapEntries mem base (off + load32 mem (base + off + 4)) (load32 mem (base + off + 8)) fuel
        (off + 16) p else some p) = q
      by_cases hsize : load32 mem (base + off + 4) < 8
      · have hlast : nextTag mem base total off = none := if_neg fun h => BitVec.not_le.mpr hsize h.2
        rw [if_pos hsize, hlast]
        exact ⟨fun h => ⟨h, fun o ho => by cases ho⟩, And.left⟩
      · have hnext : nextTag mem base total off =
            some ((off + load32 mem (base + off + 4) + 7) &&& ~~~7#32) :=
          if_pos ⟨hin, BitVec.not_lt.mp hsize⟩
        rw [if_neg hsize, hnext]
        cases q with
        | none =>
          constructor
          · intro h
            cases h
          · rintro ⟨h, -⟩
            cases h
        | some q =>
          rw [Option.bind_some, ih]
          refine ⟨fun h => ⟨rfl, fun o ho => ?_⟩, fun h => h.2 _ rfl⟩
          cases ho
          exact h
    · have hlast : nextTag mem base total off = none := if_neg fun h => hin h.1
      rw [if_neg hin, hlast]
      exact ⟨fun _ => ⟨fun h => absurd h hin, fun o ho => by cases ho⟩, fun _ => rfl⟩

theorem TagsWithin.mono {fuel' : Nat} (hle : fuel ≤ fuel') (h : TagsWithin mem base total fuel off) :
    TagsWithin mem base total fuel' off := by
  induction fuel generalizing fuel' off with
  | zero => exact h.elim
  | succ fuel ih =>
    cases fuel' with
    | zero => cases hle
    | succ fuel' =>
      refine ⟨fun hin hmap => ?_, fun o ho => ih (Nat.le_of_succ_le_succ hle) (h.2 o ho)⟩
      obtain ⟨k, hk, hstop⟩ := h.1 hin hmap
      exact ⟨k, by omega, hstop⟩

theorem tagsEnd_iff_within : TagsEnd mem base total off ↔ ∃ fuel, TagsWithin mem base total fuel off := by
  constructor
  · rintro ⟨⟨n, hn⟩, hentries⟩
    induction n generalizing off with
    | zero => cases hn
    | succ n ih =>
      have hall : TagsEnd mem base total off := ⟨⟨n + 1, hn⟩, hentries⟩
      obtain ⟨hhere, hrest⟩ := tagsEnd_iff.mp hall
      obtain ⟨k, hk⟩ : ∃ k : Nat, off + 8 ≤ total → load32 mem (base + off) = 6 →
          off + load32 mem (base + off + 4) ≤ off + 16 + BitVec.ofNat 32 k * load32 mem
            (base + off + 8) := by
        by_cases hmap : off + 8 ≤ total ∧ load32 mem (base + off) = 6
        · obtain ⟨k, hstop⟩ := hhere hmap.1 hmap.2
          exact ⟨k, fun _ _ => hstop⟩
        · exact ⟨0, fun hin htype => absurd ⟨hin, htype⟩ hmap⟩
      cases hnext : nextTag mem base total off with
      | none =>
        refine ⟨k + 2, fun hin hmap => ⟨k, by omega, hk hin hmap⟩, fun o ho => ?_⟩
        rw [hnext] at ho
        cases ho
      | some o =>
        rw [walkAt, hnext] at hn
        obtain ⟨fuel, hfuel⟩ := ih (hrest o hnext).entries hn
        refine ⟨max (k + 1) fuel + 1, fun hin hmap => ⟨k, by omega, hk hin hmap⟩, fun o' ho => ?_⟩
        rw [hnext] at ho
        cases ho
        exact hfuel.mono (Nat.le_max_right _ _)
  · rintro ⟨fuel, h⟩
    induction fuel generalizing off with
    | zero => exact h.elim
    | succ fuel ih =>
      refine tagsEnd_iff.mpr ⟨fun hin hmap => ?_, fun o ho => ih (h.2 o ho)⟩
      obtain ⟨k, -, hstop⟩ := h.1 hin hmap
      exact ⟨k, hstop⟩

end

def mbiTag (mem : Mem) (mbi : Word) (i : Nat) : Option Word :=
  walkAt (nextTag mem mbi (load32 mem mbi)) i 8

/-- The loop over the entries of the memory map at `off` gets to its end: the greatest offset that
it meets, in steps of `entry_size` that wrap, is not below the end of the tag. -/
def MmapPassed (mem : Mem) (mbi off : Word) : Prop :=
  let common := (load32 mem (mbi + off + 8)).toNat.gcd (2 ^ 32)
  (off + load32 mem (mbi + off + 4)).toNat + common ≤ 2 ^ 32 + (off + 16).toNat % common

/-- `pmm_init` ends if and only if no tag is met twice and each memory map is passed. -/
theorem pmm_init_ends_iff (mem : Mem) (mbi kernelEnd : Word) :
    (∃ fuel, (pmmInit mem mbi kernelEnd fuel).isSome) ↔
      (∀ i j off, i < j → mbiTag mem mbi i = some off → mbiTag mem mbi j ≠ some off) ∧
        ∀ i off, mbiTag mem mbi i = some off → off + 8 ≤ load32 mem mbi → load32 mem (mbi + off) = 6 →
          MmapPassed mem mbi off := by
  have hinit : ∀ fuel, (pmmInit mem mbi kernelEnd fuel).isSome ↔
      TagsWithin mem mbi (load32 mem mbi) fuel 8 := by
    intro fuel
    unfold pmmInit
    rw [Option.isSome_map, mbiTags_isSome_iff]
  have hfinite : Finite Word := Finite.of_injective BitVec.toFin fun _ _ h => BitVec.eq_of_toFin_eq h
  rw [exists_congr hinit, ← tagsEnd_iff_within]
  constructor
  · rintro ⟨htags, hentries⟩
    refine ⟨walkAt_ends_iff.mp htags, fun i off hoff hin hmap => ?_⟩
    exact stride_reaches_iff.mp (hentries i off hoff hin hmap)
  · rintro ⟨honce, hpassed⟩
    exact ⟨walkAt_ends_iff.mpr honce,
      fun i off hoff hin hmap => stride_reaches_iff.mpr (hpassed i off hoff hin hmap)⟩

def emptyEntries : Mem := fun a =>
  if a = 0x1000 then 48 else if a = 0x1008 then 6 else if a = 0x100c then 32 else 0

/-- The loop over its entries does not move. -/
theorem empty_entries_loop : ¬∃ fuel, (pmmInit emptyEntries 0x1000 0x200000 fuel).isSome := by
  rintro ⟨fuel, h⟩
  unfold pmmInit at h
  rw [Option.isSome_map, mbiTags_isSome_iff] at h
  cases fuel with
  | zero => exact h
  | succ fuel =>
    obtain ⟨k, -, hk⟩ := h.1 (by decide) (by decide)
    rw [show load32 emptyEntries (0x1000 + 8 + 8) =
      0#32 by decide, BitVec.mul_zero, BitVec.add_zero] at hk
    exact absurd hk (by decide)

end Ceblar
