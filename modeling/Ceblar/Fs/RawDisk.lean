import Ceblar.Fs.ReadFile
import Ceblar.Fs.Vfs

/-! # The raw device

Descriptor 3 is the default device as a row of bytes. A call stops at the first operation that
fails.
-/

namespace Ceblar

open BitVec (eq_of_toNat_eq ofNat toNat_ofNat)

/-! ## Bytes of the device -/

def Block.byte (b : Block) (a : Nat) : Byte := byteAt (b.disk (ofNat 32 (a / 512))) (a % 512)

/-- How many bytes from `pos` on, of `n` at most, come before the first sector that fails. -/
def transferred (good : Nat → Bool) (pos n : Nat) : Nat :=
  ((List.range n).takeWhile fun k => good ((pos + k) / 512)).length

/-- What a call for `n` bytes returns that has transferred `r` of them. -/
def transferResult (n r : Nat) : Int := if r < n ∧ r = 0 then -1 else r

/-- The operations for sector `l` in a read: `readable` says which sectors the device delivers. -/
def readGood (readable : Word → Bool) (b : Block) (l : Nat) : Bool := b.present && readable (ofNat 32 l)

def writeGood (readable accepts : Word → Bool) (b : Block) (pos n l : Nat) : Bool :=
  (decide (pos ≤ l * 512 ∧ (l + 1) * 512 ≤ pos + n) || readGood readable b l) &&
    (b.present && b.writable && accepts (ofNat 32 l))

structure Replaced (b : Block) (pos r : Nat) (data : Nat → Byte) (b' : Block) : Prop where
  present : b'.present = b.present
  writable : b'.writable = b.writable
  bytes : ∀ a < 2 ^ 41, b'.byte a = if pos ≤ a ∧ a < pos + r then data (a - pos) else b.byte a

section

variable {good : Nat → Bool} {pos r : Nat} {b b' : Block} {readable accepts : Word → Bool}
    {data cur out : Nat → Byte}
  {n done position : Word}

theorem transferred_eq {n : Nat} (hle : r ≤ n) (hgood : ∀ k < r, good ((pos + k) / 512) = true)
    (hbad : r < n → good ((pos + r) / 512) = false) : transferred good pos n = r := by
  obtain ⟨m, rfl⟩ := Nat.exists_eq_add_of_le hle
  unfold transferred
  rw [List.range_add, List.takeWhile_append_of_pos (by simpa using hgood), List.length_append,
    List.length_range]
  cases m with
  | zero => simp
  | succ m =>
    rw [List.range_succ_eq_map, List.map_cons, Nat.add_zero,
      List.takeWhile_cons_of_neg (by simp [hbad (by omega)])]
    rfl

theorem transferred_all {n : Nat} (hgood : ∀ k < n, good ((pos + k) / 512) = true) :
    transferred good pos n = n :=
  transferred_eq le_rfl hgood fun h => absurd h (Nat.lt_irrefl n)

/-! ## One round -/

theorem byte_at {l i : Nat} (hi : i < 512) : b.byte (l * 512 + i) = byteAt (b.disk (ofNat 32 l)) i := by
  unfold Block.byte
  rw [show (l * 512 + i) / 512 = l by omega, show (l * 512 + i) % 512 = i by omega]

theorem position_div (position : Word) : position / 512 = ofNat 32 (position.toNat / 512) := by
  apply eq_of_toNat_eq
  rw [BitVec.toNat_udiv, toNat_ofNat]
  exact (Nat.mod_eq_of_lt (Nat.lt_of_le_of_lt (Nat.div_le_self _ _) position.isLt)).symm

theorem transferResult_all (hn : n.toNat < 2 ^ 31) : n.toInt = transferResult n.toNat n.toNat := by
  unfold transferResult
  rw [if_neg (by omega)]
  exact BitVec.toInt_eq_toNat_of_lt (by omega)

theorem transferResult_stopped (hlt : done < n) (hn : n.toNat < 2 ^ 31) :
    (if done = 0 then -1 else done.toInt) = transferResult n.toNat done.toNat := by
  have hlt' : done.toNat < n.toNat := hlt
  have hzero : done = 0 ↔ done.toNat = 0 := by
    rw [← BitVec.toNat_inj]
    rfl
  unfold transferResult
  rw [BitVec.toInt_eq_toNat_of_lt (by omega)]
  simp only [hzero, hlt', true_and]

structure TransferredTo (good : Nat → Bool) (pos : Nat) (n done position : Word) : Prop where
  le : done ≤ n
  position : position.toNat = pos + done.toNat
  good : ∀ k < done.toNat, good ((pos + k) / 512) = true

theorem TransferredTo.start (good : Nat → Bool) (n position : Word) :
    TransferredTo good position.toNat n 0 position :=
  ⟨Nat.zero_le _, rfl, fun _ hk => absurd hk (Nat.not_lt_zero _)⟩

theorem TransferredTo.eq (h : TransferredTo good pos n done position) :
    position = ofNat 32 (pos + done.toNat) := by
  rw [← h.position, BitVec.ofNat_toNat, BitVec.setWidth_eq]

theorem TransferredTo.ended (h : TransferredTo good pos n done position) (hend : ¬done < n) :
    done = n ∧ transferred good pos n.toNat = done.toNat := by
  have hle : done.toNat ≤ n.toNat := h.le
  obtain rfl : done = n := eq_of_toNat_eq (le_antisymm hle (by rw [BitVec.lt_def] at hend; omega))
  exact ⟨rfl, transferred_all h.good⟩

theorem TransferredTo.next (h : TransferredTo good pos n done position)
    (hpos : pos + n.toNat < 2 ^ 32) {take : Word}
    (htake : take.toNat = min (n.toNat - done.toNat) (512 - position.toNat % 512))
    (hgood : good ((pos + done.toNat) / 512) = true) :
    (done + take).toNat = done.toNat + take.toNat ∧
    TransferredTo good pos n (done + take) (position + take) := by
  have hle : done.toNat ≤ n.toNat := h.le
  have hp := h.position
  have hdone : (done + take).toNat = done.toNat + take.toNat := by
    rw [BitVec.toNat_add]
    exact Nat.mod_eq_of_lt (by omega)
  refine ⟨hdone, ?_, ?_, fun k hk => ?_⟩
  · rw [BitVec.le_def]
    omega
  · rw [BitVec.toNat_add, hdone, hp, ← Nat.add_assoc]
    exact Nat.mod_eq_of_lt (by omega)
  · rcases Nat.lt_or_ge k done.toNat with hlt | hge
    · exact h.good k hlt
    · have hsector : (pos + k) / 512 = (pos + done.toNat) / 512 := by omega
      rw [hsector]
      exact hgood

theorem rawRead_spec {disk : Disk}
    (hdisk : ∀ lba, disk.sector lba = (blockReadSector (readable lba) b lba).map byteAt)
    (hpos : pos + n.toNat < 2 ^ 32) (hn : n.toNat < 2 ^ 31) {fuel : Nat}
    (hfuel : n.toNat ≤ done.toNat + fuel)
    (h : TransferredTo (readGood readable b) pos n done position)
    (hcur : cur = fun i => if i < done.toNat then b.byte (pos + i) else out i)
    (hr : transferred (readGood readable b) pos n.toNat = r) :
    rawRead disk n fuel done position cur =
      (transferResult n.toNat r,
        (fun i => if i < r then b.byte (pos + i) else out i), ofNat 32 (pos + r)) := by
  induction fuel generalizing done position cur with
  | zero =>
    obtain ⟨rfl, hall⟩ := h.ended (by rw [BitVec.lt_def]; omega)
    rw [rawRead, transferResult_all hn, hcur, h.eq, ← hr, hall]
  | succ fuel ih =>
    rw [rawRead]
    split
    · rename_i hlt
      have hlt' : done.toNat < n.toNat := hlt
      have htake := take_toNat position hlt
      have hoff : (position % 512).toNat = (pos + done.toNat) % 512 := by
        rw [BitVec.toNat_umod, h.position]
        rfl
      rw [hdisk, position_div, h.position]
      dsimp only
      generalize (if n - done < 512 - position % 512 then n - done else 512 - position % 512) =
        take at htake
      unfold blockReadSector
      cases hread : b.present && readable (ofNat 32 ((pos + done.toNat) / 512)) with
      | false =>
        have hstop : transferred (readGood readable b) pos n.toNat = done.toNat :=
          transferred_eq h.le h.good fun _ => hread
        rw [if_neg (by simp)]
        dsimp only [Option.map_none]
        rw [transferResult_stopped hlt hn, hcur, h.eq, ← hr, hstop]
      | true =>
        rw [if_pos rfl]
        dsimp only [Option.map_some]
        obtain ⟨hdone, hnext⟩ := h.next hpos htake hread
        rw [h.position] at htake
        refine ih (by omega) hnext (funext fun i => ?_)
        rw [hdone, hcur, hoff]
        dsimp only
        by_cases hlo : i < done.toNat
        · rw [if_neg (by omega), if_pos hlo, if_pos (by omega)]
        · by_cases hhi : i < done.toNat + take.toNat
          · rw [if_pos ⟨by omega, hhi⟩, if_pos hhi, ← byte_at (by omega)]
            congr 1
            omega
          · rw [if_neg (by omega), if_neg hlo, if_neg hhi]
    · rename_i hlt
      obtain ⟨rfl, hall⟩ := h.ended hlt
      rw [transferResult_all hn, hcur, h.eq, ← hr, hall]

/-! ## Writing -/

theorem Replaced.refl (b : Block) (pos : Nat) (data : Nat → Byte) : Replaced b pos 0 data b :=
  ⟨rfl, rfl, fun _ _ => by rw [if_neg (by omega)]⟩

theorem Replaced.store (h : Replaced b pos r data b') {take : Nat} (htake : take ≤ 512 - (pos + r) % 512)
    (hpos : pos + r < 2 ^ 41) {old : Nat → Byte}
    (hold : ∀ i < 512, ¬((pos + r) % 512 ≤ i ∧ i < (pos + r) % 512 + take) →
      old i = b'.byte ((pos + r) / 512 * 512 + i)) :
    Replaced b pos (r + take) data (b'.store (ofNat 32 ((pos + r) / 512)) fun i =>
      if (pos + r) % 512 ≤ i.val ∧
      i.val < (pos + r) % 512 + take then data (r + (i.val - (pos + r) % 512)) else old i.val) := by
  refine ⟨h.present, h.writable, fun a ha => ?_⟩
  have hbefore := h.bytes a ha
  unfold Block.byte at hbefore ⊢
  by_cases hl : a / 512 = (pos + r) / 512
  · have hmod := Nat.mod_lt a (show 0 < 512 by decide)
    rw [hl, store_disk_self]
    unfold byteAt
    rw [dif_pos hmod]
    dsimp only
    by_cases hin : (pos + r) % 512 ≤ a % 512 ∧ a % 512 < (pos + r) % 512 + take
    · rw [if_pos hin, if_pos (by omega)]
      congr 1
      omega
    · rw [if_neg hin, hold _ hmod hin, ← hl, show a / 512 * 512 + a % 512 = a by omega]
      rw [show b'.byte a = _ from hbefore]
      congr 1
      exact propext (by omega)
  · have hne : ofNat 32 (a / 512) ≠ ofNat 32 ((pos + r) / 512) := by
      intro he
      have := congrArg BitVec.toNat he
      rw [toNat_ofNat, toNat_ofNat, Nat.mod_eq_of_lt (by omega), Nat.mod_eq_of_lt (by omega)] at this
      exact hl this
    rw [store_disk_ne _ _ hne, hbefore]
    congr 1
    exact propext (by omega)

theorem covered_iff {take : Word} (hlt : done.toNat < n.toNat) (hp : position.toNat = pos + done.toNat)
    (htake : take.toNat = min (n.toNat - done.toNat) (512 - position.toNat % 512))
    (halign : done.toNat = 0 ∨ (pos + done.toNat) % 512 = 0) :
    (position % 512 ≠ 0 ∨ take < 512) ↔
      ¬(pos ≤ (pos + done.toNat) / 512 * 512 ∧ ((pos + done.toNat) / 512 + 1) * 512 ≤ pos + n.toNat) := by
  have hoff : position % 512 ≠ 0 ↔ (pos + done.toNat) % 512 ≠ 0 := by
    rw [← hp, ne_eq, ne_eq, ← BitVec.toNat_inj, BitVec.toNat_umod]
    rfl
  rw [hp] at htake
  rw [hoff, BitVec.lt_def]
  change _ ∨ take.toNat < 512 ↔ _
  omega

variable (accepts) in
theorem rawWrite_spec {disk : Block → Disk}
    (hdisk : ∀ b lba, (disk b).sector lba = (blockReadSector (readable lba) b lba).map byteAt)
    (hpos : pos + n.toNat < 2 ^ 32) (hn : n.toNat < 2 ^ 31) {fuel : Nat}
    (hfuel : n.toNat ≤ done.toNat + fuel)
    (h : TransferredTo (writeGood readable accepts b pos n.toNat) pos n done position)
    (halign : done.toNat = 0 ∨ done = n ∨ (pos + done.toNat) % 512 = 0)
    (hb : Replaced b pos done.toNat data b')
    (hr : transferred (writeGood readable accepts b pos n.toNat) pos n.toNat = r) :
    ∃ c, rawWrite disk accepts data n fuel done position b' =
      (transferResult n.toNat r, ofNat 32 (pos + r), c) ∧ Replaced b pos r data c := by
  induction fuel generalizing done position b' with
  | zero =>
    obtain ⟨rfl, hall⟩ := h.ended (by rw [BitVec.lt_def]; omega)
    rw [← hr, hall]
    exact ⟨b', by rw [rawWrite, transferResult_all hn, h.eq], hb⟩
  | succ fuel ih =>
    rw [rawWrite]
    split
    · rename_i hlt
      have hlt' : done.toNat < n.toNat := hlt
      have halign' : done.toNat = 0 ∨ (pos + done.toNat) % 512 = 0 :=
        halign.imp id fun ha => ha.resolve_left fun he => BitVec.lt_irrefl _ (he ▸ hlt)
      have htake := take_toNat position hlt
      have hoff : (position % 512).toNat = (pos + done.toNat) % 512 := by
        rw [BitVec.toNat_umod, h.position]
        rfl
      dsimp only
      generalize (if n - done < 512 - position % 512 then n - done else 512 - position % 512) =
        take at htake
      have hcover := covered_iff hlt' h.position htake halign'
      rw [hdisk, position_div, h.position, hoff]
      -- an operation on this sector fails
      have hstop : writeGood readable accepts b pos n.toNat ((pos + done.toNat) / 512) = false →
          ∃ c, ((if done = 0 then -1 else done.toInt, position, b') : Int × Word × Block) =
            (transferResult n.toNat r, ofNat 32 (pos + r), c) ∧ Replaced b pos r data c := by
        intro hbad
        rw [← hr, transferred_eq h.le h.good fun _ => hbad]
        exact ⟨b', by rw [transferResult_stopped hlt hn, h.eq], hb⟩
      -- the sector is in the buffer, as far as it is kept
      have hstore : ∀ old : Nat → Byte,
          (∀ i < 512, ¬((pos + done.toNat) % 512 ≤ i ∧ i < (pos + done.toNat) % 512 + take.toNat) →
            old i = b'.byte ((pos + done.toNat) / 512 * 512 + i)) →
          (decide (pos ≤ (pos + done.toNat) / 512 * 512 ∧
            ((pos + done.toNat) / 512 + 1) * 512 ≤ pos + n.toNat) ||
            readGood readable b ((pos + done.toNat) / 512)) = true →
          ∃ c, (if b'.present && b'.writable && accepts (ofNat 32 ((pos + done.toNat) / 512)) then
              rawWrite disk accepts data n fuel (done + take) (position + take)
                (b'.store (ofNat 32 ((pos + done.toNat) / 512)) fun i =>
                  if (pos + done.toNat) % 512 ≤ i.val ∧ i.val < (pos + done.toNat) % 512 + take.toNat then
                    data (done.toNat + (i.val - (pos + done.toNat) % 512)) else old i.val)
            else (if done = 0 then -1 else done.toInt, position, b')) =
              (transferResult n.toNat r, ofNat 32 (pos + r), c) ∧ Replaced b pos r data c := by
        intro old hold hread
        rw [hb.present, hb.writable]
        cases haccept : b.present && b.writable && accepts (ofNat 32 ((pos + done.toNat) / 512)) with
        | false =>
          rw [if_neg (by simp)]
          exact hstop (by rw [writeGood, haccept, Bool.and_false])
        | true =>
          rw [if_pos rfl]
          obtain ⟨hdone, hnext⟩ := h.next hpos htake (by rw [writeGood, haccept, hread]; rfl)
          rw [h.position] at htake
          refine ih (by omega) hnext ?_ ?_
          · rcases Nat.lt_or_ge (n.toNat - done.toNat) (512 - (pos + done.toNat) % 512) with hlast | hmore
            · exact .inr (.inl (eq_of_toNat_eq (by omega)))
            · exact .inr (.inr (by omega))
          · rw [hdone]
            exact hb.store (by omega) (by omega) hold
      by_cases hpart : position % 512 ≠ 0 ∨ take < 512
      · rw [if_pos hpart]
        unfold blockReadSector
        cases hread : b'.present && readable (ofNat 32 ((pos + done.toNat) / 512)) with
        | false =>
          rw [hb.present] at hread
          rw [if_neg (by simp)]
          refine hstop ?_
          rw [writeGood, readGood, hread, decide_eq_false (hcover.mp hpart)]
          rfl
        | true =>
          rw [hb.present] at hread
          rw [if_pos rfl]
          refine hstore _ (fun i hi _ => (byte_at hi).symm) ?_
          rw [readGood, hread, Bool.or_true]
      · rw [if_neg hpart]
        have hwhole := not_not.mp (mt hcover.mpr hpart)
        refine hstore (fun _ => 0) (fun i hi hout => ?_) (by rw [decide_eq_true hwhole, Bool.true_or])
        rw [h.position] at htake
        exact absurd (by omega) hout
    · rename_i hlt
      obtain ⟨rfl, hall⟩ := h.ended hlt
      rw [← hr, hall]
      exact ⟨b', by rw [transferResult_all hn, h.eq], hb⟩

end

/-- Reads and writes of descriptor 3 are exact. They transfer the bytes before the first sector for which
an operation fails, return their number, or -1 if there are none, and move on by it. -/
theorem raw_io_exact {readable accepts : Word → Bool} {disk : Block → Disk}
    (hdisk : ∀ b lba, (disk b).sector lba = (blockReadSector (readable lba) b lba).map byteAt) {v : Vfs}
    (hopen : (v.file 3).name.isSome = true) {pos : Nat} (hp : (v.file 3).position.toNat = pos) {n : Word}
    (hpos : pos + n.toNat < 2 ^ 32) (hn : n.toNat < 2 ^ 31) (b : Block) (buf : Nat → Byte) :
    (∃ r, r = transferred (readGood readable b) pos n.toNat ∧
      vfsRead (disk b) 3 buf n v =
        (transferResult n.toNat r, (fun i => if i < r then b.byte (pos + i) else buf i),
        v.setFile 3 { v.file 3 with position := ofNat 32 (pos + r) })) ∧
    (∃ r b', r = transferred (writeGood readable accepts b pos n.toNat) pos n.toNat ∧
      vfsWrite disk accepts 3 buf n v b =
        (transferResult n.toNat r, v.setFile 3 { v.file 3 with position := ofNat 32 (pos + r) }, b') ∧
      Replaced b pos r buf b') := by
  subst hp
  constructor
  · have hread := rawRead_spec (hdisk b) hpos hn (Nat.le_add_left _ _) (.start _ n (v.file 3).position)
      (show buf = _ from rfl) rfl
    refine ⟨_, rfl, ?_⟩
    unfold vfsRead
    rw [if_neg (by simp), if_pos ⟨rfl, hopen⟩]
    rw [hread]
  · obtain ⟨b', hwrite, hb⟩ := rawWrite_spec accepts hdisk hpos hn (Nat.le_add_left _ _)
      (.start _ n (v.file 3).position) (.inl rfl) (.refl b _ buf) rfl
    refine ⟨_, b', rfl, ?_, hb⟩
    unfold vfsWrite
    rw [if_neg (by decide), if_pos ⟨rfl, hopen⟩, hwrite]

def badSectorDisk (b : Block) : Disk where
  mounted := false
  openFile := fun _ f => (false, f)
  readFile := fun f out _ => (0, out, f)
  sector := fun lba => (blockReadSector (lba != 2) b lba).map byteAt
  serial := none

def movedRaw : Vfs :=
  (vfsInit twoClusterDev.block).setFile 3 { (vfsInit twoClusterDev.block).file 3 with position := 100 }

theorem raw_io_exact_bad_sector :
    (vfsRead (badSectorDisk twoClusterDev.block) 3 (fun _ => 7) 1000 movedRaw).1 = 924 ∧
      (vfsWrite badSectorDisk (fun _ => true) 3 (fun _ => 7) 1000 movedRaw twoClusterDev.block).1 =
        924 := by
  obtain ⟨⟨r, hr, hread⟩, r', b', hr', hwrite, -⟩ := @raw_io_exact (· != 2) (fun _ => true) badSectorDisk
    (fun _ _ => rfl) movedRaw rfl 100 rfl 1000 (by decide) (by decide) twoClusterDev.block (fun _ => 7)
  have h924 : transferred (readGood (· != 2) twoClusterDev.block) 100 1000 = 924 := by decide +kernel
  have h924' : transferred
      (writeGood (· != 2) (fun _ => true) twoClusterDev.block 100 1000) 100 1000 = 924 := by
    decide +kernel
  have hn : (1000 : Word).toNat = 1000 := rfl
  rw [hn, h924] at hr
  rw [hn, h924'] at hr'
  rw [hread, hwrite, hr, hr', hn]
  exact ⟨rfl, rfl⟩

end Ceblar
