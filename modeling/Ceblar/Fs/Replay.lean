import Ceblar.Fs.Recovery

/-! # What a replay applies

`journal_replay` goes through the slots in the order of their sectors, which is not the order in
which its records were written.
-/

namespace Ceblar

def Journal.Outside (j : Journal) (target : Word) : Prop := ∀ i < j.slotCount.toNat, target ≠ j.lba i

instance (j : Journal) (target : Word) : Decidable (j.Outside target) :=
  inferInstanceAs (Decidable (∀ i < j.slotCount.toNat, target ≠ j.lba i))

def Block.entry (b : Block) (stack : Record) (j : Journal) (i : Nat) : Record :=
  stack.load (b.disk (j.lba i))

def steady (read : Nat → Bool) : Nat → SlotOutcome :=
  fun i => { read := read i, apply := .done, clear := .done }

def Block.applies (b : Block) (read : Nat → Bool) (stack : Record) (j : Journal) (i : Nat) : Bool :=
  read i && (b.entry stack j i).valid

def Block.replayed (b : Block) (read : Nat → Bool) (stack : Record) (j : Journal) : Nat → Word → Sector
  | 0, l => b.disk l
  | i + 1, l =>
    if b.applies read stack j i ∧ (b.entry stack j i).targetLba = l then (b.entry stack j i).data
    else b.replayed read stack j i l

/-! ## The loop -/

structure ReplayedTo (b : Block) (read : Nat → Bool) (stack : Record) (j : Journal) (i : Nat)
    (d : Block) : Prop where
  present : d.present = true
  writable : d.writable = true
  log : ∀ k < j.slotCount.toNat, d.disk (j.lba k) =
    if k < i ∧ b.applies read stack j k then { b.entry stack j k with committed := 0 }.sector
      else b.disk (j.lba k)
  home : ∀ l, j.Outside l → d.disk l = b.replayed read stack j i l

section

variable {b d : Block} {read read' : Nat → Bool} {stack stack' : Record} {j : Journal} {i k : Nat}

theorem ReplayedTo.skip (h : ReplayedTo b read stack j i d) (hno : b.applies read stack j i = false) :
    ReplayedTo b read stack j (i + 1) d := by
  refine ⟨h.present, h.writable, fun k hk => ?_, fun l hl => ?_⟩
  · rw [h.log k hk]
    rcases eq_or_ne k i with rfl | hne
    · simp [hno]
    · congr 1
      exact propext (and_congr_left fun _ => by omega)
  · rw [h.home l hl, Block.replayed, if_neg (by simp [hno])]

theorem ReplayedTo.apply (h : ReplayedTo b read stack j i d) (hi : i < j.slotCount.toNat)
    (hyes : b.applies read stack j i = true) (hout : j.Outside (b.entry stack j i).targetLba) :
    ReplayedTo b read stack j (i + 1)
      ((d.store (b.entry stack j i).targetLba (b.entry stack j i).data).store (j.lba i)
        { b.entry stack j i with committed := 0 }.sector) := by
  refine ⟨h.present, h.writable, fun k hk => ?_, fun l hl => ?_⟩
  · rcases eq_or_ne k i with rfl | hne
    · rw [store_disk_self, if_pos ⟨by omega, hyes⟩]
    · rw [store_disk_ne _ _ fun he => hne (lba_injective hk hi he),
        store_disk_ne _ _ (hout k hk).symm, h.log k hk]
      congr 1
      exact propext (and_congr_left fun _ => by omega)
  · rw [store_disk_ne _ _ (hl i hi), Block.replayed]
    by_cases htarget : (b.entry stack j i).targetLba = l
    · rw [if_pos ⟨hyes, htarget⟩, ← htarget, store_disk_self]
    · rw [if_neg fun he => htarget he.2, store_disk_ne _ _ (Ne.symm htarget), h.home l hl]

variable (read) in
theorem replaySlot_steady (hb : d.present = true) (hw : d.writable = true) {r : Record}
    (htail : SameTail r stack) (n : Nat) :
    ∃ r', SameTail r' stack ∧ replaySlot (steady read) j i (r, n, d) =
      if d.applies read stack j i then
        .ok (r', n + 1, (d.store (d.entry stack j i).targetLba (d.entry stack j i).data).store (j.lba i)
          { d.entry stack j i with committed := 0 }.sector)
      else .ok (r', n, d) := by
  have hentry : r.load (d.disk (j.base + BitVec.ofNat 32 i)) = d.entry stack j i := load_congr htail _
  have hloaded : SameTail (d.entry stack j i) stack := sameTail_load stack _
  unfold Block.applies
  cases hread : read i with
  | false => exact ⟨r, htail, by simp [replaySlot, blockReadSector, steady, hread]⟩
  | true =>
    cases hv : (d.entry stack j i).valid with
    | false =>
      refine ⟨_, hloaded, ?_⟩
      rw [replaySlot_invalid n hread hb (by rw [hentry, hv]), hentry]
      rfl
    | true =>
      refine ⟨{ d.entry stack j i with committed := 0 }, hloaded, ?_⟩
      rw [replaySlot_valid n hread rfl rfl hb hw hentry hv]
      rfl

theorem ReplayedTo.entry (h : ReplayedTo b read stack j i d) (hi : i < j.slotCount.toNat)
    (stack : Record) :
    d.entry stack j i = b.entry stack j i := by
  unfold Block.entry
  rw [h.log i hi, if_neg (by omega)]

variable (read) in
theorem journalReplay_steady (hj : j.ready = true) (hb : b.present = true) (hw : b.writable = true)
    (hout : ∀ i < j.slotCount.toNat, b.applies read stack j i = true →
      j.Outside (b.entry stack j i).targetLba) :
    ∃ d, journalReplay (steady read) stack j b =
        .ok (((List.range j.slotCount.toNat).countP (b.applies read stack j) : Nat), d) ∧
      ReplayedTo b read stack j j.slotCount.toNat d := by
  obtain ⟨⟨r, n, d⟩, hrun, htail, hn, h⟩ := @forRangeE_inv _ _ (replaySlot (steady read) j) (stack, 0, b)
    (fun i st => SameTail st.1 stack ∧ st.2.1 = (List.range i).countP (b.applies read stack j) ∧
      ReplayedTo b read stack j i st.2.2) j.slotCount.toNat
    ⟨fun _ _ => rfl, rfl, hb, hw, fun k _ => by simp, fun _ _ => rfl⟩ (by
      rintro i hi ⟨r, n, d⟩ ⟨htail, rfl, h⟩
      obtain ⟨r', htail', hslot⟩ := replaySlot_steady read (j := j) (i := i) h.present h.writable htail
        ((List.range i).countP (b.applies read stack j))
      have hsame : d.applies read stack j i = b.applies read stack j i := by
        rw [Block.applies, h.entry hi]
        rfl
      rw [h.entry hi, hsame] at hslot
      rw [List.range_succ, List.countP_append, List.countP_singleton]
      cases happly : b.applies read stack j i with
      | false =>
        rw [happly] at hslot
        exact ⟨_, hslot, htail', rfl, h.skip happly⟩
      | true =>
        rw [happly] at hslot
        exact ⟨_, hslot, htail', rfl, h.apply hi happly (hout i hi happly)⟩)
  refine ⟨d, ?_, h⟩
  dsimp only at hn
  unfold journalReplay
  rw [hj, hrun, hn]
  rfl

theorem replaySlot_le {o : Nat → SlotOutcome} {st st' : Record × Nat × Block}
    (h : replaySlot o j i st = .ok st') :
    st.2.1 ≤ st'.2.1 := by
  unfold replaySlot at h
  dsimp only at h
  split at h
  · cases h
    exact le_rfl
  · split at h
    · cases h
      exact le_rfl
    · obtain ⟨⟨ok, b1⟩, -, h⟩ := bind_eq_ok.mp h
      dsimp only at h
      split at h
      · cases h
        exact le_rfl
      · obtain ⟨⟨ok', b2⟩, -, h⟩ := bind_eq_ok.mp h
        cases h
        exact Nat.le_succ _

theorem applies_of_zero (hj : j.ready = true) (hb : b.present = true) (hw : b.writable = true)
    (h : journalReplay (steady read) stack j b = .ok (0, d)) (hi : i < j.slotCount.toNat) :
    b.applies read stack j i = false := by
  by_contra hyes
  unfold journalReplay at h
  rw [hj] at h
  obtain ⟨⟨r, n, d'⟩, hrun, h⟩ := bind_eq_ok.mp h
  -- up to the slot nothing has changed, or something was applied
  have hcount := forRangeE_reaches (fun st => SameTail st.1 stack ∧ st.2.2 = b ∨ 1 ≤ st.2.1)
      (fun st => 1 ≤ st.2.1) hi
    (fun k hk _ st st' hst hslot => ?_) (fun st st' hst hslot => ?_)
    (fun k _ _ st st' hst hslot => hst.trans (replaySlot_le hslot)) (.inl ⟨fun _ _ => rfl, rfl⟩) hrun
  · dsimp only at hcount h
    cases n with
    | zero => omega
    | succ n => cases h
  · obtain ⟨r, n, c⟩ := st
    rcases hst with ⟨htail, rfl⟩ | hst
    · obtain ⟨r', htail', hspec⟩ := replaySlot_steady read (j := j) (i := k) hb hw htail n
      rw [hslot] at hspec
      split at hspec
      · cases hspec
        exact .inr (Nat.le_add_left _ _)
      · cases hspec
        exact .inl ⟨htail', rfl⟩
    · exact .inr (hst.trans (replaySlot_le hslot))
  · obtain ⟨r, n, c⟩ := st
    rcases hst with ⟨htail, rfl⟩ | hst
    · obtain ⟨r', htail', hspec⟩ := replaySlot_steady read (j := j) (i := i) hb hw htail n
      rw [hslot, if_pos (by simpa using hyes)] at hspec
      cases hspec
      exact Nat.le_add_left _ _
    · exact hst.trans (replaySlot_le hslot)

theorem journalReplay_idle (hj : j.ready = true) (hb : b.present = true) (hw : b.writable = true)
    (hnone : ∀ i < j.slotCount.toNat, b.applies read stack j i = false) :
    journalReplay (steady read) stack j b = .ok (0, b) := by
  obtain ⟨⟨r, n, d⟩, hrun, -, hn, hd⟩ := @forRangeE_inv _ _ (replaySlot (steady read) j) (stack, 0, b)
    (fun _ st => SameTail st.1 stack ∧ st.2.1 = 0 ∧ st.2.2 = b) j.slotCount.toNat
      ⟨fun _ _ => rfl, rfl, rfl⟩ (by
      rintro i hi ⟨r, n, d⟩ ⟨htail, rfl, rfl⟩
      obtain ⟨r', htail', hslot⟩ := replaySlot_steady read (j := j) (i := i) hb hw htail 0
      rw [hnone i hi] at hslot
      exact ⟨_, hslot, htail', rfl, rfl⟩)
  dsimp only at hn hd
  unfold journalReplay
  rw [hj, hrun, hn, hd]
  rfl

end

/-! ## The newest record -/

def Block.Held (b : Block) (stack : Record) (j : Journal) (i : Nat) : Prop :=
  i < j.slotCount.toNat ∧ (b.entry stack j i).valid = true

structure NewestFor (b : Block) (stack : Record) (j : Journal) (i : Nat) : Prop where
  held : b.Held stack j i
  newest : ∀ k, b.Held stack j k → (b.entry stack j k).targetLba = (b.entry stack j i).targetLba →
    (b.entry stack j k).sequence ≤ (b.entry stack j i).sequence

structure LastApplied (b : Block) (read : Nat → Bool) (stack : Record) (j : Journal) (k : Nat) :
    Prop where
  lt : k < j.slotCount.toNat
  applied : b.applies read stack j k = true
  last : ∀ m < j.slotCount.toNat, k < m → b.applies read stack j m = true →
    (b.entry stack j m).targetLba ≠ (b.entry stack j k).targetLba

/-- What a replay owes: the newest data everywhere, nothing else outside the log, and nothing left to do
for another replay, which has a local record of its own. -/
def KeepsNewest (b : Block) (read : Nat → Bool) (stack : Record) (j : Journal) (read' : Nat → Bool)
    (stack' : Record) : Prop :=
  ∃ n d, journalReplay (steady read) stack j b = .ok (n, d) ∧
    (∀ i, NewestFor b stack j i → d.disk (b.entry stack j i).targetLba = (b.entry stack j i).data) ∧
    (∀ l, j.Outside l →
      (∀ i, b.Held stack j i → (b.entry stack j i).targetLba ≠ l) → d.disk l = b.disk l) ∧
    journalReplay (steady read') stack' j d = .ok (0, d)

/-- The last slot for a target has the newest data. Where no slot can be read, the sector has them
already. -/
structure NewestLast (b : Block) (read : Nat → Bool) (stack : Record) (j : Journal) : Prop where
  last : ∀ i k, NewestFor b stack j i → LastApplied b read stack j k →
    (b.entry stack j k).targetLba = (b.entry stack j i).targetLba →
    (b.entry stack j k).data = (b.entry stack j i).data
  unread : ∀ i, NewestFor b stack j i → (∀ k < j.slotCount.toNat, b.applies read stack j k = true →
    (b.entry stack j k).targetLba ≠ (b.entry stack j i).targetLba) →
    b.disk (b.entry stack j i).targetLba = (b.entry stack j i).data

section

variable {b d : Block} {read read' : Nat → Bool} {stack stack' : Record} {j : Journal}

theorem replayed_cases (b : Block) (read : Nat → Bool) (stack : Record) (j : Journal) (n : Nat)
    (l : Word) :
    (b.replayed read stack j n l = b.disk l ∧
      ∀ k < n, b.applies read stack j k = true → (b.entry stack j k).targetLba ≠ l) ∨
    ∃ k < n, b.applies read stack j k = true ∧ (b.entry stack j k).targetLba = l ∧
      b.replayed read stack j n l = (b.entry stack j k).data ∧
      ∀ m < n, k < m → b.applies read stack j m = true → (b.entry stack j m).targetLba ≠ l := by
  induction n with
  | zero => exact .inl ⟨rfl, fun k hk => absurd hk (Nat.not_lt_zero k)⟩
  | succ n ih =>
    rw [Block.replayed]
    split
    · rename_i h
      exact .inr ⟨n, by omega, h.1, h.2, rfl, fun m hm hk => absurd hm (by omega)⟩
    · rename_i h
      have hn : b.applies read stack j n = true → (b.entry stack j n).targetLba ≠ l :=
        fun ha ht => h ⟨ha, ht⟩
      rcases ih with ⟨hsame, hnone⟩ | ⟨k, hk, ha, ht, hdata, hlast⟩
      · refine .inl ⟨hsame, fun k hk => ?_⟩
        rcases Nat.lt_succ_iff_lt_or_eq.mp hk with hlt | rfl
        · exact hnone k hlt
        · exact hn
      · refine .inr ⟨k, by omega, ha, ht, hdata, fun m hm hkm => ?_⟩
        rcases Nat.lt_succ_iff_lt_or_eq.mp hm with hlt | rfl
        · exact hlast m hlt hkm
        · exact hn

theorem Block.applies.held {i : Nat} (hi : i < j.slotCount.toNat) (h : b.applies read stack j i = true) :
    b.Held stack j i := ⟨hi, (Bool.and_eq_true_iff.mp h).2⟩

theorem ReplayedTo.applies (h : ReplayedTo b read stack j j.slotCount.toNat d) {i : Nat}
    (hi : i < j.slotCount.toNat) :
    d.applies read' stack' j i = (!b.applies read stack j i && b.applies read' stack' j i) := by
  unfold Block.applies Block.entry
  rw [h.log i hi]
  cases ha : b.applies read stack j i with
  | false =>
    rw [if_neg (by simp)]
    unfold Block.applies Block.entry at ha
    rw [ha]
    rfl
  | true =>
    rw [if_pos ⟨hi, rfl⟩, cleared_invalid]
    unfold Block.applies Block.entry at ha
    rw [ha]
    simp

/-- A replay keeps the newest data exactly if for every target the last slot has them, and no slot that
it does not apply is applied by the next one. -/
theorem replay_keeps_newest_iff (hj : j.ready = true) (hb : b.present = true) (hw : b.writable = true)
    (hout : ∀ i, b.Held stack j i → j.Outside (b.entry stack j i).targetLba) :
    KeepsNewest b read stack j read' stack' ↔ NewestLast b read stack j ∧
      ∀ i < j.slotCount.toNat, b.applies read stack j i = false → b.applies read' stack' j i = false := by
  obtain ⟨d, hrun, h⟩ :=
    journalReplay_steady read hj hb hw fun i hi ha => hout i (Block.applies.held hi ha)
  have hhome : ∀ i, b.Held stack j i → d.disk (b.entry stack j i).targetLba =
      b.replayed read stack j j.slotCount.toNat (b.entry stack j i).targetLba :=
      fun i hi => h.home _ (hout i hi)
  constructor
  · rintro ⟨n, d', hrun', hnewest, -, hagain⟩
    cases hrun.symm.trans hrun'
    refine ⟨⟨fun i k hi hk ht => ?_, fun i hi hnone => ?_⟩, fun i hi hno => ?_⟩
    · have hdata := (hhome i hi.held).symm.trans (hnewest i hi)
      rcases replayed_cases b read stack j j.slotCount.toNat (b.entry stack j i).targetLba with
        ⟨-, hnone⟩ | ⟨m, hm, ha, hmt, hmdata, hlast⟩
      · exact absurd ht (hnone k hk.lt hk.applied)
      · rcases Nat.lt_trichotomy m k with hlt | rfl | hgt
        · exact absurd ht (hlast k hk.lt hlt hk.applied)
        · exact hmdata.symm.trans hdata
        · exact absurd (hmt.trans ht.symm) (hk.last m hm hgt ha)
    · have hdata := (hhome i hi.held).symm.trans (hnewest i hi)
      rcases replayed_cases b read stack j j.slotCount.toNat (b.entry stack j i).targetLba with
        ⟨hsame, -⟩ | ⟨m, hm, ha, hmt, -⟩
      · exact hsame.symm.trans hdata
      · exact absurd hmt (hnone m hm ha)
    · have hidle := applies_of_zero hj h.present h.writable hagain hi
      rwa [h.applies hi, hno] at hidle
  · rintro ⟨hlast, hagain⟩
    refine ⟨_, d, hrun, fun i hi => ?_, fun l hl hnone => ?_, ?_⟩
    · rw [hhome i hi.held]
      rcases replayed_cases b read stack j j.slotCount.toNat (b.entry stack j i).targetLba with
        ⟨hsame, hnone⟩ | ⟨m, hm, ha, hmt, hmdata, hmlast⟩
      · exact hsame.trans (hlast.unread i hi hnone)
      · exact hmdata.trans (hlast.last i m hi ⟨hm, ha, fun k hk hmk hka => hmt ▸ hmlast k hk hmk hka⟩ hmt)
    · rw [h.home l hl]
      rcases replayed_cases b read stack j j.slotCount.toNat l with ⟨hsame, -⟩ | ⟨m, hm, ha, hmt, -⟩
      · exact hsame
      · exact absurd hmt (hnone m (Block.applies.held hm ha))
    · refine journalReplay_idle hj h.present h.writable fun i hi => ?_
      rw [h.applies hi]
      cases ha : b.applies read stack j i with
      | false => exact hagain i hi ha
      | true => rfl

end

/-! ## A log of two slots -/

def numberedRecord (n : Word) : Record :=
  journalRecord zeroRecord n 100 fun i => if i = 0 then n.setWidth 8 else 0

def twoRecords (m n : Word) : Block where
  present := true
  writable := true
  disk := fun l => if l = 8 then (numberedRecord m).sector
    else if l = 9 then (numberedRecord n).sector else fun _ => 0

def twoSlots : Journal := (journalInit (twoRecords 0 0) 8 2).2

section

variable (m n : Word) {i : Nat}

theorem numberedRecord_load : zeroRecord.load (numberedRecord n).sector = numberedRecord n := by
  refine load_sector_of_sameTail fun i hi => ?_
  change 0 = if i = 0 then _ else 0
  rw [if_neg (by rintro rfl; exact absurd hi (by decide))]

theorem twoRecords_entry (hi : i < 2) :
    (twoRecords m n).entry zeroRecord twoSlots i = numberedRecord (if i = 0 then m else n) := by
  obtain rfl | rfl : i = 0 ∨ i = 1 := by omega
  · exact numberedRecord_load m
  · exact numberedRecord_load n

theorem twoRecords_applies (hi : i < 2) :
    (twoRecords m n).applies (fun _ => true) zeroRecord twoSlots i = true := by
  rw [Block.applies, twoRecords_entry m n hi, Bool.true_and]
  exact journalRecord_valid ..

theorem twoRecords_held (hi : i < 2) : (twoRecords m n).Held zeroRecord twoSlots i :=
  Block.applies.held hi (twoRecords_applies m n hi)

theorem twoRecords_target (hi : i < 2) :
    ((twoRecords m n).entry zeroRecord twoSlots i).targetLba = 100 := by
  rw [twoRecords_entry m n hi]
  rfl

theorem twoRecords_outside (h : (twoRecords m n).Held zeroRecord twoSlots i) :
    twoSlots.Outside ((twoRecords m n).entry zeroRecord twoSlots i).targetLba := by
  rw [twoRecords_target m n h.1]
  decide

end

theorem replay_keeps_newest_ordered :
    KeepsNewest (twoRecords 2 3) (fun _ => true) zeroRecord twoSlots (fun _ => true) zeroRecord := by
  refine (replay_keeps_newest_iff rfl rfl rfl fun i => twoRecords_outside 2 3).mpr
    ⟨⟨fun i k hi hk ht => ?_, fun i hi hnone => ?_⟩, fun i hi hno => ?_⟩
  · have hi1 : i = 1 := by
      by_contra hne
      obtain rfl : i = 0 := by
        have hlt : i < 2 := hi.held.1
        omega
      have hle := hi.newest 1 (twoRecords_held 2 3 (by decide))
        ((twoRecords_target 2 3 (by decide)).trans (twoRecords_target 2 3 (by decide)).symm)
      rw [twoRecords_entry 2 3 (by decide), twoRecords_entry 2 3 (by decide)] at hle
      exact absurd hle (by decide)
    have hk1 : k = 1 := by
      by_contra hne
      have hlt : k < 2 := hk.lt
      refine hk.last 1 (by decide) (by omega) (twoRecords_applies 2 3 (by decide)) ?_
      rw [twoRecords_target 2 3 hlt, twoRecords_target 2 3 (by decide)]
    rw [hi1, hk1]
  · exact absurd rfl (hnone i hi.held.1 (twoRecords_applies 2 3 hi.held.1))
  · rw [twoRecords_applies 2 3 hi] at hno
    cases hno

/-- The log has wrapped: the record of slot 0 is newer than that of slot 1, and the older one is
restored. -/
theorem replay_restores_older :
    (∀ i < 2, (twoRecords 4 3).Held zeroRecord twoSlots i) ∧
      (∀ i, (twoRecords 4 3).Held zeroRecord twoSlots i →
        twoSlots.Outside ((twoRecords 4 3).entry zeroRecord twoSlots i).targetLba) ∧
      (numberedRecord 4).sequence = 4 ∧ (numberedRecord 3).sequence = 3 ∧
      (∃ d, journalReplay (steady fun _ => true) zeroRecord twoSlots (twoRecords 4 3) = .ok (2, d) ∧
        d.disk 100 0 = 3) ∧
      ¬KeepsNewest (twoRecords 4 3) (fun _ => true) zeroRecord twoSlots (fun _ => true) zeroRecord := by
  have hheld : ∀ i < 2, (twoRecords 4 3).Held zeroRecord twoSlots i := fun i hi => twoRecords_held 4 3 hi
  have hout : ∀ i, (twoRecords 4 3).Held zeroRecord twoSlots i →
      twoSlots.Outside ((twoRecords 4 3).entry zeroRecord twoSlots i).targetLba :=
      fun i => twoRecords_outside 4 3
  obtain ⟨d, hrun, h⟩ := @journalReplay_steady (twoRecords 4 3) (fun _ => true) zeroRecord twoSlots
    rfl rfl rfl fun i hi ha => hout i (Block.applies.held hi ha)
  have hcount : (List.range twoSlots.slotCount.toNat).countP
      ((twoRecords 4 3).applies (fun _ => true) zeroRecord twoSlots) = 2 := by
    refine (List.countP_eq_length.mpr fun i hi => ?_).trans rfl
    exact twoRecords_applies 4 3 (List.mem_range.mp hi)
  have hdata : d.disk 100 = (numberedRecord 3).data := by
    rw [h.home 100 (by decide)]
    change Block.replayed _ _ _ _ 2 100 = _
    rw [Block.replayed, if_pos ⟨twoRecords_applies 4 3 (by decide), twoRecords_target 4 3 (by decide)⟩,
      twoRecords_entry 4 3 (by decide)]
    rfl
  refine ⟨hheld, hout, rfl, rfl, ⟨d, by rw [hrun, hcount]; rfl, by rw [hdata]; rfl⟩, ?_⟩
  rintro ⟨n, d', hrun', hnewest, -⟩
  cases hrun.symm.trans hrun'
  have hfirst : NewestFor (twoRecords 4 3) zeroRecord twoSlots 0 := by
    refine ⟨hheld 0 (by decide), fun k hk _ => ?_⟩
    rw [twoRecords_entry 4 3 hk.1, twoRecords_entry 4 3 (by decide)]
    split
    · decide
    · decide
  have hlost := hnewest 0 hfirst
  rw [twoRecords_target 4 3 (by decide), hdata, twoRecords_entry 4 3 (by decide)] at hlost
  exact absurd (congrFun hlost 0) (by decide)

end Ceblar
