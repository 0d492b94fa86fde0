import Ceblar.Fs.Journal

/-! # Recovery after a crash

The bytes of the record that the slot has no room for decide whether the target comes back.
-/

namespace Ceblar

variable {j : Journal} {stack : Record} {b : Block}

def Journal.lba (j : Journal) (i : Nat) : Word := j.base + BitVec.ofNat 32 i

def Block.Blank (b : Block) (stack : Record) (j : Journal) (i : Nat) : Prop :=
  (stack.load (b.disk (j.lba i))).valid = false

theorem lba_injective {i k : Nat} (hi : i < j.slotCount.toNat) (hk : k < j.slotCount.toNat)
    (h : j.lba i = j.lba k) : i = k := by
  have hlt := j.slotCount.isLt
  have h' := congrArg BitVec.toNat (BitVec.add_right_inj _ |>.mp h)
  rwa [BitVec.toNat_ofNat, BitVec.toNat_ofNat, Nat.mod_eq_of_lt (by omega),
    Nat.mod_eq_of_lt (by omega)] at h'

theorem journalReplay_run (st : Nat → Nat × Block) (hj : j.ready = true)
    (h0 : (st 0).1 = 0) (hstep : ∀ i < j.slotCount.toNat, ∀ r, SameTail r stack →
      ∃ r', replaySlot smooth j i (r, st i) = .ok (r', st (i + 1)) ∧ SameTail r' stack) :
    journalReplay smooth stack j (st 0).2 =
      .ok ((st j.slotCount.toNat).1, (st j.slotCount.toNat).2) := by
  have hstart : (0, (st 0).2) = st 0 := Prod.ext h0.symm rfl
  obtain ⟨⟨r, q⟩, hrun, -, hq⟩ := @forRangeE_inv _ _ (replaySlot smooth j) (stack, st 0)
    (fun i s => SameTail s.1 stack ∧ s.2 = st i) j.slotCount.toNat ⟨fun _ _ => rfl, rfl⟩ (by
      rintro i hi ⟨r, _⟩ ⟨htail, rfl⟩
      obtain ⟨r', hr', htail'⟩ := hstep i hi r htail
      exact ⟨_, hr', htail', rfl⟩)
  cases hq
  simp only [journalReplay, hj, Bool.not_true, Bool.false_eq_true, if_false, hstart, hrun]
  rfl

theorem replaySlot_blank {r : Record} {i : Nat} (n : Nat)
    (hb : b.present = true) (hblank : b.Blank stack j i) (htail : SameTail r stack) :
    ∃ r', replaySlot smooth j i (r, n, b) = .ok (r', n, b) ∧ SameTail r' stack := by
  refine ⟨_, replaySlot_invalid n rfl hb ?_, fun k hk => (sameTail_load r _ k hk).trans (htail k hk)⟩
  rw [load_congr htail]
  exact hblank

theorem journalReplay_blank (hj : j.ready = true)
    (hb : b.present = true) (hblank : ∀ i < j.slotCount.toNat, b.Blank stack j i) :
    journalReplay smooth stack j b = .ok (0, b) :=
  journalReplay_run (fun _ => (0, b)) hj rfl fun i hi _ htail => replaySlot_blank 0 hb (hblank i hi) htail

theorem journalReplay_single {q : Record} {k : Nat} (hj : j.ready = true) (hb : b.present = true)
    (hw : b.writable = true) (hk : k < j.slotCount.toNat) (hq : stack.load (b.disk (j.lba k)) = q)
    (hvalid : q.valid = true) (hout : ∀ i < j.slotCount.toNat, q.targetLba ≠ j.lba i)
    (hblank : ∀ i < j.slotCount.toNat, i ≠ k → b.Blank stack j i) :
    journalReplay smooth stack j b =
      .ok (1, (b.store q.targetLba q.data).store (j.lba k) { q with committed := 0 }.sector) := by
  let after : Block := (b.store q.targetLba q.data).store (j.lba k) { q with committed := 0 }.sector
  refine (journalReplay_run (fun i => if i ≤ k then (0, b) else (1, after)) hj rfl ?_).trans
    (by rw [if_neg (Nat.not_le.mpr hk)]; rfl)
  intro i hi r htail
  rcases Nat.lt_trichotomy i k with hlt | rfl | hgt
  · rw [if_pos (by omega), if_pos (by omega)]
    exact replaySlot_blank 0 hb (hblank i hi (by omega)) htail
  · rw [if_pos (by omega), if_neg (by omega)]
    refine ⟨_, replaySlot_valid 0 rfl rfl rfl hb hw ((load_congr htail _).trans hq) hvalid, ?_⟩
    subst hq
    exact sameTail_load stack _
  · rw [if_neg (by omega), if_neg (by omega)]
    refine replaySlot_blank 1 hb ?_ htail
    -- the slots behind `k` are neither the target nor slot `k`
    have hkeep : after.disk (j.lba i) = b.disk (j.lba i) := by
      rw [store_disk_ne _ _ fun h => absurd (lba_injective hi hk h) (by omega),
        store_disk_ne _ _ (hout i hi).symm]
    unfold Block.Blank
    rw [hkeep]
    exact hblank i hi (by omega)

/-! ## Crashes inside `journal_write` -/

inductive CrashPoint where
  | beforeRecord
  | atTarget (left : Option Sector)
  | beforeClear
  | afterClear

def CrashPoint.outcomes : CrashPoint → Nat → Outcome
  | .beforeRecord, _ => .crash none
  | .atTarget left, n => if n = 0 then .done else .crash left
  | .beforeClear, n => if n < 2 then .done else .crash none
  | .afterClear, _ => .done

def CrashPoint.stored : CrashPoint → Bool
  | .beforeRecord => false
  | _ => true

def CrashPoint.found (c : CrashPoint) (before content : Sector) : Sector :=
  match c with
  | .beforeRecord | .atTarget none => before
  | .atTarget (some left) => left
  | .beforeClear | .afterClear => content

def CrashPoint.pending : CrashPoint → Bool
  | .atTarget _ | .beforeClear => true
  | .beforeRecord | .afterClear => false

def CrashPoint.logged (c : CrashPoint) (r : Record) : Record :=
  match c.pending with
  | true => r
  | false => { r with committed := 0 }

def rebooted : Except Block (Int × Journal × Block) → Block
  | .error b => b
  | .ok (_, _, b) => b

def journalAt (b : Block) (base slots sequence : Word) : Journal :=
  { (journalInit b base slots).2 with sequence := sequence }

/-- A journalled write cut short at `c`, a reboot, and a replay in which no device fails. `old` and
`stack` are the local records of `journal_write` and of `journal_replay` before they are filled in. -/
def recovered (c : CrashPoint) (old stack : Record) (b : Block) (base slots sequence target : Word)
    (content : Sector) : Except Block (Int × Block) :=
  let b' := rebooted (journalWrite c.outcomes old (journalAt b base slots sequence) b target content)
  journalReplay smooth stack (journalInit b' base slots).2 b'

/-- A working device, a log without valid records, and a target outside the log. -/
structure CleanLog (b : Block) (stack : Record) (base slots target : Word) : Prop where
  present : b.present = true
  writable : b.writable = true
  slots_ne : slots ≠ 0
  blank : ∀ i < (journalInit b base slots).2.slotCount.toNat, b.Blank stack (journalInit b base slots).2 i
  outside : ∀ i < (journalInit b base slots).2.slotCount.toNat,
    target ≠ (journalInit b base slots).2.lba i

section Crash

variable {b : Block} {stack : Record} {base slots target : Word}

theorem CleanLog.ready (h : CleanLog b stack base slots target) :
    (journalInit b base slots).2.ready = true := by
  have h0 := h.slots_ne
  simp only [journalInit, h.present, Bool.true_and, bne_iff_ne]
  split
  · decide
  · exact h0

theorem slot_eq_lba (j : Journal) (sequence : Word) :
    j.slot sequence = j.lba (sequence % j.slotCount).toNat := by
  rw [Journal.slot, Journal.lba, BitVec.ofNat_toNat, BitVec.setWidth_eq]

theorem CleanLog.slot_lt (h : CleanLog b stack base slots target) (sequence : Word) :
    (sequence % (journalInit b base slots).2.slotCount).toNat <
      (journalInit b base slots).2.slotCount.toNat := by
  have hr := h.ready
  simp only [journalInit, Bool.and_eq_true, bne_iff_ne] at hr
  rw [BitVec.toNat_umod]
  exact Nat.mod_lt _ (Nat.pos_of_ne_zero fun h0 => hr.2 (BitVec.eq_of_toNat_eq h0))

theorem rebooted_journalWrite (h : CleanLog b stack base slots target) (c : CrashPoint) (old : Record)
    (sequence : Word) (content : Sector) :
    rebooted (journalWrite c.outcomes old (journalAt b base slots sequence) b target content) =
      let slot := (journalInit b base slots).2.slot sequence
      let r := journalRecord old sequence target content
      match c with
      | .beforeRecord => b
      | .atTarget none => b.store slot r.sector
      | .atTarget (some left) => (b.store slot r.sector).store target left
      | .beforeClear => (b.store slot r.sector).store target content
      | .afterClear => ((b.store slot r.sector).store target content).store slot
          { r with committed := 0 }.sector := by
  have hb := h.present
  have hw := h.writable
  have hr : (journalAt b base slots sequence).ready = true := h.ready
  unfold journalWrite
  rw [hr, hw]
  cases c with
  | beforeRecord => simp [hb, hw, CrashPoint.outcomes, blockWriteSector, bind, Except.bind, rebooted]
  | atTarget left =>
    cases left <;> simp [hb, hw, CrashPoint.outcomes, blockWriteSector, bind, Except.bind,
      rebooted] <;> rfl
  | beforeClear => simp [hb, hw, CrashPoint.outcomes, blockWriteSector, bind, Except.bind, rebooted]; rfl
  | afterClear => simp [hb, hw, CrashPoint.outcomes, blockWriteSector, bind, Except.bind, rebooted]; rfl

theorem journalReplay_stored (h : CleanLog b stack base slots target) {b' : Block} {q : Record}
    {sequence : Word} (hb : b'.present = true) (hw : b'.writable = true)
    (hslot : b'.disk ((journalInit b base slots).2.slot sequence) = q.sector) (hq : q.targetLba = target)
    (hother : ∀ l, l ≠ target → l ≠ (journalInit b base slots).2.slot sequence → b'.disk l = b.disk l) :
    ∃ n d, journalReplay smooth stack (journalInit b base slots).2 b' = .ok (n, d) ∧
      d.disk target = if (stack.load q.sector).valid then (stack.load q.sector).data
        else b'.disk target := by
  rw [slot_eq_lba] at hslot hother
  have hk := h.slot_lt sequence
  generalize (sequence % (journalInit b base slots).2.slotCount).toNat = k at hslot hother hk
  have hblank : ∀ i < (journalInit b base slots).2.slotCount.toNat, i ≠ k →
      b'.Blank stack (journalInit b base slots).2 i := by
    intro i hi hne
    unfold Block.Blank
    rw [hother _ (h.outside i hi).symm fun he => hne (lba_injective hi hk he)]
    exact h.blank i hi
  have htarget : (stack.load q.sector).targetLba = target := by rw [load_sector]; exact hq
  by_cases hvalid : (stack.load q.sector).valid = true
  · refine ⟨_, _, journalReplay_single h.ready hb hw hk (by rw [hslot]) hvalid ?_ hblank, ?_⟩
    · intro i hi
      rw [htarget]
      exact h.outside i hi
    · rw [if_pos hvalid, store_disk_ne _ _ (h.outside k hk), htarget, store_disk_self]
  · refine ⟨_, _, journalReplay_blank h.ready hb ?_, (if_neg hvalid).symm⟩
    intro i hi
    rcases eq_or_ne i k with rfl | hne
    · unfold Block.Blank
      rw [hslot]
      exact Bool.eq_false_of_not_eq_true hvalid
    · exact hblank i hi hne

theorem journalInit_congr {b' : Block} (hb : b'.present = b.present) (start n : Word) :
    journalInit b' start n = journalInit b start n := by
  unfold journalInit
  rw [hb]

structure Crashed (c : CrashPoint) (b b' : Block) (slot target : Word) (r : Record)
    (content : Sector) : Prop where
  present : b'.present = b.present
  writable : b'.writable = b.writable
  log : c.stored = true → b'.disk slot = (c.logged r).sector
  home : b'.disk target = c.found (b.disk target) content
  other : ∀ l, l ≠ target → (c.stored = true → l ≠ slot) → b'.disk l = b.disk l

theorem journalWrite_crashed (h : CleanLog b stack base slots target) (c : CrashPoint) (old : Record)
    (sequence : Word) (content : Sector) :
    Crashed c b
      (rebooted (journalWrite c.outcomes old (journalAt b base slots sequence) b target content))
      ((journalInit b base slots).2.slot sequence) target
        (journalRecord old sequence target content) content := by
  have hne : target ≠ (journalInit b base slots).2.slot sequence := by
    rw [slot_eq_lba]
    exact h.outside _ (h.slot_lt sequence)
  rw [rebooted_journalWrite h]
  rcases c with _ | (_ | left) | _ | _
  · exact ⟨rfl, rfl, nofun, rfl, fun _ _ _ => rfl⟩
  · refine ⟨rfl, rfl, fun _ => store_disk_self .., store_disk_ne _ _ hne,
      fun l _ hs => store_disk_ne _ _ (hs rfl)⟩
  · refine ⟨rfl, rfl, fun _ => ?_, store_disk_self .., fun l ht hs => ?_⟩
    · rw [store_disk_ne _ _ hne.symm]; exact store_disk_self ..
    · rw [store_disk_ne _ _ ht, store_disk_ne _ _ (hs rfl)]
  · refine ⟨rfl, rfl, fun _ => ?_, store_disk_self .., fun l ht hs => ?_⟩
    · rw [store_disk_ne _ _ hne.symm]; exact store_disk_self ..
    · rw [store_disk_ne _ _ ht, store_disk_ne _ _ (hs rfl)]
  · refine ⟨rfl, rfl, fun _ => store_disk_self .., ?_, fun l ht hs => ?_⟩
    · rw [store_disk_ne _ _ hne]; exact store_disk_self ..
    · rw [store_disk_ne _ _ (hs rfl), store_disk_ne _ _ ht, store_disk_ne _ _ (hs rfl)]

theorem recovered_spec (h : CleanLog b stack base slots target) (c : CrashPoint) (old : Record)
    (sequence : Word) (content : Sector) :
    let q := stack.load (journalRecord old sequence target content).sector
    ∃ n d, recovered c old stack b base slots sequence target content = .ok (n, d) ∧
      d.disk target = if c.pending && q.valid then q.data else c.found (b.disk target) content := by
  have hc := journalWrite_crashed h c old sequence content
  have hr : (journalRecord old sequence target content).targetLba = target := rfl
  unfold recovered
  generalize rebooted
    (journalWrite c.outcomes old (journalAt b base slots sequence) b target content) = b' at hc
  generalize journalRecord old sequence target content = r at hc hr
  intro q
  have hp : b'.present = true := hc.present.trans h.present
  have hw : b'.writable = true := hc.writable.trans h.writable
  simp only [journalInit_congr hc.present]
  cases hs : c.stored with
  | false =>
    have hpend : c.pending = false := by
      cases c with
      | beforeRecord => rfl
      | atTarget | beforeClear | afterClear => cases hs
    refine ⟨_, _, journalReplay_blank h.ready hp fun i hi => ?_, by rw [hpend]; exact hc.home⟩
    unfold Block.Blank
    rw [hc.other _ (h.outside i hi).symm (by rw [hs]; nofun)]
    exact h.blank i hi
  | true =>
    have hlog := hc.log hs
    cases hpend : c.pending with
    | true =>
      have hlogged : c.logged r = r := by rw [CrashPoint.logged, hpend]
      rw [hlogged] at hlog
      obtain ⟨n, d, hrun, hd⟩ :=
        journalReplay_stored h hp hw hlog hr fun l ht hl => hc.other l ht fun _ => hl
      exact ⟨n, d, hrun, by rw [hd, hc.home, Bool.true_and]⟩
    | false =>
      have hlogged : c.logged r = { r with committed := 0 } := by rw [CrashPoint.logged, hpend]
      rw [hlogged] at hlog
      obtain ⟨n, d, hrun, hd⟩ :=
        journalReplay_stored h hp hw hlog hr fun l ht hl => hc.other l ht fun _ => hl
      refine ⟨n, d, hrun, ?_⟩
      rw [hd, hc.home, cleared_invalid, Bool.false_and, if_neg Bool.false_ne_true,
        if_neg Bool.false_ne_true]

/-- **Crash atomicity.** Wherever the crash falls, the target comes back with its old content if the
record was not stored, and with the new content otherwise. -/
def CrashAtomic (old stack : Record) (b : Block) (base slots sequence target : Word)
    (content : Sector) : Prop :=
  ∀ c : CrashPoint, ∃ n d, recovered c old stack b base slots sequence target content = .ok (n, d) ∧
    d.disk target = if c.stored then content else b.disk target

/-- The journal is crash-atomic for a content exactly if the stack of `journal_replay` happens to hold
the last 20 bytes of it. -/
theorem journal_atomic_iff (h : CleanLog b stack base slots target) (old : Record) (sequence : Word)
    (content : Sector) :
    CrashAtomic old stack b base slots sequence target content ↔
      ∀ i : Fin 512, 492 ≤ i.val → stack.data i = content i := by
  constructor
  · intro hatomic i hi
    -- a torn target that is not the new content can only be mended from the record
    let torn : Sector := fun i => content i + 1
    obtain ⟨n, d, hrun, hd⟩ := hatomic (.atTarget (some torn))
    obtain ⟨n', d', hrun', hd'⟩ := recovered_spec h (.atTarget (some torn)) old sequence content
    cases hrun.symm.trans hrun'
    rw [hd] at hd'
    simp only [CrashPoint.stored, CrashPoint.pending, CrashPoint.found, Bool.true_and, if_true] at hd'
    split at hd'
    · rw [load_sector] at hd'
      have hdata := congrFun hd' i
      simp only [if_neg (show ¬ i.val < 492 by omega)] at hdata
      exact hdata.symm
    · have hbyte := congrFun hd' 0
      exact absurd hbyte (by simp [torn])
  · intro htail c
    obtain ⟨n, d, hrun, hd⟩ := recovered_spec h c old sequence content
    refine ⟨n, d, hrun, hd.trans ?_⟩
    have hq : stack.load (journalRecord old sequence target content).sector =
        journalRecord old sequence target content := load_sector_of_sameTail htail
    rw [hq, journalRecord_valid]
    rcases c with _ | _ | _ | _ <;> rfl

end Crash

def zeroRecord : Record where
  magic := 0
  sequence := 0
  targetLba := 0
  checksum := 0
  committed := 0
  reserved := fun _ => 0
  data := fun _ => 0

def zeroDisk : Block where
  present := true
  writable := true
  disk := fun _ _ => 0

def lastByteSet : Sector := fun i => if i = 511 then 1 else 0

theorem zeroDisk_clean : CleanLog zeroDisk zeroRecord 8 32 1000 where
  present := rfl
  writable := rfl
  slots_ne := by decide
  blank := fun _ _ => show (zeroRecord.load fun _ => 0).valid = false by decide
  outside := by decide +kernel

theorem journal_atomic_iff_zeroDisk :
    CrashAtomic zeroRecord zeroRecord zeroDisk 8 32 1 1000 (fun _ => 0) ∧
      ¬ CrashAtomic zeroRecord zeroRecord zeroDisk 8 32 1 1000 lastByteSet := by
  refine ⟨(journal_atomic_iff zeroDisk_clean zeroRecord 1 _).mpr fun _ _ => rfl, ?_⟩
  rw [journal_atomic_iff zeroDisk_clean zeroRecord 1 lastByteSet]
  exact fun h => absurd (h 511 (by decide)) (by decide)

/-- The crash comes between the two writes, and the replay does not bring the last byte back. -/
theorem journal_drops_last_byte :
    (recovered (.atTarget none) zeroRecord zeroRecord zeroDisk 8 32 1 1000 lastByteSet).toOption.map
      (fun p => p.2.disk 1000 511) = some 0 ∧ lastByteSet 511 = 1 := by
  decide +kernel

end Ceblar
