import Ceblar.Lib.Bytes
import Ceblar.Lib.Run
import Mathlib.Data.List.Induction
import Mathlib.Logic.Function.Basic

/-! # The ACPI tables (`drivers/acpi/acpi.c`)

`parse_madt` walks over records whose lengths are in the table. A read at or behind the length of the table
is an error here, so that the walk can be seen to stay within the table.
-/

namespace Ceblar

open Function
open BitVec (ofNat toNat_add)

variable {a : Acpi} {t : Sdt} {kept : Word × Word}

structure IrqOverride where
  source : Byte
  gsi : Word
  flags : BitVec 16
  deriving DecidableEq

structure Acpi where
  lapicBase : Word
  ioapicBase : Word
  ioapicGsiBase : Word
  cpuCount : Word
  overrideCount : Word
  cpuApicIds : Nat → Byte
  overrides : Nat → IrqOverride
  madtFound : Bool

def ioapicDefault : Word := 0xfec00000

def acpiDefaults (a : Acpi) : Acpi :=
  { a with
    madtFound := false, lapicBase := 0xfee00000, ioapicBase := ioapicDefault, ioapicGsiBase := 0,
    cpuCount := 1
    overrideCount := 0 }

/-! ## Reading a table -/

/-- The bytes from the start of a table on, whatever memory holds there. -/
abbrev Sdt := Nat → Byte

def Sdt.length (t : Sdt) : Word := le32 (t 4) (t 5) (t 6) (t 7)

inductive MadtStop where
  /-- A read that is not within the table. -/
  | beyond
  | unfinished
  deriving DecidableEq

def Sdt.read8 (t : Sdt) (i : Word) : Except MadtStop Byte :=
  if i < t.length then .ok (t i.toNat) else .error .beyond

def Sdt.read16 (t : Sdt) (i : Word) : Except MadtStop (BitVec 16) := do
  let b0 ← t.read8 i
  let b1 ← t.read8 (i + 1)
  .ok (b1 ++ b0)

def Sdt.read32 (t : Sdt) (i : Word) : Except MadtStop Word := do
  let b0 ← t.read8 i
  let b1 ← t.read8 (i + 1)
  let b2 ← t.read8 (i + 2)
  let b3 ← t.read8 (i + 3)
  .ok (le32 b0 b1 b2 b3)

def madtRecord (t : Sdt) (pos : Word) (type len : Byte) (a : Acpi) : Except MadtStop Acpi :=
  if type = 0 ∧ len ≥ 8 then do
    let flags ← t.read32 (pos + 4)
    if flags &&& 1 ≠ 0 ∧ a.cpuCount < 16 then
      let id ← t.read8 (pos + 3)
      .ok { a with cpuApicIds := update a.cpuApicIds a.cpuCount.toNat id, cpuCount := a.cpuCount + 1 }
    else .ok a
  else if type = 1 ∧ len ≥ 12 ∧ a.ioapicBase = ioapicDefault then do
    let ioapicBase ← t.read32 (pos + 4)
    let ioapicGsiBase ← t.read32 (pos + 8)
    .ok { a with ioapicBase, ioapicGsiBase }
  else if type = 2 ∧ len ≥ 10 ∧ a.overrideCount < 16 then do
    let source ← t.read8 (pos + 3)
    let gsi ← t.read32 (pos + 4)
    let flags ← t.read16 (pos + 8)
    .ok { a with
      overrides := update a.overrides a.overrideCount.toNat ⟨source, gsi, flags⟩
      overrideCount := a.overrideCount + 1 }
  else .ok a

def madtLoop (t : Sdt) : Nat → Word → Acpi → Except MadtStop Acpi
  | 0, _, _ => .error .unfinished
  | fuel + 1, pos, a =>
    if pos + 2 ≤ t.length then do
      let type ← t.read8 pos
      let len ← t.read8 (pos + 1)
      if len < 2 ∨ pos + len.setWidth 32 > t.length then .ok a
      else
        let a ← madtRecord t pos type len a
        madtLoop t fuel (pos + len.setWidth 32) a
    else .ok a

/-- `parse_madt`: 36 bytes of header, 8 that are common to the records, and the records. -/
def parseMadt (fuel : Nat) (t : Sdt) (a : Acpi) : Except MadtStop Acpi :=
  if t.length < 44 then .ok a
  else do
    let lapicBase ← t.read32 36
    let a ← madtLoop t fuel 44
      { a with madtFound := true, lapicBase, cpuCount := 0, overrideCount := 0, ioapicGsiBase := 0 }
    .ok (if a.cpuCount = 0 then { a with cpuCount := 1 } else a)

/-- `acpi_irq_to_gsi`, with the results that it stores; the callers pass no null pointers. -/
def acpiIrqToGsi (irq : Byte) (a : Acpi) : Int × Word × BitVec 16 :=
  match (List.range a.overrideCount.toNat).find? fun i => (a.overrides i).source == irq with
  | some i => (1, (a.overrides i).gsi, (a.overrides i).flags)
  | none => (0, irq.setWidth 32, 0)

/-! ## Records -/

inductive MadtRecord where
  | localApic (id : Byte) (flags : Word)
  | ioApic (address gsiBase : Word)
  | irqOverride (o : IrqOverride)
  | other
  deriving DecidableEq

def decodeRecord (e : Nat → Byte) : MadtRecord :=
  if e 0 = 0 ∧ e 1 ≥ 8 then .localApic (e 3) (le32 (e 4) (e 5) (e 6) (e 7))
  else if e 0 = 1 ∧ e 1 ≥ 12 then .ioApic (le32 (e 4) (e 5) (e 6) (e 7)) (le32 (e 8) (e 9) (e 10) (e 11))
  else if e 0 = 2 ∧ e 1 ≥ 10 then .irqOverride ⟨e 3, le32 (e 4) (e 5) (e 6) (e 7), e 9 ++ e 8⟩
  else .other

def Acpi.add (a : Acpi) : MadtRecord → Acpi
  | .localApic id flags =>
    if flags &&& 1 ≠ 0 ∧ a.cpuCount < 16 then
      { a with cpuApicIds := update a.cpuApicIds a.cpuCount.toNat id, cpuCount := a.cpuCount + 1 }
    else a
  | .ioApic address gsiBase =>
    if a.ioapicBase = ioapicDefault then { a with ioapicBase := address, ioapicGsiBase := gsiBase } else a
  | .irqOverride o =>
    if a.overrideCount < 16 then
      { a with overrides := update a.overrides a.overrideCount.toNat o, overrideCount := a.overrideCount + 1 }
    else a
  | .other => a

section

variable {t : Sdt} {pos : Word} {a : Acpi}

theorem read8_ok {i : Word} (h : i.toNat < t.length.toNat) : t.read8 i = .ok (t i.toNat) := if_pos h

theorem read8_at {k : Nat} (hk : pos.toNat + k < t.length.toNat) :
    t.read8 (pos + ofNat 32 k) = .ok (t (pos.toNat + k)) := by
  have hlen := t.length.isLt
  have hplace : (pos + ofNat 32 k).toNat = pos.toNat + k := by
    rw [toNat_add, BitVec.toNat_ofNat]
    omega
  rw [read8_ok (by omega), hplace]

theorem read32_at {k : Nat} (hk : pos.toNat + k + 3 < t.length.toNat) :
    t.read32 (pos + ofNat 32 k) =
      .ok (le32 (t (pos.toNat + k)) (t (pos.toNat + (k + 1))) (t (pos.toNat + (k + 2)))
        (t (pos.toNat + (k + 3)))) := by
  have hnext : ∀ j : Nat, pos + ofNat 32 k + ofNat 32 j = pos + ofNat 32 (k + j) := by
    intro j
    rw [BitVec.add_assoc, BitVec.ofNat_add]
  unfold Sdt.read32
  rw [show (1 : Word) = ofNat 32 1 from rfl, show (2 : Word) = ofNat 32 2 from rfl,
    show (3 : Word) = ofNat 32 3 from rfl, hnext, hnext, hnext, read8_at (by omega), read8_at (by omega),
    read8_at (by omega), read8_at (by omega)]
  rfl

theorem read16_at {k : Nat} (hk : pos.toNat + k + 1 < t.length.toNat) :
    t.read16 (pos + ofNat 32 k) = .ok (t (pos.toNat + (k + 1)) ++ t (pos.toNat + k)) := by
  unfold Sdt.read16
  rw [show (1 : Word) = ofNat 32 1 from rfl, BitVec.add_assoc, ← BitVec.ofNat_add, read8_at (by omega),
    read8_at (by omega)]
  rfl

theorem madtRecord_eq (hlen : pos.toNat + (t (pos.toNat + 1)).toNat ≤ t.length.toNat) (a : Acpi) :
    madtRecord t pos (t pos.toNat) (t (pos.toNat + 1)) a =
      .ok (a.add (decodeRecord fun i => t (pos.toNat + i))) := by
  unfold madtRecord decodeRecord
  simp only [Nat.add_zero]
  by_cases h0 : t pos.toNat = 0 ∧ t (pos.toNat + 1) ≥ 8
  · have hwide : 8 ≤ (t (pos.toNat + 1)).toNat := h0.2
    rw [if_pos h0, if_pos h0, show (4 : Word) = ofNat 32 4 from rfl, read32_at (by omega),
      show (3 : Word) = ofNat 32 3 from rfl, read8_at (by omega)]
    dsimp only [bind, Except.bind, Acpi.add]
    split <;> rfl
  · rw [if_neg h0, if_neg h0]
    by_cases h1 : t pos.toNat = 1 ∧ t (pos.toNat + 1) ≥ 12
    · have hwide : 12 ≤ (t (pos.toNat + 1)).toNat := h1.2
      have h2 : ¬(t pos.toNat = 2 ∧ t (pos.toNat + 1) ≥ 10 ∧ a.overrideCount < 16) := by
        rw [h1.1]
        exact fun h => absurd h.1 (by decide)
      rw [if_pos h1, if_neg h2, show (4 : Word) = ofNat 32 4 from rfl, read32_at (by omega),
        show (8 : Word) = ofNat 32 8 from rfl, read32_at (by omega)]
      dsimp only [bind, Except.bind, Acpi.add]
      by_cases hbase : a.ioapicBase = ioapicDefault
      · rw [if_pos ⟨h1.1, h1.2, hbase⟩, if_pos hbase]
      · rw [if_neg fun h => hbase h.2.2, if_neg hbase]
    · rw [if_neg fun h => h1 ⟨h.1, h.2.1⟩, if_neg h1]
      by_cases h2 : t pos.toNat = 2 ∧ t (pos.toNat + 1) ≥ 10
      · have hwide : 10 ≤ (t (pos.toNat + 1)).toNat := h2.2
        rw [if_pos h2, show (3 : Word) = ofNat 32 3 from rfl, read8_at (by omega),
          show (4 : Word) = ofNat 32 4 from rfl, read32_at (by omega),
          show (8 : Word) = ofNat 32 8 from rfl, read16_at (by omega)]
        dsimp only [bind, Except.bind, Acpi.add]
        by_cases hroom : a.overrideCount < 16
        · rw [if_pos ⟨h2.1, h2.2, hroom⟩, if_pos hroom]
        · rw [if_neg fun h => hroom h.2.2, if_neg hroom]
      · rw [if_neg fun h => h2 ⟨h.1, h.2.1⟩, if_neg h2]
        rfl

/-! ## The walk -/

theorem toNat_madtNext (hend : t.length.toNat + 256 ≤ 2 ^ 32) (hpos : pos.toNat ≤ t.length.toNat)
    (len : Byte) :
    (pos + len.setWidth 32).toNat = pos.toNat + len.toNat := by
  have hbyte := len.isLt
  rw [toNat_add, BitVec.toNat_setWidth]
  omega

theorem madtLoop_succ (hend : t.length.toNat + 256 ≤ 2 ^ 32) (hpos : pos.toNat ≤ t.length.toNat)
    (fuel : Nat) (a : Acpi) :
    madtLoop t (fuel + 1) pos a =
      if pos.toNat + 2 ≤ t.length.toNat ∧ 2 ≤ (t (pos.toNat + 1)).toNat ∧
          pos.toNat + (t (pos.toNat + 1)).toNat ≤ t.length.toNat then
        madtLoop t fuel (pos + (t (pos.toNat + 1)).setWidth 32)
          (a.add (decodeRecord fun i => t (pos.toNat + i)))
      else .ok a := by
  have hroom : pos + 2 ≤ t.length ↔ pos.toNat + 2 ≤ t.length.toNat := by
    rw [BitVec.le_def, toNat_add, show (2 : Word).toNat = 2 from rfl]
    omega
  have hnext := toNat_madtNext hend hpos (t (pos.toNat + 1))
  rw [madtLoop]
  by_cases hin : pos.toNat + 2 ≤ t.length.toNat
  · rw [if_pos (hroom.mpr hin), read8_ok (by omega), show (1 : Word) = ofNat 32 1 from rfl,
      read8_at (by omega)]
    dsimp only [bind, Except.bind]
    by_cases hlen : 2 ≤ (t (pos.toNat + 1)).toNat ∧ pos.toNat + (t (pos.toNat + 1)).toNat ≤ t.length.toNat
    · have hgo : ¬(t (pos.toNat + 1) < 2 ∨ pos + (t (pos.toNat + 1)).setWidth 32 > t.length) := by
        rw [BitVec.lt_def, gt_iff_lt, BitVec.lt_def, hnext, show (2 : Byte).toNat = 2 from rfl]
        omega
      rw [if_neg hgo, madtRecord_eq hlen.2, if_pos ⟨hin, hlen⟩]
    · have hstop : t (pos.toNat + 1) < 2 ∨ pos + (t (pos.toNat + 1)).setWidth 32 > t.length := by
        rw [BitVec.lt_def, gt_iff_lt, BitVec.lt_def, hnext, show (2 : Byte).toNat = 2 from rfl]
        omega
      rw [if_pos hstop, if_neg fun h => hlen h.2]
  · rw [if_neg (mt hroom.mp hin), if_neg fun h => hin h.1]

end

/-! ## Any table

Each round either ends the walk or moves it on by two bytes or more.
-/

structure Acpi.Bounded (a : Acpi) : Prop where
  cpus : a.cpuCount.toNat ≤ 16
  overrides : a.overrideCount.toNat ≤ 16

theorem Acpi.Bounded.add (h : a.Bounded) (r : MadtRecord) : (a.add r).Bounded := by
  have hnext {n : Word} (hn : n < 16) : (n + 1).toNat ≤ 16 := by
    have hlt : n.toNat < 16 := hn
    rw [toNat_add, show (1 : Word).toNat = 1 from rfl]
    omega
  cases r with
  | localApic id flags =>
    unfold Acpi.add
    dsimp only
    split
    · exact ⟨hnext (And.right ‹_›), h.overrides⟩
    · exact h
  | ioApic address gsiBase =>
    unfold Acpi.add
    dsimp only
    split
    · exact ⟨h.cpus, h.overrides⟩
    · exact h
  | irqOverride o =>
    unfold Acpi.add
    dsimp only
    split
    · exact ⟨h.cpus, hnext ‹_›⟩
    · exact h
  | other => exact h

def madtStart (t : Sdt) (a : Acpi) : Acpi :=
  { a with
    madtFound := true, lapicBase := le32 (t 36) (t 37) (t 38) (t 39), cpuCount := 0, overrideCount := 0
    ioapicGsiBase := 0 }

def madtFinish (a : Acpi) : Acpi := if a.cpuCount = 0 then { a with cpuCount := 1 } else a

theorem parseMadt_eq (hlong : 44 ≤ t.length.toNat) {fuel : Nat} :
    parseMadt fuel t a = madtLoop t fuel 44 (madtStart t a) >>= fun a => .ok (madtFinish a) := by
  have hread : t.read32 36 = .ok (le32 (t 36) (t 37) (t 38) (t 39)) := @read32_at t 36 0 (by
    rw [show (36 : Word).toNat = 36 from rfl]
    omega)
  have hshort : ¬t.length < 44 := BitVec.not_lt.mpr hlong
  unfold parseMadt
  rw [if_neg hshort, hread]
  rfl

theorem madtFinish_bounded (h : a.Bounded) :
    1 ≤ (madtFinish a).cpuCount ∧ (madtFinish a).cpuCount ≤ 16 ∧ (madtFinish a).overrideCount ≤ 16 := by
  unfold madtFinish
  split
  · exact ⟨Nat.le_refl 1, Nat.le_of_ble_eq_true rfl, h.overrides⟩
  · rename_i hsome
    have hpos : a.cpuCount.toNat ≠ 0 := fun h0 => hsome (BitVec.eq_of_toNat_eq h0)
    exact ⟨Nat.one_le_iff_ne_zero.mpr hpos, h.cpus, h.overrides⟩

theorem madtLoop_ends (hend : t.length.toNat + 256 ≤ 2 ^ 32) (fuel : Nat) :
    ∀ (pos : Word) (a : Acpi), pos.toNat ≤ t.length.toNat → a.Bounded →
      (madtLoop t fuel pos a = .error .unfinished ∧ pos.toNat + fuel ≤ t.length.toNat) ∨
        ∃ a', madtLoop t fuel pos a = .ok a' ∧ a'.Bounded := by
  induction fuel with
  | zero =>
    intro pos a hpos _
    exact .inl ⟨rfl, hpos⟩
  | succ fuel ih =>
    intro pos a hpos ha
    rw [madtLoop_succ hend hpos]
    split
    · rename_i hrecord
      obtain ⟨-, hlen, hfits⟩ := hrecord
      have hnext := toNat_madtNext hend hpos (t (pos.toNat + 1))
      obtain ⟨hopen, hused⟩ | hdone := ih (pos + (t (pos.toNat + 1)).setWidth 32) _ (by omega)
        (ha.add (decodeRecord fun i => t (pos.toNat + i)))
      · exact .inl ⟨hopen, by omega⟩
      · exact .inr hdone
    · exact .inr ⟨a, rfl, ha⟩

/-- A table as `valid_sdt` lets it pass is parsed to an end, whatever it holds, and no byte behind
it is read. -/
theorem parse_madt_bounded (t : Sdt) (a : Acpi) (hlength : t.length ≤ 0x10000) :
    (∀ fuel, parseMadt fuel t a ≠ .error .beyond) ∧
      ∀ fuel, 0x10000 < fuel → ∃ a', parseMadt fuel t a = .ok a' ∧
        (44 ≤ t.length → 1 ≤ a'.cpuCount ∧ a'.cpuCount ≤ 16 ∧ a'.overrideCount ≤ 16) := by
  have hmax : t.length.toNat ≤ 0x10000 := hlength
  by_cases hshort : t.length < 44
  · have hparse : ∀ fuel, parseMadt fuel t a = .ok a := fun fuel => if_pos hshort
    refine ⟨fun fuel h => ?_,
      fun fuel _ => ⟨a, hparse fuel, fun h => absurd hshort (BitVec.not_lt.mpr h)⟩⟩
    rw [hparse] at h
    cases h
  · have hlong : 44 ≤ t.length.toNat := BitVec.not_lt.mp hshort
    have hloop fuel :=
      madtLoop_ends (by omega) fuel 44 (madtStart t a) hlong ⟨Nat.zero_le 16, Nat.zero_le 16⟩
    refine ⟨fun fuel h => ?_, fun fuel hfuel => ?_⟩
    · rw [parseMadt_eq hlong] at h
      obtain ⟨hopen, -⟩ | ⟨a', hdone, -⟩ := hloop fuel
      · rw [hopen] at h
        cases h
      · rw [hdone] at h
        cases h
    · obtain ⟨-, hused⟩ | ⟨a', hdone, hbounded⟩ := hloop fuel
      · have h44 : (44 : Word).toNat = 44 := rfl
        omega
      · refine ⟨madtFinish a', ?_, fun _ => ?_⟩
        · rw [parseMadt_eq hlong, hdone]
          rfl
        · exact madtFinish_bounded hbounded

def truncatedMadt : Sdt :=
  fun i => [0x41, 0x50, 0x49, 0x43, 46, 0, 0, 0].getD i (if i = 44 then 1 else if i = 45 then 12 else 0)

theorem parse_madt_bounded_truncated :
    truncatedMadt.length = 46 ∧ ∀ a fuel, 0x10000 < fuel → ∃ a', parseMadt fuel truncatedMadt a = .ok a' ∧
      1 ≤ a'.cpuCount ∧ a'.cpuCount ≤ 16 ∧ a'.overrideCount ≤ 16 := by
  refine ⟨by decide, fun a fuel hfuel => ?_⟩
  obtain ⟨a', hok, hbounds⟩ := (parse_madt_bounded truncatedMadt a (by decide)).2 fuel hfuel
  exact ⟨a', hok, hbounds (by decide)⟩

/-! ## A table of well-formed records

The meaning of a table is the list of its records; what the parser keeps of it is compared with that list.
-/

def madtMinLength (type : Byte) : Nat :=
  if type = 0 then 8 else if type = 1 then 12 else if type = 2 then 10 else 2

inductive MadtRecords (t : Sdt) : Nat → List MadtRecord → Prop
  | done {pos : Nat} : pos = t.length.toNat → MadtRecords t pos []
  | record {pos : Nat} {rest : List MadtRecord} :
    pos + 2 ≤ t.length.toNat → madtMinLength (t pos) ≤ (t (pos + 1)).toNat →
      pos + (t (pos + 1)).toNat ≤ t.length.toNat → MadtRecords t (pos + (t (pos + 1)).toNat) rest →
        MadtRecords t pos (decodeRecord (fun i => t (pos + i)) :: rest)

theorem two_le_madtMinLength (type : Byte) : 2 ≤ madtMinLength type := by
  unfold madtMinLength
  split_ifs <;> omega

theorem madtLoop_records (hend : t.length.toNat + 256 ≤ 2 ^ 32) {p : Nat} {records : List MadtRecord}
    (h : MadtRecords t p records) :
    ∀ (fuel : Nat) (pos : Word) (a : Acpi), pos.toNat = p → t.length.toNat - p < fuel →
      madtLoop t fuel pos a = .ok (records.foldl Acpi.add a) := by
  induction h with
  | done hp =>
    rintro (_ | fuel) pos a rfl hfuel
    · omega
    · rw [madtLoop_succ hend (by omega), if_neg (by omega)]
      rfl
  | record hin hwide hfits _ ih =>
    rintro (_ | fuel) pos a rfl hfuel
    · omega
    · have hlen := Nat.le_trans (two_le_madtMinLength _) hwide
      rw [madtLoop_succ hend (by omega), if_pos ⟨hin, hlen, hfits⟩, List.foldl_cons]
      exact ih fuel _ _ (toNat_madtNext hend (by omega) _) (by omega)

def MadtRecord.enabledId : MadtRecord → Option Byte
  | .localApic id flags => if flags &&& 1 ≠ 0 then some id else none
  | _ => none

def MadtRecord.controller : MadtRecord → Option (Word × Word)
  | .ioApic address gsiBase => some (address, gsiBase)
  | _ => none

def MadtRecord.override : MadtRecord → Option IrqOverride
  | .irqOverride o => some o
  | _ => none

structure KeepsFirst {α : Type} (count : Word) (entries : Nat → α) (xs : List α) : Prop where
  counted : count.toNat = (xs.take 16).length
  listed : (List.range count.toNat).map entries = xs.take 16

theorem KeepsFirst.push {α : Type} {count : Word} {entries : Nat → α} {xs : List α}
    (h : KeepsFirst count entries xs) (hroom : count < 16) (x : α) :
    KeepsFirst (count + 1) (update entries count.toNat x) (xs ++ [x]) := by
  have hlt : count.toNat < 16 := hroom
  have hcount := h.counted
  rw [List.length_take] at hcount
  have hnext : (count + 1).toNat = count.toNat + 1 := by
    rw [toNat_add, show (1 : Word).toNat = 1 from rfl]
    omega
  have hall : xs.take 16 = xs := List.take_of_length_le (by omega)
  have hall' : (xs ++ [x]).take 16 = xs ++ [x] := List.take_of_length_le (by
    rw [List.length_append, List.length_singleton]
    omega)
  refine ⟨?_, ?_⟩
  · rw [hall', hnext, List.length_append, List.length_singleton]
    omega
  · have hold : (List.range count.toNat).map (update entries count.toNat x) =
        (List.range count.toNat).map entries :=
      List.map_congr_left fun i hi => update_of_ne (by
        have hi := List.mem_range.mp hi
        omega) ..
    rw [hall', hnext, List.range_succ, List.map_append, hold, h.listed, hall, List.map_singleton,
      update_self]

theorem KeepsFirst.skip {α : Type} {count : Word} {entries : Nat → α} {xs : List α}
    (h : KeepsFirst count entries xs) (hfull : ¬count < 16) (x : α) :
    KeepsFirst count entries (xs ++ [x]) := by
  have hlt : 16 ≤ count.toNat := BitVec.not_lt.mp hfull
  have hcount := h.counted
  rw [List.length_take] at hcount
  have hsame : (xs ++ [x]).take 16 = xs.take 16 := List.take_append_of_le_length (by omega)
  exact ⟨by rw [hsame, h.counted], by rw [hsame, h.listed]⟩

def keepController (kept next : Word × Word) : Word × Word :=
  if kept.1 = ioapicDefault then next else kept

structure RecordsKept (rs : List MadtRecord) (a : Acpi) : Prop where
  cpus : KeepsFirst a.cpuCount a.cpuApicIds (rs.filterMap MadtRecord.enabledId)
  overrides : KeepsFirst a.overrideCount a.overrides (rs.filterMap MadtRecord.override)
  controller :
    (a.ioapicBase, a.ioapicGsiBase) =
      (rs.filterMap MadtRecord.controller).foldl keepController (ioapicDefault, 0)

theorem filterMap_concat {α β : Type} (f : α → Option β) (xs : List α) (x : α) :
    (xs ++ [x]).filterMap f = xs.filterMap f ++ (f x).toList := by
  rw [List.filterMap_append]
  cases hx : f x with
  | none => rw [List.filterMap_cons_none hx, List.filterMap_nil, Option.toList_none]
  | some y => rw [List.filterMap_cons_some hx, List.filterMap_nil, Option.toList_some]

section

variable {a : Acpi} {xs : List Byte} {os : List IrqOverride} {kept : Word × Word}

theorem keepsFirst_cpus (h : KeepsFirst a.cpuCount a.cpuApicIds xs) (r : MadtRecord) :
    KeepsFirst (a.add r).cpuCount (a.add r).cpuApicIds (xs ++ r.enabledId.toList) := by
  cases r with
  | localApic id flags =>
    unfold Acpi.add MadtRecord.enabledId
    dsimp only
    by_cases hflag : flags &&& 1 ≠ 0
    · rw [if_pos hflag, Option.toList_some]
      by_cases hroom : a.cpuCount < 16
      · rw [if_pos ⟨hflag, hroom⟩]
        exact h.push hroom id
      · rw [if_neg fun h => hroom h.2]
        exact h.skip hroom id
    · rw [if_neg hflag, if_neg fun h => hflag h.1, Option.toList_none, List.append_nil]
      exact h
  | ioApic | irqOverride =>
    unfold Acpi.add
    dsimp only [MadtRecord.enabledId]
    rw [Option.toList_none, List.append_nil]
    split <;> exact h
  | other =>
    rw [show MadtRecord.other.enabledId.toList = [] from rfl, List.append_nil]
    exact h

theorem keepsFirst_overrides (h : KeepsFirst a.overrideCount a.overrides os) (r : MadtRecord) :
    KeepsFirst (a.add r).overrideCount (a.add r).overrides (os ++ r.override.toList) := by
  cases r with
  | localApic | ioApic =>
    unfold Acpi.add
    dsimp only [MadtRecord.override]
    rw [Option.toList_none, List.append_nil]
    split <;> exact h
  | irqOverride o =>
    unfold Acpi.add
    dsimp only [MadtRecord.override]
    rw [Option.toList_some]
    by_cases hroom : a.overrideCount < 16
    · rw [if_pos hroom]
      exact h.push hroom o
    · rw [if_neg hroom]
      exact h.skip hroom o
  | other =>
    rw [show MadtRecord.other.override.toList = [] from rfl, List.append_nil]
    exact h

theorem keepController_add (h : (a.ioapicBase, a.ioapicGsiBase) = kept) (r : MadtRecord) :
    ((a.add r).ioapicBase, (a.add r).ioapicGsiBase) = r.controller.toList.foldl keepController kept := by
  cases r with
  | ioApic address gsiBase =>
    unfold Acpi.add
    rw [show (MadtRecord.ioApic address gsiBase).controller.toList = [(address, gsiBase)] from rfl,
      List.foldl_cons, List.foldl_nil, ← h]
    unfold keepController
    dsimp only
    split <;> rfl
  | localApic | irqOverride =>
    unfold Acpi.add
    dsimp only
    split <;> exact h
  | other => exact h

end

theorem RecordsKept.add {rs : List MadtRecord} (h : RecordsKept rs a) (r : MadtRecord) :
    RecordsKept (rs ++ [r]) (a.add r) := by
  refine ⟨?_, ?_, ?_⟩
  · rw [filterMap_concat]
    exact keepsFirst_cpus h.cpus r
  · rw [filterMap_concat]
    exact keepsFirst_overrides h.overrides r
  · rw [filterMap_concat, List.foldl_append]
    exact keepController_add h.controller r

theorem RecordsKept.of_records (h : RecordsKept [] a) (rs : List MadtRecord) :
    RecordsKept rs (rs.foldl Acpi.add a) := by
  induction rs using List.reverseRecOn with
  | nil => exact h
  | append_singleton rs r ih =>
    rw [List.foldl_concat]
    exact ih.add r

structure Decoded (rs : List MadtRecord) (a : Acpi) : Prop where
  cpuCount : a.cpuCount.toNat = max 1 ((rs.filterMap MadtRecord.enabledId).take 16).length
  cpus :
    (List.range ((rs.filterMap MadtRecord.enabledId).take 16).length).map a.cpuApicIds =
      (rs.filterMap MadtRecord.enabledId).take 16
  controller : (a.ioapicBase, a.ioapicGsiBase) =
    ((rs.filterMap MadtRecord.controller).head?).getD (ioapicDefault, 0)
  overrides : KeepsFirst a.overrideCount a.overrides (rs.filterMap MadtRecord.override)
  answers : ∀ irq, acpiIrqToGsi irq a =
    ((((rs.filterMap MadtRecord.override).take 16).find? fun o => o.source == irq).map
      fun o => ((1 : Int), o.gsi, o.flags)).getD (0, irq.setWidth 32, 0)

/-- The condition under which the first I/O APIC is the one that is kept: its address is not the
default, or each of the others has the default too and the last one has the same interrupt base. -/
def FirstKept : List (Word × Word) → Prop
  | [] => True
  | first :: rest =>
    first.1 ≠ ioapicDefault ∨ ((∀ c ∈ rest, c.1 = ioapicDefault) ∧ (rest.getLastD first).2 = first.2)

theorem keepController_stays (h : kept.1 ≠ ioapicDefault) (rest : List (Word × Word)) :
    rest.foldl keepController kept = kept := by
  induction rest with
  | nil => rfl
  | cons c rest ih =>
    rw [List.foldl_cons, show keepController kept c = kept from if_neg h]
    exact ih

theorem keepController_last (h : kept.1 = ioapicDefault) (rest : List (Word × Word))
    (hrest : ∀ c ∈ rest, c.1 = ioapicDefault) : rest.foldl keepController kept = rest.getLastD kept := by
  induction rest generalizing kept with
  | nil => rfl
  | cons c rest ih =>
    rw [List.foldl_cons, show keepController kept c = c from if_pos h, List.getLastD_cons]
    exact ih (hrest c List.mem_cons_self) fun c' hc => hrest c' (List.mem_cons_of_mem c hc)

theorem keepController_found {rest : List (Word × Word)} (h : ∃ c ∈ rest, c.1 ≠ ioapicDefault) :
    (rest.foldl keepController kept).1 ≠ ioapicDefault := by
  induction rest generalizing kept with
  | nil =>
    obtain ⟨c, hc, -⟩ := h
    cases hc
  | cons c rest ih =>
    rw [List.foldl_cons]
    by_cases hnow : (keepController kept c).1 = ioapicDefault
    · refine ih ?_
      obtain ⟨c', hc, hne⟩ := h
      rcases List.mem_cons.mp hc with rfl | hc
      · unfold keepController at hnow
        split at hnow
        · exact absurd hnow hne
        · exact absurd hnow ‹_›
      · exact ⟨c', hc, hne⟩
    · rw [keepController_stays hnow]
      exact hnow

theorem firstKept_iff (ios : List (Word × Word)) :
    ios.foldl keepController (ioapicDefault, 0) = ios.head?.getD (ioapicDefault, 0) ↔ FirstKept ios := by
  cases ios with
  | nil => exact ⟨fun _ => trivial, fun _ => rfl⟩
  | cons first rest =>
    rw [List.foldl_cons, show keepController (ioapicDefault, 0) first = first from if_pos rfl,
      List.head?_cons, Option.getD_some, FirstKept]
    by_cases hfirst : first.1 = ioapicDefault
    · by_cases hrest : ∀ c ∈ rest, c.1 = ioapicDefault
      · have hlast : (rest.getLastD first).1 = first.1 := by
          rcases List.mem_cons.mp
            (List.getLastD_mem_cons : rest.getLastD first ∈ first :: rest) with heq | hmem
          · rw [heq]
          · rw [hrest _ hmem, hfirst]
        rw [keepController_last hfirst rest hrest]
        constructor
        · intro heq
          rw [heq]
          exact .inr ⟨hrest, rfl⟩
        · rintro (hne | ⟨-, hgsi⟩)
          · exact absurd hfirst hne
          · exact Prod.ext hlast hgsi
      · obtain ⟨c, hc, hne⟩ := not_forall₂.mp hrest
        have hfound : (rest.foldl keepController first).1 ≠ ioapicDefault :=
          keepController_found ⟨c, hc, hne⟩
        constructor
        · intro heq
          rw [heq] at hfound
          exact absurd hfirst hfound
        · rintro (hne | ⟨hall, -⟩)
          · exact absurd hfirst hne
          · exact absurd hall hrest
    · exact ⟨fun _ => .inl hfirst, fun _ => keepController_stays hfirst rest⟩

theorem irq_answers {os : List IrqOverride} (h : KeepsFirst a.overrideCount a.overrides os) (irq : Byte) :
    acpiIrqToGsi irq a =
      (((os.take 16).find? fun o => o.source == irq).map fun o => ((1 : Int), o.gsi, o.flags)).getD
        (0, irq.setWidth 32, 0) := by
  rw [← h.listed, List.find?_map]
  unfold acpiIrqToGsi
  change _ =
    ((((List.range a.overrideCount.toNat).find? fun i => (a.overrides i).source == irq).map
      a.overrides).map _).getD _
  cases (List.range a.overrideCount.toNat).find? fun i => (a.overrides i).source == irq <;> rfl

theorem madtFinish_decoded {rs : List MadtRecord} {b : Acpi} (h : RecordsKept rs b)
    (hcontroller : ((madtFinish b).ioapicBase, (madtFinish b).ioapicGsiBase) =
      ((rs.filterMap MadtRecord.controller).head?).getD (ioapicDefault, 0)) :
        Decoded rs (madtFinish b) := by
  obtain ⟨⟨hcount, hcpus⟩, hover, -⟩ := h
  have hover' : KeepsFirst (madtFinish b).overrideCount (madtFinish b).overrides
      (rs.filterMap MadtRecord.override) := by
    unfold madtFinish
    split <;> exact hover
  refine ⟨?_, ?_, hcontroller, hover', irq_answers hover'⟩
  · rw [← hcount]
    unfold madtFinish
    split
    · rename_i hnone
      rw [hnone]
      rfl
    · rename_i hsome
      have hpos : b.cpuCount.toNat ≠ 0 := fun h0 => hsome (BitVec.eq_of_toNat_eq h0)
      omega
  · have hids : (madtFinish b).cpuApicIds = b.cpuApicIds := by
      unfold madtFinish
      split <;> rfl
    rw [hids, ← hcount, hcpus]

/-- On a table of well-formed records everything is taken over as it stands there, except for the
I/O APIC: a first one at the default address does not count as found. -/
theorem madt_decoded_iff (t : Sdt) (a : Acpi) (records : List MadtRecord)
    (hend : t.length.toNat + 256 ≤ 2 ^ 32) (hlong : 44 ≤ t.length.toNat)
    (hrecords : MadtRecords t 44 records) :
    (∀ fuel, t.length.toNat < fuel → ∃ a', parseMadt fuel t (acpiDefaults a) = .ok a' ∧
      Decoded records a') ↔ FirstKept (records.filterMap MadtRecord.controller) := by
  have hstart : RecordsKept [] (madtStart t (acpiDefaults a)) := ⟨⟨rfl, rfl⟩, ⟨rfl, rfl⟩, rfl⟩
  have hkept := hstart.of_records records
  have hparse : ∀ fuel, t.length.toNat < fuel →
      parseMadt fuel t (acpiDefaults a) =
        .ok (madtFinish (records.foldl Acpi.add (madtStart t (acpiDefaults a)))) := by
    intro fuel hfuel
    rw [parseMadt_eq hlong, madtLoop_records hend hrecords fuel 44 _ rfl (by omega)]
    rfl
  rw [← firstKept_iff, ← hkept.controller]
  generalize records.foldl Acpi.add (madtStart t (acpiDefaults a)) = b at hkept hparse
  have hcontroller : ((madtFinish b).ioapicBase, (madtFinish b).ioapicGsiBase) =
      (b.ioapicBase, b.ioapicGsiBase) := by
    unfold madtFinish
    split <;> rfl
  constructor
  · intro h
    obtain ⟨a', hok, hdecoded⟩ := h (t.length.toNat + 1) (Nat.lt_succ_self _)
    rw [hparse _ (Nat.lt_succ_self _)] at hok
    cases hok
    rw [← hdecoded.controller, hcontroller]
  · intro h fuel hfuel
    refine ⟨_, hparse fuel hfuel, madtFinish_decoded hkept ?_⟩
    rw [hcontroller, h]

def twoControllers (base : Byte) : Sdt := fun i =>
  if i < 44 then [0x41, 0x50, 0x49, 0x43, 68].getD i 0
  else [1, 12, 0, 0, 0, base, 0xc0, 0xfe, 0, 0, 0, 0, 1, 12, 1, 0, 0, 0x20, 0xc0, 0xfe, 24, 0, 0,
    0].getD (i - 44) 0

def blankAcpi : Acpi := ⟨0, 0, 0, 0, 0, fun _ => 0, fun _ => ⟨0, 0, 0⟩, false⟩

theorem twoControllers_records (base : Byte) :
    MadtRecords (twoControllers base) 44 [.ioApic (le32 0 base 0xc0 0xfe) 0, .ioApic 0xfec02000 24] := by
  have hlength : (twoControllers base).length.toNat = 68 := (by decide : (le32 68 0 0 0).toNat = 68)
  have hnone : MadtRecords (twoControllers base) 68 [] := .done hlength.symm
  have hsecond : MadtRecords (twoControllers base) 56
      (decodeRecord (fun i => twoControllers base (56 + i)) :: []) :=
    .record (by omega) (Nat.le_refl 12) (Nat.le_of_eq hlength.symm) hnone
  have hfirst : MadtRecords (twoControllers base) 44
      (decodeRecord (fun i => twoControllers base (44 + i)) :: _) :=
    .record (by omega) (Nat.le_refl 12) (by
      rw [hlength]
      exact Nat.le_of_ble_eq_true rfl) hsecond
  have hdecoded : MadtRecords (twoControllers base) 44
      [.ioApic (le32 0 base 0xc0 0xfe) (le32 0 0 0 0),
        .ioApic (le32 0 0x20 0xc0 0xfe) (le32 24 0 0 0)] := hfirst
  rwa [show le32 0 0 0 0 = 0 by decide, show le32 0 0x20 0xc0 0xfe = 0xfec02000 by decide,
    show le32 24 0 0 0 = 24 by decide] at hdecoded

theorem madt_decoded_elsewhere :
    ∃ a', parseMadt 69 (twoControllers 0x10) (acpiDefaults blankAcpi) = .ok a' ∧
      Decoded [.ioApic 0xfec01000 0, .ioApic 0xfec02000 24] a' :=
  (madt_decoded_iff (twoControllers 0x10) blankAcpi _ (by decide) (by decide)
    (twoControllers_records 0x10)).mpr (.inl (by decide)) 69 (by decide)

/-- The first I/O APIC is at the default address, and the second one replaces it. -/
theorem second_controller_kept :
    MadtRecords (twoControllers 0) 44 [.ioApic 0xfec00000 0, .ioApic 0xfec02000 24] ∧
      (parseMadt 69 (twoControllers 0) (acpiDefaults blankAcpi)).map
        (fun a => (a.ioapicBase, a.ioapicGsiBase)) = .ok (0xfec02000, 24) :=
  ⟨twoControllers_records 0, by decide⟩

end Ceblar
