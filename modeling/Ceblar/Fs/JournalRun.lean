import Ceblar.Fs.Replay
import Mathlib.Data.Fintype.Basic

/-! # Runs of journalled writes

A call that fails after it stored its record leaves the record in the log, and the replay applies it
even if a later call has written the same sector since.
-/

namespace Ceblar

/-- A call of `journal_write`, with the local record it starts from and whether the device stores
each of its three sectors. -/
structure JournalCall where
  target : Word
  content : Sector
  old : Record
  ok : Nat → Bool

def JournalCall.outcomes (c : JournalCall) (n : Nat) : Outcome := if c.ok n then .done else .failed

structure Logged where
  target : Word
  content : Sector
  rc : Int

/-- The machine between two calls; `calls` has those before, newest first. -/
structure JournalRun where
  journal : Journal
  block : Block
  calls : List Logged

def JournalCall.record (c : JournalCall) (j : Journal) : Record :=
  journalRecord c.old j.sequence c.target c.content

structure Wrote (s : JournalRun) (c : JournalCall) (rc : Int) (b : Block) : Prop where
  present : b.present = s.block.present
  writable : b.writable = s.block.writable
  home : b.disk c.target = c.content ∨ b.disk c.target = s.block.disk c.target
  slot : b.disk (s.journal.slot s.journal.sequence) = s.block.disk (s.journal.slot s.journal.sequence) ∨
    (c.ok 0 = true ∧ ¬(∀ n < 3, c.ok n = true) ∧
      b.disk (s.journal.slot s.journal.sequence) = (c.record s.journal).sector) ∨
    b.disk (s.journal.slot s.journal.sequence) = { c.record s.journal with committed := 0 }.sector
  other : ∀ l, l ≠ c.target → l ≠ s.journal.slot s.journal.sequence → b.disk l = s.block.disk l
  success : rc = 0 → (∀ n < 3, c.ok n = true) ∧ b.disk c.target = c.content ∧
    b.disk (s.journal.slot s.journal.sequence) = { c.record s.journal with committed := 0 }.sector

section

variable {s s' : JournalRun} {c : JournalCall} {b : Block} {i : Nat} {rc : Int}

/-- What `journal_write` returns and leaves, with a log and a device that take writes. -/
def JournalCall.result (c : JournalCall) (j : Journal) (b : Block) : Int × Block :=
  let logged := b.store (j.slot j.sequence) (c.record j).sector
  let written := logged.store c.target c.content
  match c.ok 0, c.ok 1, c.ok 2 with
  | false, _, _ => (-1, b)
  | true, false, _ => (-1, logged)
  | true, true, false => (-1, written)
  | true, true, true => (0, written.store (j.slot j.sequence) { c.record j with committed := 0 }.sector)

theorem journalWrite_result {j : Journal} (hj : j.ready = true) (hb : b.present = true)
    (hw : b.writable = true) (c : JournalCall) :
    journalWrite c.outcomes c.old j b c.target c.content =
      .ok ((c.result j b).1, { j with sequence := j.sequence + 1 }, (c.result j b).2) := by
  unfold journalWrite JournalCall.result
  rw [if_neg (by simp [hj, hw])]
  cases h0 : c.ok 0 with
  | false =>
    simp [blockWriteSector, JournalCall.outcomes, hb, hw, h0, bind, Except.bind, pure, Except.pure]
  | true =>
    cases h1 : c.ok 1 with
    | false =>
      simp [blockWriteSector, JournalCall.outcomes, hb, hw, h0, h1, bind, Except.bind, pure, Except.pure]
      rfl
    | true =>
      cases h2 : c.ok 2 with
      | false =>
        simp [blockWriteSector, JournalCall.outcomes, hb, hw, h0, h1, h2, bind, Except.bind, pure,
          Except.pure]
        rfl
      | true =>
        simp [blockWriteSector, JournalCall.outcomes, hb, hw, h0, h1, h2, bind, Except.bind, pure,
          Except.pure]
        rfl

/-- A call whose three block writes succeed finds no other slot with a record of its sector that the
replay would apply. A call that leaves its record in the log leaves one that the replay drops, or
reads back whole. -/
def Unshadowed (stack : Record) (s : JournalRun) (c : JournalCall) : Prop :=
  ((∀ n < 3, c.ok n = true) → ∀ i < s.journal.slotCount.toNat,
    s.journal.lba i ≠ s.journal.slot s.journal.sequence → (s.block.entry stack s.journal i).valid = true →
    (s.block.entry stack s.journal i).targetLba ≠ c.target) ∧
  (c.ok 0 = true → ¬(∀ n < 3, c.ok n = true) → (stack.load (c.record s.journal).sector).valid = true →
    (stack.load (c.record s.journal).sector).data = c.content)

local instance : DecidableEq Sector := inferInstanceAs (DecidableEq (Fin 512 → Byte))

instance (stack : Record) (s : JournalRun) (c : JournalCall) : Decidable (Unshadowed stack s c) :=
  inferInstanceAs (Decidable (((∀ n < 3, _) → ∀ i < s.journal.slotCount.toNat, _) ∧
    (_ = true → ¬(∀ n < 3, _) → _ = true → (_ : Sector) = _)))

/-! ## What a run keeps -/

/-- Call `e` reported success and the calls in `later` came after it: its sector has the content of one of
them, and so has every record of that sector in the log. -/
structure Newest (stack : Record) (s : JournalRun) (e : Logged) (later : List Logged) : Prop where
  outside : s.journal.Outside e.target
  home : ∃ k ∈ e :: later, k.target = e.target ∧ s.block.disk e.target = k.content
  log : ∀ i < s.journal.slotCount.toNat, (s.block.entry stack s.journal i).valid = true →
    (s.block.entry stack s.journal i).targetLba = e.target →
    ∃ k ∈ later, k.target = e.target ∧ (s.block.entry stack s.journal i).data = k.content

variable {stack : Record} {j : Journal}

theorem slot_eq_some_lba (hslots : s.journal.slotCount ≠ 0) :
    ∃ i < s.journal.slotCount.toNat, s.journal.slot s.journal.sequence = s.journal.lba i := by
  refine ⟨_, ?_, slot_eq_lba _ _⟩
  rw [BitVec.toNat_umod]
  exact Nat.mod_lt _ (Nat.pos_of_ne_zero fun h => hslots (BitVec.eq_of_toNat_eq h))

theorem entry_of_sector {r : Record} (h : b.disk (j.lba i) = r.sector) :
    (b.entry stack j i).targetLba = r.targetLba := by
  rw [Block.entry, h, load_sector]

theorem entry_congr {b' : Block} (h : b'.disk (j.lba i) = b.disk (j.lba i)) :
    b'.entry stack j i = b.entry stack j i := by
  rw [Block.entry, Block.entry, h]

theorem Wrote.valid (h : Wrote s c rc b) (hout : s.journal.Outside c.target)
    (hi : i < s.journal.slotCount.toNat) (hv : (b.entry stack s.journal i).valid = true) :
    b.disk (s.journal.lba i) = s.block.disk (s.journal.lba i) ∨
      c.ok 0 = true ∧ ¬(∀ n < 3, c.ok n = true) ∧
      b.disk (s.journal.lba i) = (c.record s.journal).sector := by
  by_cases hs : s.journal.lba i = s.journal.slot s.journal.sequence
  · rcases h.slot with hold | hleft | hcleared
    · exact .inl (by rw [hs, hold])
    · exact .inr (by rw [hs]; exact hleft)
    · rw [Block.entry, hs, hcleared, cleared_invalid] at hv
      cases hv
  · exact .inl (h.other _ (hout i hi).symm hs)

theorem Newest.step {e k : Logged} {later : List Logged} {sequence : Word}
    (h : Newest stack s e later) (hw : Wrote s c rc b) (hout : s.journal.Outside c.target)
    (hslots : s.journal.slotCount ≠ 0) (hshadow : Unshadowed stack s c) (hk : k.target = c.target)
    (hc : k.content = c.content) (calls : List Logged) :
    Newest stack ⟨{ s.journal with sequence }, b, calls⟩ e (k :: later) := by
  refine ⟨h.outside, ?_, fun i hi hv ht => ?_⟩
  · have hkeep : ∃ k' ∈ e :: k :: later, k'.target = e.target ∧ s.block.disk e.target = k'.content := by
      obtain ⟨k', hmem, hk'⟩ := h.home
      refine ⟨k', ?_, hk'⟩
      rcases List.mem_cons.mp hmem with rfl | hmem
      · exact List.mem_cons_self
      · exact List.mem_cons_of_mem _ (List.mem_cons_of_mem _ hmem)
    by_cases hsame : e.target = c.target
    · rcases hw.home with hnew | hold
      · exact ⟨k, by simp, hk.trans hsame.symm, by rw [hsame, hc]; exact hnew⟩
      · simp only [hsame] at hkeep ⊢
        rw [hold]
        exact hkeep
    · have hne : e.target ≠ s.journal.slot s.journal.sequence := by
        obtain ⟨i, hi, hslot⟩ := slot_eq_some_lba hslots
        rw [hslot]
        exact h.outside i hi
      simp only [hw.other _ hsame hne]
      exact hkeep
  · change (b.entry stack s.journal i).valid = true at hv
    change (b.entry stack s.journal i).targetLba = e.target at ht
    change ∃ k' ∈ k :: later, k'.target = e.target ∧ (b.entry stack s.journal i).data = k'.content
    rcases hw.valid hout hi hv with hold | ⟨h0, hleft, hnew⟩
    · rw [entry_congr hold] at hv ht ⊢
      obtain ⟨k', hmem, hk'⟩ := h.log i hi hv ht
      exact ⟨k', List.mem_cons_of_mem _ hmem, hk'⟩
    · refine ⟨k, List.mem_cons_self, ?_, ?_⟩
      · rw [← ht, entry_of_sector hnew, hk]
        rfl
      · rw [Block.entry, hnew] at hv ⊢
        exact (hshadow.2 h0 hleft hv).trans hc.symm

theorem Wrote.newest {sequence : Word} {e : Logged} (hw : Wrote s c rc b)
    (hout : s.journal.Outside c.target) (hshadow : Unshadowed stack s c) (hrc : rc = 0)
    (he : e.target = c.target) (hc : e.content = c.content) (calls : List Logged) :
    Newest stack ⟨{ s.journal with sequence }, b, calls⟩ e [] := by
  obtain ⟨hok, hhome, hslot⟩ := hw.success hrc
  refine ⟨by rw [he]; exact hout, ⟨e, by simp, rfl, ?_⟩, fun i hi hv ht => ?_⟩
  · rw [he, hc]
    exact hhome
  · change (b.entry stack s.journal i).valid = true at hv
    change (b.entry stack s.journal i).targetLba = e.target at ht
    by_cases hs : s.journal.lba i = s.journal.slot s.journal.sequence
    · rw [Block.entry, hs, hslot, cleared_invalid] at hv
      cases hv
    · rw [entry_congr (hw.other _ (hout i hi).symm hs)] at hv ht
      exact absurd (ht.trans he) (hshadow.1 hok i hi hs hv)

end

end Ceblar
