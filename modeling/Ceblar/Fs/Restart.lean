import Ceblar.Fs.Replay

/-! # A replay that is interrupted

The power may go during a replay too, and during the next one.
-/

namespace Ceblar

/-- No write of the slot fails, but the power may go; if it goes while the slot is cleared, no
record is left. -/
structure Unfailing (stack : Record) (s : SlotOutcome) : Prop where
  read : s.read = true
  apply : s.apply ≠ .failed
  clear : s.clear ≠ .failed
  torn : ∀ left, s.clear = .crash (some left) → (stack.load left).valid = false

def afterReplay (stack : Record) (j : Journal) (b : Block) (o : Nat → SlotOutcome) : Block :=
  match journalReplay o stack j b with
  | .ok r => r.2
  | .error d => d

def readable : Nat → Bool := fun _ => true

/-- No record is one for a sector of the log. -/
def Block.TargetsOutside (b : Block) (stack : Record) (j : Journal) : Prop :=
  ∀ i < j.slotCount.toNat, b.applies readable stack j i = true → j.Outside (b.entry stack j i).targetLba

/-- From `d` on a replay leaves what it would have left from `b` on. -/
structure Resumable (b : Block) (stack : Record) (j : Journal) (d : Block) : Prop where
  present : d.present = true
  writable : d.writable = true
  outside : d.TargetsOutside stack j
  same : ∀ l, j.Outside l →
    d.replayed readable stack j j.slotCount.toNat l = b.replayed readable stack j j.slotCount.toNat l

section

variable {b d d' : Block} {stack r : Record} {j : Journal} {i : Nat} {o : Nat → SlotOutcome}

theorem ReplayedTo.spent (h : ReplayedTo b readable stack j i d) {k : Nat}
    (hk : k < j.slotCount.toNat) (hki : k < i) :
    d.applies readable stack j k = false := by
  unfold Block.applies Block.entry
  rw [h.log k hk]
  split
  · rw [cleared_invalid, Bool.and_false]
  · rename_i hno
    exact Bool.eq_false_iff.mpr fun ha => hno ⟨hki, ha⟩

theorem replayed_spent (h : ∀ k < i, d.applies readable stack j k = false) (l : Word) :
    d.replayed readable stack j i l = d.disk l := by
  induction i with
  | zero => rfl
  | succ i ih =>
    rw [Block.replayed, if_neg (by simp [h i (by omega)])]
    exact ih fun k hk => h k (by omega)

/-- Slot `i` is left as it was or without a record; the slots before it are done with, those behind it are
untouched, and its target has the new data or will get them. -/
theorem ReplayedTo.resumable (h : ReplayedTo b readable stack j i d) (hi : i < j.slotCount.toNat)
    (hout : b.TargetsOutside stack j) (hyes : b.applies readable stack j i = true)
      (hp : d'.present = d.present) (hw : d'.writable = d.writable)
    (hother : ∀ l, l ≠ j.lba i → l ≠ (b.entry stack j i).targetLba → d'.disk l = d.disk l)
    (hslot : d'.disk (j.lba i) = b.disk (j.lba i) ∨ d'.applies readable stack j i = false ∧
      d'.disk (b.entry stack j i).targetLba = (b.entry stack j i).data) :
    Resumable b stack j d' := by
  have hlog : ∀ k < j.slotCount.toNat, k ≠ i → d'.entry stack j k = d.entry stack j k := by
    intro k hk hki
    unfold Block.entry
    rw [hother _ (fun he => hki (lba_injective hk hi he)) (hout i hi hyes k hk).symm]
  have hbefore : ∀ k < i, d'.applies readable stack j k = false := by
    intro k hk
    rw [Block.applies, hlog k (by omega) (by omega)]
    exact h.spent (by omega) hk
  have hbehind : ∀ k < j.slotCount.toNat, i < k → d'.entry stack j k = b.entry stack j k := by
    intro k hk hik
    rw [hlog k hk (by omega)]
    unfold Block.entry
    rw [h.log k hk, if_neg (by omega)]
  have hsame : d'.disk (j.lba i) = b.disk (j.lba i) → d'.entry stack j i = b.entry stack j i := by
    intro he
    unfold Block.entry
    rw [he]
  refine ⟨hp.trans h.present, hw.trans h.writable, fun k hk ha => ?_, fun l hl => ?_⟩
  · rcases Nat.lt_trichotomy k i with hlt | rfl | hgt
    · rw [hbefore k hlt] at ha
      cases ha
    · rcases hslot with he | ⟨hno, -⟩
      · rw [hsame he]
        exact hout k hk hyes
      · rw [hno] at ha
        cases ha
    · rw [Block.applies, hbehind k hk hgt] at ha
      rw [hbehind k hk hgt]
      exact hout k hk ha
  · have hnext : d'.replayed readable stack j (i + 1) l = b.replayed readable stack j (i + 1) l := by
      have hkeep : ¬(b.applies readable stack j i = true ∧ (b.entry stack j i).targetLba = l) →
          d'.disk l = d.disk l :=
        fun hne => hother l (hl i hi) fun he => hne ⟨hyes, he.symm⟩
      rw [Block.replayed, Block.replayed, replayed_spent hbefore, ← h.home l hl]
      rcases hslot with he | ⟨hno, hdata⟩
      · rw [Block.applies, hsame he, ← Block.applies]
        split
        · rfl
        · exact hkeep ‹_›
      · rw [hno, if_neg (by simp)]
        split
        · rename_i hc
          rw [← hc.2, hdata]
        · exact hkeep ‹_›
    have hrest : ∀ m, i + 1 + m ≤ j.slotCount.toNat →
        d'.replayed readable stack j (i + 1 + m) l = b.replayed readable stack j (i + 1 + m) l := by
      intro m hm
      induction m with
      | zero => exact hnext
      | succ m ih =>
        rw [← Nat.add_assoc, Block.replayed, Block.replayed, ih (by omega), Block.applies, Block.applies,
          hbehind _ (by omega) (by omega)]
    have := hrest (j.slotCount.toNat - (i + 1)) (by omega)
    rwa [Nat.add_sub_cancel' (by omega : i + 1 ≤ j.slotCount.toNat)] at this

theorem blockWriteSector_crash (hb : b.present = true) (hw : b.writable = true)
    (left : Option Sector) (lba : Word) (s : Sector) :
    ∃ d, blockWriteSector (.crash left) b lba s = .error d ∧ d.present = b.present ∧
      d.writable = b.writable ∧
      (∀ l, l ≠ lba → d.disk l = b.disk l) ∧ d.disk lba = left.getD (b.disk lba) := by
  unfold blockWriteSector
  rw [hb, hw, Bool.and_self, if_pos rfl]
  cases left with
  | none => exact ⟨b, rfl, hb, hw, fun _ _ => rfl, rfl⟩
  | some x =>
    exact ⟨b.store lba x, rfl, hb, hw, fun l hl => store_disk_ne b x hl, store_disk_self b lba x⟩

theorem replaySlot_unfailing (h : ReplayedTo b readable stack j i d) (hi : i < j.slotCount.toNat)
    (hout : b.TargetsOutside stack j) (ho : Unfailing stack (o i)) (htail : SameTail r stack) (n : Nat) :
    Exits (Resumable b stack j)
      (fun st => SameTail st.1 stack ∧ ReplayedTo b readable stack j (i + 1) st.2.2)
      (replaySlot o j i (r, n, d)) := by
  have hentry : r.load (d.disk (j.base + BitVec.ofNat 32 i)) = b.entry stack j i :=
    (load_congr htail _).trans (h.entry hi stack)
  have hloaded : SameTail (b.entry stack j i) stack := sameTail_load stack _
  cases hyes : b.applies readable stack j i with
  | false =>
    rw [replaySlot_invalid n ho.read h.present (by rw [hentry]; exact hyes), hentry]
    exact exits_ok ⟨hloaded, h.skip hyes⟩
  | true =>
    have hv : (b.entry stack j i).valid = true := hyes
    have hne : j.lba i ≠ (b.entry stack j i).targetLba := (hout i hi hyes i hi).symm
    have hslot : d.disk (j.lba i) = b.disk (j.lba i) := by rw [h.log i hi, if_neg (by omega)]
    have hstart : replaySlot o j i (r, n, d) =
        (blockWriteSector (o i).apply d (b.entry stack j i).targetLba (b.entry stack j i).data >>=
          fun w =>
          if !w.1 then .ok (b.entry stack j i, n, w.2)
          else blockWriteSector (o i).clear w.2 (j.lba i)
            { b.entry stack j i with committed := 0 }.sector >>= fun w =>
            .ok ({ b.entry stack j i with committed := 0 }, n + 1, w.2)) := by
      simp only [replaySlot, blockReadSector, ho.read, h.present, Bool.and_self, if_true, hentry,
        hv, Bool.not_true, Bool.false_eq_true, if_false]
      rfl
    cases happly : (o i).apply with
    | failed => exact absurd happly ho.apply
    | crash left =>
      obtain ⟨d', he, hp, hw, hother, -⟩ := blockWriteSector_crash h.present h.writable left
        (b.entry stack j i).targetLba (b.entry stack j i).data
      rw [hstart, happly, he]
      exact exits_error
        (h.resumable hi hout hyes hp hw (fun l _ hl => hother l hl) (.inl ((hother _ hne).trans hslot)))
    | done =>
      cases hclear : (o i).clear with
      | failed => exact absurd hclear ho.clear
      | done =>
        rw [replaySlot_valid n ho.read happly hclear h.present h.writable hentry hv]
        exact exits_ok ⟨hloaded, h.apply hi hyes (hout i hi hyes)⟩
      | crash left =>
        obtain ⟨d', he, hp, hw, hother, hleft⟩ := @blockWriteSector_crash
          (d.store (b.entry stack j i).targetLba (b.entry stack j i).data) h.present h.writable left
            (j.lba i)
          { b.entry stack j i with committed := 0 }.sector
        rw [hstart, happly, hclear, blockWriteSector_done h.present h.writable]
        simp only [bind, Except.bind, Bool.not_true, Bool.false_eq_true, if_false, he]
        refine exits_error
          (h.resumable hi hout hyes hp hw (fun l h1 h2 => (hother l h1).trans (store_disk_ne d _ h2)) ?_)
        cases left with
        | none => exact .inl (hleft.trans ((store_disk_ne d _ hne).trans hslot))
        | some x =>
          refine .inr ⟨?_, (hother _ hne.symm).trans (store_disk_self d _ _)⟩
          rw [Block.applies, Block.entry, hleft]
          exact ho.torn x hclear

theorem afterReplay_resumable (hj : j.ready = true) (h : Resumable b stack j d)
    (ho : ∀ i, Unfailing stack (o i)) :
    Resumable b stack j (afterReplay stack j d o) := by
  have hloop := @forRangeE_exits_at _ _ (replaySlot o j) (stack, 0, d) (Resumable d stack j)
    (fun i st => SameTail st.1 stack ∧ ReplayedTo d readable stack j i st.2.2) j.slotCount.toNat
    (fun i hi st hst => replaySlot_unfailing hst.2 hi h.outside (ho i) hst.1 st.2.1)
    ⟨fun _ _ => rfl, h.present, h.writable, fun k _ => by simp, fun _ _ => rfl⟩
  have hafter : Resumable d stack j (afterReplay stack j d o) := by
    unfold afterReplay journalReplay
    rw [hj]
    cases hr : forRangeE j.slotCount.toNat (replaySlot o j) (stack, 0, d) with
    | error d' => exact hloop.error d' hr
    | ok st =>
      have hst := (hloop.ok st hr).2
      have hspent : ∀ k < j.slotCount.toNat, st.2.2.applies readable stack j k = false :=
        fun k hk => hst.spent hk hk
      exact ⟨hst.present, hst.writable, fun k hk ha => absurd (ha.symm.trans (hspent k hk)) (by decide),
        fun l hl => (replayed_spent hspent l).trans (hst.home l hl)⟩
  exact ⟨hafter.present, hafter.writable, hafter.outside,
    fun l hl => (hafter.same l hl).trans (h.same l hl)⟩

end

/-- However many replays there were, interrupted or not, the next one that gets to its end leaves
outside the log what the first one would have left. -/
theorem replay_restarts {stack : Record} {j : Journal} {b : Block} (hj : j.ready = true)
    (hb : b.present = true) (hw : b.writable = true) (hout : b.TargetsOutside stack j)
    (os : List (Nat → SlotOutcome)) (hos : ∀ o ∈ os, ∀ i, Unfailing stack (o i)) :
    ∃ n d n' d', journalReplay smooth stack j b = .ok (n, d) ∧
      journalReplay smooth stack j (os.foldl (afterReplay stack j) b) = .ok (n', d') ∧
      ∀ l, j.Outside l → d'.disk l = d.disk l := by
  have hlast : Resumable b stack j (os.foldl (afterReplay stack j) b) := by
    refine List.foldlRecOn os _
      (⟨hb, hw, hout, fun _ _ => rfl⟩ : Resumable b stack j b) fun e he o ho => ?_
    exact afterReplay_resumable hj he (hos o ho)
  obtain ⟨d, hd, hr⟩ := journalReplay_steady readable hj hb hw hout
  obtain ⟨d', hd', hr'⟩ := journalReplay_steady readable hj hlast.present hlast.writable hlast.outside
  exact ⟨_, d, _, d', hd, hd', fun l hl => by rw [hr'.home l hl, hlast.same l hl, hr.home l hl]⟩

def cutShort : Nat → SlotOutcome := fun _ => { read := true, apply := .crash none, clear := .done }

theorem replay_restarts_twice :
    ∃ n d n' d', journalReplay smooth zeroRecord twoSlots (twoRecords 2 3) = .ok (n, d) ∧
    journalReplay smooth zeroRecord twoSlots
      ([cutShort, cutShort].foldl (afterReplay zeroRecord twoSlots) (twoRecords 2 3)) = .ok (n', d') ∧
    ∀ l, twoSlots.Outside l → d'.disk l = d.disk l := by
  refine replay_restarts rfl rfl rfl
    (fun i hi ha => twoRecords_outside 2 3 (Block.applies.held hi ha)) _ fun o ho i => ?_
  simp only [List.mem_cons, List.not_mem_nil, or_false, or_self] at ho
  subst ho
  exact ⟨rfl, nofun, nofun, nofun⟩

end Ceblar
