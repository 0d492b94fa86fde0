import Ceblar.Kernel.Spinlock
import Ceblar.Mm.PmmCalls

/-! # The frame allocator on several processors

`pmm_alloc_page`, `pmm_retain_page` and `pmm_free_page` under `pmm_lock`, with one step for each load and each
store of `total_pages_count`, a byte of `page_bitmap`, a count of `page_refs` and `used_pages_count`.
-/

namespace Ceblar

open Function

/-- Byte `i` of `page_bitmap`. -/
def Pmm.byte (p : Pmm) (i : Nat) : Fin 8 → Bool := fun j => p.bitmap (8 * i + j)

def Pmm.setByte (i : Nat) (b : Fin 8 → Bool) (p : Pmm) : Pmm :=
  { p with bitmap := fun f => if f / 8 = i then b (Fin.ofNat 8 f) else p.bitmap f }

def Pmm.setRefs (f : Nat) (n : BitVec 16) (p : Pmm) : Pmm :=
  { p with refs := update p.refs f n }

def Pmm.setUsed (n : Nat) (p : Pmm) : Pmm := { p with used := n }

def bitTest (f : Nat) (next : Bool → Code Pmm Word) : Code Pmm Word :=
  .read (·.byte (f / 8)) fun b => next (b (Fin.ofNat 8 f))

def bitWrite (f : Nat) (v : Bool) (next : Code Pmm Word) : Code Pmm Word :=
  .read (·.byte (f / 8)) fun b =>
    .store (.setByte (f / 8) (update b (Fin.ofNat 8 f) v)) next

/-- The loop of `pmm_alloc_page` from frame `f` on. It ends at `total_pages_count`, within 65536
rounds. -/
def allocCode : Nat → Nat → Code Pmm Word
  | 0, _ => .done 0
  | rounds + 1, f =>
    .read (·.total) fun total =>
      if f < total then
        bitTest f fun inUse =>
          if inUse then allocCode rounds (f + 1)
          else
            bitWrite f true <| .store (.setRefs f 1) <| .read (·.used) fun used =>
              .store (fun p => { p.setUsed (used + 1) with handed := f :: p.handed })
                (.done (BitVec.ofNat 32 (f * 4096)))
      else .done 0

/-- The test that the other two functions make first. They return nothing, which is 0 here. -/
def inUseCode (f : Nat) (next : Code Pmm Word) : Code Pmm Word :=
  if 0 < f then
    .read (·.total) fun total =>
      if f < total then bitTest f fun inUse => if inUse then next else .done 0
      else .done 0
  else .done 0

def retainCode (f : Nat) : Code Pmm Word :=
  inUseCode f <| .read (·.refs f) fun n =>
    if n ≠ 0xffff then .read (·.refs f) fun n => .store (.setRefs f (n + 1)) (.done 0)
    else .done 0

def freeCode (f : Nat) : Code Pmm Word :=
  inUseCode f <| .read (·.refs f) fun n =>
    if 1 < n then .read (·.refs f) fun n => .store (.setRefs f (n - 1)) (.done 0)
    else
      .store (.setRefs f 0) <| bitWrite f false <| .read (·.used) fun used =>
        if used ≠ 0 then .read (·.used) fun used => .store (.setUsed (used - 1)) (.done 0)
        else .done 0

def pmmCode : PmmOp → Code Pmm Word
  | .alloc => allocCode 65536 1
  | .retain a => retainCode (pageNumber a)
  | .free a => freeCode (pageNumber a)

def pmmCall : PmmOp → Pmm → Word × Pmm
  | .alloc, p => (pmmAllocPage p).getD (0, p)
  | .retain a, p => (0, pmmRetainPage p a)
  | .free a, p => (0, pmmFreePage p a)

/-! ## Each function run to its end -/

section

variable {p : Pmm} {f : Nat}

theorem run_bitTest (next : Bool → Code Pmm Word) :
    (bitTest f next).run p = (next (p.bitmap f)).run p := by
  simp [bitTest, Code.run_read, Pmm.byte, Nat.div_add_mod]

theorem run_bitWrite (v : Bool) (next : Code Pmm Word) :
    (bitWrite f v next).run p = next.run { p with bitmap := update p.bitmap f v } := by
  -- the other seven bits of the byte are stored as they were read
  have hbits : (p.setByte (f / 8) (update (p.byte (f / 8)) (Fin.ofNat 8 f) v)).bitmap =
      update p.bitmap f v := by
    funext g
    by_cases hbyte : g / 8 = f / 8
    · have hsame : Fin.ofNat 8 g = Fin.ofNat 8 f ↔ g = f := by
        simp only [Fin.ext_iff, Fin.val_ofNat]
        omega
      have hback : p.byte (f / 8) (Fin.ofNat 8 g) = p.bitmap g := by
        simp [Pmm.byte, ← hbyte, Nat.div_add_mod]
      simp only [Pmm.setByte, if_pos hbyte, update_apply, hsame, hback]
    · have hne : g ≠ f := fun h => hbyte (h ▸ rfl)
      simp [Pmm.setByte, hbyte, hne]
  exact congrArg (fun bitmap => next.run { p with bitmap }) hbits

theorem run_inUseCode (next : Code Pmm Word) :
    (inUseCode f next).run p = if p.inUse f then next.run p else (0, p) := by
  unfold inUseCode Pmm.inUse
  by_cases h0 : 0 < f <;> by_cases ht : f < p.total <;> cases hb : p.bitmap f <;>
    simp [h0, ht, hb, Code.run_read, run_bitTest, Code.run]

/-- The loop from frame `f` on, with those before it in use. -/
theorem run_allocCode {rounds : Nat} (hrounds : p.total ≤ rounds + f) (hf : 0 < f)
    (hused : ∀ g, 0 < g → g < f → p.bitmap g = true) :
    (allocCode rounds f).run p = pmmCall .alloc p := by
  have hend (hle : p.total ≤ f) : pmmCall .alloc p = (0, p) := by
    have hnone : p.firstFree = none :=
      (firstFree_eq_none p).mpr fun g hg ht => hused g hg (by omega)
    simp [pmmCall, pmmAllocPage, hnone]
  induction rounds generalizing f with
  | zero => exact (hend (by omega)).symm
  | succ rounds ih =>
    rw [allocCode, Code.run_read]
    split
    case isFalse hle => exact (hend (by omega)).symm
    rename_i hlt
    rw [run_bitTest]
    cases hb : p.bitmap f with
    | true =>
      have hused' : ∀ g, 0 < g → g < f + 1 → p.bitmap g = true := by
        intro g hg hgf
        rcases Nat.lt_succ_iff_lt_or_eq.mp hgf with hlt' | rfl
        · exact hused g hg hlt'
        · exact hb
      refine ih (by omega) (by omega) hused' fun hle => ?_
      have hnone : p.firstFree = none :=
        (firstFree_eq_none p).mpr fun g hg ht => hused' g hg (by omega)
      simp [pmmCall, pmmAllocPage, hnone]
    | false =>
      have hfirst : p.firstFree = some f := (firstFree_eq_some p f).mpr ⟨hf, hlt, hb, hused⟩
      simp only [pmmCall, pmmAllocPage, hfirst, Option.map_some, Option.getD_some]
      exact run_bitWrite true _

theorem run_retainCode (a : Word) : (retainCode (pageNumber a)).run p = (0, pmmRetainPage p a) := by
  rw [retainCode, run_inUseCode, Code.run_read, pmmRetainPage]
  cases p.inUse (pageNumber a) with
  | false => rw [if_neg Bool.false_ne_true, Bool.false_and, if_neg Bool.false_ne_true]
  | true =>
    rw [if_pos rfl, Bool.true_and]
    by_cases hn : p.refs (pageNumber a) = 0xffff
    · rw [if_neg (not_not_intro hn), if_neg fun h => bne_iff_ne.mp h hn]
      rfl
    · rw [if_pos hn, if_pos (bne_iff_ne.mpr hn)]
      rfl

theorem run_freeCode (a : Word) : (freeCode (pageNumber a)).run p = (0, pmmFreePage p a) := by
  rw [freeCode, run_inUseCode, Code.run_read, pmmFreePage]
  cases p.inUse (pageNumber a) with
  | false => rw [if_neg Bool.false_ne_true, if_neg Bool.false_ne_true]
  | true =>
    rw [if_pos rfl, if_pos rfl]
    by_cases hn : 1 < p.refs (pageNumber a)
    · rw [if_pos hn, if_pos hn]
      rfl
    · rw [if_neg hn, if_neg hn, Code.run, run_bitWrite, Code.run_read]
      by_cases hu : p.used = 0
      · simp [Pmm.setRefs, Code.run, hu]
      · simp [Pmm.setRefs, Pmm.setUsed, Code.run_read, Code.run, hu]

theorem run_pmmCode (op : PmmOp) (p : Pmm) : (pmmCode op).run p = pmmCall op p := by
  cases op with
  | alloc =>
    have hrounds : p.total ≤ 65536 + 1 := Nat.le_succ_of_le p.total_le
    rw [pmmCode]
    exact run_allocCode hrounds Nat.zero_lt_one fun g hg hg1 => absurd hg1 (by omega)
  | retain a => exact run_retainCode a
  | free a => exact run_freeCode a

end

/-- Whatever the processors do in turn, the calls return and leave what they would one after the other. -/
theorem pmm_serialized {ι : Type} [DecidableEq ι] {p₀ : Pmm} {eflags : ι → Word}
    {as : List (LockAct ι PmmOp)} {w : LockState ι Pmm PmmOp Word}
    (hrun : runs (lockStep pmmCode) (.initial p₀ eflags) as = some w) : Serialized pmmCall p₀ w :=
  serialized_run run_pmmCode hrun

def fourFrames : Pmm :=
  { bitmap := fun _ => false, refs := fun _ => 0, total := 4, total_le := by decide, used := 0, handed := [] }

/-- The second processor tries twice while the first one is between its loads and stores. -/
def bothAllocate : List (LockAct Bool PmmOp) :=
  [.lock false .alloc, .lock true .alloc, .xchg false, .xchg true, .access false, .access false,
    .access false, .xchg true, .access false, .access false, .access false, .access false,
    .unlock false, .xchg true, .restore false, .access true, .access true, .access true,
    .access true, .access true, .access true, .access true, .access true, .access true, .unlock true]

theorem pmm_serialized_two : ∃ w,
    runs (lockStep pmmCode) (.initial fourFrames fun _ => 0x202) bothAllocate = some w ∧
    w.calls = [(true, .alloc, 8192), (false, .alloc, 4096)] ∧ Serialized pmmCall fourFrames w := by
  have hrun : (runs (lockStep pmmCode) (.initial fourFrames fun _ => 0x202) bothAllocate).map
      (·.calls) = some [(true, .alloc, 8192), (false, .alloc, 4096)] := by
    decide +kernel
  obtain ⟨w, hw, hcalls⟩ := Option.map_eq_some_iff.mp hrun
  exact ⟨w, hw, hcalls, pmm_serialized hw⟩

end Ceblar
