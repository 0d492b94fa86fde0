import Ceblar.Fs.Recovery
import Mathlib.Data.List.FinRange

/-! # What the journal's checksum detects

Every round is a bijection of the running value, as the factor is odd.
-/

namespace Ceblar

open Function

def mix (h w : Word) : Word := (h ^^^ w) * 16777619

theorem mul_prime_injective : Function.Injective fun h : Word => h * 16777619 := by
  intro a b h
  have hinv : ∀ c : Word, c * 16777619 * 899433627 = c := by
    intro c
    rw [BitVec.mul_assoc, show (16777619 * 899433627 : Word) = 1#32 by decide, BitVec.mul_one]
  rw [← hinv a, ← hinv b]
  exact congrArg (· * 899433627) h

theorem mix_injective_left (w : Word) : Function.Injective (mix · w) := by
  intro a b h
  exact (BitVec.xor_left_inj _).mp (mul_prime_injective h)

theorem mix_injective_right (h : Word) : Function.Injective (mix h) := by
  intro a b hab
  exact (BitVec.xor_right_inj _).mp (mul_prime_injective hab)

theorem foldl_mix_injective {α : Type} (f : α → Word) (l : List α) :
    Function.Injective fun h => l.foldl (fun h i => mix h (f i)) h := by
  induction l with
  | nil => exact injective_id
  | cons i l ih => exact ih.comp (mix_injective_left (f i))

def dataSum (data : Sector) : Word :=
  (List.finRange 512).foldl (fun h i => mix h ((data i).setWidth 32)) 2166136261

theorem checksum_eq (r : Record) : checksum r = mix (dataSum r.data) r.targetLba ^^^ r.sequence := rfl

theorem foldl_update_of_notMem {data : Sector} {i : Fin 512} {b : Byte} {l : List (Fin 512)}
    (hi : i ∉ l) (h : Word) :
    l.foldl (fun h j => mix h ((update data i b j).setWidth 32)) h =
      l.foldl (fun h j => mix h ((data j).setWidth 32)) h := by
  apply List.foldl_ext
  intro h j hj
  rw [update_of_ne (ne_of_mem_of_not_mem hj hi)]

theorem dataSum_update {data : Sector} {i : Fin 512} {b : Byte} (hb : b ≠ data i) :
    dataSum (update data i b) ≠ dataSum data := by
  obtain ⟨l₁, l₂, hl⟩ := List.append_of_mem (List.mem_finRange i)
  have hnodup : (l₁ ++ i :: l₂).Nodup := hl ▸ List.nodup_finRange 512
  rw [List.nodup_middle, List.nodup_cons, List.mem_append, not_or] at hnodup
  obtain ⟨⟨h₁, h₂⟩, -⟩ := hnodup
  unfold dataSum
  rw [hl, List.foldl_append, List.foldl_append, List.foldl_cons, List.foldl_cons,
    foldl_update_of_notMem h₁, foldl_update_of_notMem h₂, update_self]
  intro heq
  have hwide := mix_injective_right _ (foldl_mix_injective _ l₂ heq)
  apply hb
  apply BitVec.eq_of_toNat_eq
  have hnat := congrArg BitVec.toNat hwide
  have hlt := b.isLt
  have hlt' := (data i).isLt
  rw [BitVec.toNat_setWidth, BitVec.toNat_setWidth] at hnat
  omega

/-- A record with one byte of its data, its target or its sequence number changed. -/
inductive Corrupted (r : Record) : Record → Prop where
  | data (i : Fin 512) (b : Byte) (h : b ≠ r.data i) : Corrupted r { r with data := update r.data i b }
  | target (lba : Word) (h : lba ≠ r.targetLba) : Corrupted r { r with targetLba := lba }
  | sequence (seq : Word) (h : seq ≠ r.sequence) : Corrupted r { r with sequence := seq }

theorem checksum_detects {r r' : Record} (h : Corrupted r r') : checksum r' ≠ checksum r := by
  rw [checksum_eq, checksum_eq]
  cases h with
  | data i b hb =>
    intro heq
    exact dataSum_update hb (mix_injective_left _ ((BitVec.xor_left_inj _).mp heq))
  | target lba hlba =>
    intro heq
    exact hlba (mix_injective_right _ ((BitVec.xor_left_inj _).mp heq))
  | sequence seq hseq =>
    intro heq
    exact hseq ((BitVec.xor_right_inj _).mp heq)

/-- The last byte of the data is one that a slot of the log has no room for. -/
theorem checksum_detects_last :
    Corrupted zeroRecord { zeroRecord with data := update zeroRecord.data 511 1 } ∧
      checksum { zeroRecord with data := update zeroRecord.data 511 1 } ≠ checksum zeroRecord := by
  have hbyte : (1 : Byte) ≠ zeroRecord.data 511 := by decide
  exact ⟨.data 511 1 hbyte, checksum_detects (.data 511 1 hbyte)⟩

end Ceblar
