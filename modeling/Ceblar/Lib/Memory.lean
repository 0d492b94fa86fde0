import Ceblar.Lib.Bytes

/-! # Byte memory

Words in a memory of bytes, and records of four words, with the rules for reading a field after
another one was written.
-/

namespace Ceblar

variable {m : Mem} {b c x : Word}

abbrev Mem := Word → Byte

def load32 (m : Mem) (a : Word) : Word := le32 (m a) (m (a + 1)) (m (a + 2)) (m (a + 3))

def store32 (m : Mem) (a w : Word) : Mem :=
  fun x => if (x - a).toNat < 4 then byteOf w (x - a).toNat else m x

theorem load32_congr {m' : Mem} {a : Word} (h : ∀ x, (x - a).toNat < 4 → m' x = m x) :
    load32 m' a = load32 m a := by
  unfold load32
  rw [h a (by simp), h (a + 1) (by bv_omega), h (a + 2) (by bv_omega), h (a + 3) (by bv_omega)]

theorem store32_of_le {a w : Word} (h : 4 ≤ (x - a).toNat) : store32 m a w x = m x :=
  if_neg (by omega)

theorem load32_store32 (m : Mem) (a w : Word) : load32 (store32 m a w) a = w := by
  have hoff : ∀ k : Word, a + k - a = k := fun k => by bv_omega
  simp only [load32, store32, hoff, BitVec.sub_self]
  exact le32_byteOf w

/-! ## Records of four words -/

inductive Field where
  | size
  | free
  | magic
  | next
  deriving DecidableEq

def Field.offset : Field → Word
  | .size => 0
  | .free => 4
  | .magic => 8
  | .next => 12

def field (m : Mem) (b : Word) (f : Field) : Word := load32 m (b + f.offset)

def setField (m : Mem) (b : Word) (f : Field) (w : Word) : Mem := store32 m (b + f.offset) w

def Apart (b c : Word) : Prop := 16 ≤ (c - b).toNat ∧ 16 ≤ (b - c).toNat

theorem Apart.symm (h : Apart b c) : Apart c b := ⟨h.2, h.1⟩

theorem Apart.outside (h : Apart b c) (hx : (x - c).toNat < 16) : 16 ≤ (x - b).toNat := by
  obtain ⟨h1, h2⟩ := h
  bv_omega

theorem apart_of_le (h : b.toNat + 16 ≤ c.toNat) (hc : c.toNat + 16 ≤ 2 ^ 32) : Apart b c := by
  constructor
  · bv_omega
  · bv_omega

theorem setField_of_le (f : Field) (w : Word) (h : 16 ≤ (x - b).toNat) :
    setField m b f w x = m x := by
  apply store32_of_le
  cases f <;> simp only [Field.offset] <;> bv_omega

@[simp] theorem field_setField_self (m : Mem) (b : Word) (f : Field) (w : Word) :
    field (setField m b f w) b f = w := load32_store32 m _ w

@[simp] theorem field_setField_ne (m : Mem) (b : Word) {f g : Field} (w : Word) (h : g ≠ f) :
    field (setField m b f w) b g = field m b g := by
  apply load32_congr
  intro x hx
  apply store32_of_le
  cases f <;> cases g <;> first | exact absurd rfl h | (simp only [Field.offset] at hx ⊢; bv_omega)

theorem field_congr {m' : Mem} (h : ∀ x, (x - b).toNat < 16 → m' x = m x) (f : Field) :
    field m' b f = field m b f := by
  apply load32_congr
  intro x hx
  apply h
  cases f <;> simp only [Field.offset] at hx <;> bv_omega

theorem field_setField_apart (m : Mem) (f g : Field) (w : Word) (h : Apart b c) :
    field (setField m b f w) c g = field m c g :=
  field_congr (fun _ hx => setField_of_le f w (h.outside hx)) g

end Ceblar
