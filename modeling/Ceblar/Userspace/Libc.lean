import Ceblar.Lib.Copy

/-! # The C library of the user programs (`userspace/libc/libc.c`)

The functions that write memory, with overlapping operands too: nothing in the source forbids them. Each
one gives what the source returns and the memory that it leaves. `unsigned long` has 32 bits.
-/

namespace Ceblar

open Function
open BitVec (ofNat toNat_ofNat)

/-! ## The functions -/

def memcpy (d s n : Word) (m : Mem) : Word × Mem := (d, copyLoop 1 n.toNat d s m)

def copyDown : Nat → Word → Word → Mem → Mem
  | 0, _, _, m => m
  | n + 1, a, b, m => copyDown n (a - 1) (b - 1) (update m (a - 1) (m (b - 1)))

def memmove (d s n : Word) (m : Mem) : Word × Mem :=
  (d, if d < s then copyLoop 1 n.toNat d s m else copyDown n.toNat (d + n) (s + n) m)

/-- `while (n && (*d++ = *s++)) n--;` with what it leaves in `n` and `d`. -/
def copyString : Nat → Word → Word → Mem → Nat × Word × Mem
  | 0, d, _, m => (0, d, m)
  | n + 1, d, s, m =>
    if m s ≠ 0 then copyString n (d + 1) (s + 1) (update m d (m s))
    else (n + 1, d + 1, update m d (m s))

def strncpy (d s n : Word) (m : Mem) : Word × Mem :=
  let (n, e, m) := copyString n.toNat d s m
  (d, fillLoop 0 n e m)

section

variable {d s n : Word} {m : Mem} {k len : Nat}

/-- The bytes of `[d, d + n)` are those that `[s, s + n)` had, and no other byte has changed. -/
structure Moved (d s n : Word) (m m' : Mem) : Prop where
  copied : ∀ i < n.toNat, m' (d + ofNat 32 i) = m (s + ofNat 32 i)
  kept : ∀ x : Word, x.toNat < d.toNat ∨ d.toNat + n.toNat ≤ x.toNat → m' x = m x

theorem copyDown_eq (k : Nat) (a b : Word) (m : Mem) :
    copyDown k a b m = copyLoop (-1) k (a - 1) (b - 1) m := by
  induction k generalizing a b m with
  | zero => rfl
  | succ k ih =>
    rw [copyDown, copyLoop, ih, sub_eq_add_neg (a - 1), sub_eq_add_neg (b - 1)]

theorem memmove_apply (hd : d.toNat + n.toNat ≤ 2 ^ 32) (hs : s.toNat + n.toNat ≤ 2 ^ 32) (x : Word) :
    (memmove d s n m).2 x = if (x - d).toNat < n.toNat then m (s + (x - d)) else m x := by
  have hn : n.toNat ≤ 2 ^ 32 := by omega
  unfold memmove
  by_cases hup : d < s
  · rw [if_pos hup]
    dsimp only
    rw [copyLoop_apart (one_mul 1) hn, one_mul]
    rw [BitVec.lt_def] at hup
    rw [one_mul]
    bv_omega
  · rw [if_neg hup, copyDown_eq]
    dsimp only
    rw [copyLoop_apart (by decide : (-1 : Word) * -1 = 1) hn]
    · have hround : (-1 * (x - (d + n - 1))).toNat < n.toNat ↔ (x - d).toNat < n.toNat := by
        rw [show (-1 : Word) * (x - (d + n - 1)) = d + n - 1 - x by ring]
        bv_omega
      rw [show s + n - 1 + (x - (d + n - 1)) = s + (x - d) by ring]
      simp only [hround]
    · rw [show (-1 : Word) * (d + n - 1 - (s + n - 1)) = s - d by ring]
      rw [BitVec.not_lt, BitVec.le_def] at hup
      bv_omega

theorem memmove_moved (hd : d.toNat + n.toNat ≤ 2 ^ 32) (hs : s.toNat + n.toNat ≤ 2 ^ 32) (m : Mem) :
    Moved d s n m (memmove d s n m).2 := by
  refine ⟨fun i hi => ?_, fun x hx => ?_⟩
  · rw [memmove_apply hd hs, show d + ofNat 32 i - d = ofNat 32 i by ring, if_pos]
    have := n.isLt
    rw [toNat_ofNat, Nat.mod_eq_of_lt (by omega)]
    exact hi
  · rw [memmove_apply hd hs, if_neg]
    rcases hx with hx | hx
    · bv_omega
    · bv_omega

theorem memmove_moved_up :
    (0x1001 : Word).toNat + (4 : Word).toNat ≤ 2 ^ 32 ∧
    (0x1000 : Word).toNat + (4 : Word).toNat ≤ 2 ^ 32 ∧
    Moved 0x1001 0x1000 4 (fun x => x.setWidth 8) (memmove 0x1001 0x1000 4 fun x => x.setWidth 8).2 :=
  ⟨by decide, by decide, memmove_moved (by decide) (by decide) _⟩

/-! ## `strncpy` -/

structure IsString (m : Mem) (s : Word) (len : Nat) : Prop where
  char : ∀ i < len, m (s + ofNat 32 i) ≠ 0
  nul : m (s + ofNat 32 len) = 0

/-- The characters as far as there is room, zeros in the rest of the `n` bytes, and no other byte
changed. -/
structure Budgeted (d s n : Word) (len : Nat) (m m' : Mem) : Prop where
  copied : ∀ i < min n.toNat len, m' (d + ofNat 32 i) = m (s + ofNat 32 i)
  padded : ∀ i, len ≤ i → i < n.toNat → m' (d + ofNat 32 i) = 0
  kept : ∀ x : Word, n.toNat ≤ (x - d).toNat → m' x = m x

/-- The character that the first loop reads in round `i`. It is not the one of the string if the
destination starts inside the string. -/
def charRead (d s : Word) (m : Mem) (i : Nat) : Byte := m (s + ofNat 32 (i % (d - s).toNat))

theorem copyUp_apply (hk : k ≤ 2 ^ 32) (x : Word) :
    copyLoop 1 k d s m x = if (x - d).toNat < k then charRead d s m (x - d).toNat else m x := by
  rw [copyLoop_apply (one_mul 1) hk, one_mul, one_mul, one_mul]
  rfl

theorem copyUp_read (hk : k < 2 ^ 32) : copyLoop 1 k d s m (s + ofNat 32 k) = charRead d s m k := by
  have hread := copyLoop_read (one_mul 1) hk fun x => copyLoop_apply (a := d) (b := s) (m := m)
      (one_mul 1) hk.le x
  rw [one_mul, one_mul, one_mul] at hread
  exact hread

theorem copyString_passes (k j : Nat) (hk : k + j ≤ 2 ^ 32) (hchars : ∀ i < k, charRead d s m i ≠ 0) :
    copyString (k + j) d s m =
      copyString j (d + ofNat 32 k) (s + ofNat 32 k) (copyLoop 1 k d s m) := by
  induction k generalizing j with
  | zero => simp [copyLoop]
  | succ k ih =>
    rw [show k + 1 + j =
      k + (j + 1) by omega, ih (j + 1) (by omega) fun i hi => hchars i (by omega), copyString,
      copyUp_read (by omega), if_pos (hchars k (by omega)), copyLoop_succ, one_mul,
      copyUp_read (by omega), ofNat_succ, add_assoc, add_assoc]

theorem strncpy_full (hchars : ∀ i < n.toNat, charRead d s m i ≠ 0) (x : Word) :
    (strncpy d s n m).2 x = if (x - d).toNat < n.toNat then charRead d s m (x - d).toNat else m x := by
  have hn := n.isLt
  have hloop := copyString_passes (m := m) n.toNat 0 (by omega) hchars
  rw [Nat.add_zero, copyString] at hloop
  unfold strncpy
  rw [hloop, ← copyUp_apply (by omega)]
  rfl

theorem strncpy_short (hk : k < n.toNat) (hchars : ∀ i < k, charRead d s m i ≠ 0)
    (hnul : charRead d s m k = 0) (x : Word) :
    (strncpy d s n m).2 x = if (x - d).toNat < k then charRead d s m (x - d).toNat
      else if (x - d).toNat ≤ n.toNat then 0 else m x := by
  have hn := n.isLt
  have hloop := copyString_passes (m := m) k (n.toNat - k - 1 + 1) (by omega) hchars
  rw [show k + (n.toNat - k - 1 + 1) = n.toNat by omega, copyString, copyUp_read (by omega),
    if_neg (not_not.mpr hnul), hnul] at hloop
  unfold strncpy
  rw [hloop]
  dsimp only
  rw [fillLoop_apply (by omega), update_apply, copyUp_apply (by omega)]
  have hhere : x = d + ofNat 32 k ↔ (x - d).toNat = k := by
    have := round_eq_iff (a := d) (one_mul (1 : Word)) (show k < 2 ^ 32 by omega) x
    rwa [one_mul, one_mul] at this
  have hbehind : (x - (d + ofNat 32 k + 1)).toNat =
      if (x - d).toNat ≤ k then 2 ^ 32 + (x - d).toNat - (k + 1) else (x - d).toNat - (k + 1) := by
    have hx := (x - d).isLt
    have hk' : (k + 1) % 2 ^ 32 = k + 1 := Nat.mod_eq_of_lt (by omega)
    rw [add_assoc, ← ofNat_succ, ← sub_sub, BitVec.toNat_sub, toNat_ofNat, hk']
    split <;> omega
  have hx := (x - d).isLt
  rw [hbehind]
  simp only [hhere]
  split_ifs <;> first | rfl | omega

theorem toNat_add_ofNat_sub (d : Word) {i : Nat} (hi : i < 2 ^ 32) : (d + ofNat 32 i - d).toNat = i := by
  rw [add_sub_cancel_left, toNat_ofNat, Nat.mod_eq_of_lt hi]

theorem IsString.charRead_ne (hs : IsString m s len) {i : Nat} (hi : i < len) : charRead d s m i ≠ 0 :=
  hs.char _ ((Nat.mod_le _ _).trans_lt hi)

theorem IsString.charRead_past (hs : IsString m s len) (hlen : charRead d s m len ≠ 0) (i : Nat) :
    charRead d s m i ≠ 0 := by
  have hgap : 0 < (d - s).toNat ∧ (d - s).toNat ≤ len := by
    by_contra hgap
    apply hlen
    have hsame : len % (d - s).toNat = len := by
      by_cases hzero : (d - s).toNat = 0
      · rw [hzero, Nat.mod_zero]
      · exact Nat.mod_eq_of_lt (by omega)
    rw [charRead, hsame]
    exact hs.nul
  exact hs.char _ ((Nat.mod_lt i hgap.1).trans_le hgap.2)

def ReadsString (d s n : Word) (len : Nat) (m : Mem) : Prop :=
  ∀ i < n.toNat, i ≤ len → charRead d s m i = m (s + ofNat 32 i)

theorem budgeted_of_full (hs : IsString m s len) (hle : n.toNat ≤ len) :
    Budgeted d s n len m (strncpy d s n m).2 ↔ ReadsString d s n len m := by
  have hn := n.isLt
  have hend := strncpy_full (d := d) (n := n) fun i hi => hs.charRead_ne (show i < len by omega)
  constructor
  · intro h i hi _
    rw [← h.copied i (by omega), hend, toNat_add_ofNat_sub d (by omega), if_pos hi]
  · intro h
    refine ⟨fun i hi => ?_, fun i hi hlt => absurd hlt (by omega), fun x hx => ?_⟩
    · rw [hend, toNat_add_ofNat_sub d (by omega), if_pos (by omega)]
      exact h i (by omega) (by omega)
    · rw [hend, if_neg (by omega)]

theorem budgeted_of_short (hs : IsString m s len) (hlt : len < n.toNat) :
    Budgeted d s n len m (strncpy d s n m).2 ↔ ReadsString d s n len m ∧ m (d + n) = 0 := by
  have hn := n.isLt
  have hlast : (d + n - d).toNat = n.toNat := by rw [add_sub_cancel_left]
  constructor
  · intro h
    have hnul : charRead d s m len = 0 := by
      by_contra hne
      have hend := strncpy_full (n := n) (fun i _ => hs.charRead_past hne i) (d + ofNat 32 len)
      rw [h.padded len le_rfl hlt, toNat_add_ofNat_sub d (by omega), if_pos hlt] at hend
      exact hne hend.symm
    have hend := strncpy_short (d := d) hlt (fun i hi => hs.charRead_ne hi) hnul
    refine ⟨fun i _ hile => ?_, ?_⟩
    · rcases Nat.lt_or_eq_of_le hile with hi | rfl
      · rw [← h.copied i (by omega), hend, toNat_add_ofNat_sub d (by omega), if_pos hi]
      · rw [hnul, hs.nul]
    · rw [← h.kept (d + n) hlast.ge, hend, hlast, if_neg (by omega), if_pos le_rfl]
  · rintro ⟨h, hzero⟩
    have hend :=
      strncpy_short (d := d) hlt (fun i hi => hs.charRead_ne hi) ((h len hlt le_rfl).trans hs.nul)
    refine ⟨fun i hi => ?_, fun i hi hin => ?_, fun x hx => ?_⟩
    · rw [hend, toNat_add_ofNat_sub d (by omega), if_pos (by omega)]
      exact h i (by omega) (by omega)
    · rw [hend, toNat_add_ofNat_sub d (by omega), if_neg (by omega), if_pos (by omega)]
    · rw [hend, if_neg (by omega)]
      by_cases hat : (x - d).toNat ≤ n.toNat
      · have hx' : x = d + n := by bv_omega
        rw [if_pos hat, hx', hzero]
      · rw [if_neg hat]

/-- `strncpy` keeps to its `n` bytes if the string has at least that many characters, or if the byte
behind them is zero anyway; it copies the string if the destination does not start inside the
string. -/
theorem strncpy_budgeted_iff {len : Nat} (hs : IsString m s len) (d n : Word) :
    Budgeted d s n len m (strncpy d s n m).2 ↔ ReadsString d s n len m ∧
    (n.toNat ≤ len ∨ m (d + n) = 0) := by
  by_cases hle : n.toNat ≤ len
  · rw [budgeted_of_full hs hle]
    exact ⟨fun h => ⟨h, .inl hle⟩, fun h => h.1⟩
  · rw [budgeted_of_short hs (by omega)]
    exact ⟨fun h => ⟨h.1, .inr h.2⟩, fun h => ⟨h.1, h.2.resolve_left hle⟩⟩

def shortString : Mem :=
  fun x => if x = 0x1000 then 0x61 else if x = 0x1001 then 0x62 else if x = 0x1002 then 0 else 0xff

theorem shortString_isString : IsString shortString 0x1000 2 := by
  refine ⟨fun i hi => ?_, by decide⟩
  interval_cases i <;> decide

theorem strncpy_budgeted_two :
    IsString shortString 0x1000 2 ∧
    Budgeted 0x2000 0x1000 2 2 shortString (strncpy 0x2000 0x1000 2 shortString).2 := by
  refine ⟨shortString_isString,
    (strncpy_budgeted_iff shortString_isString 0x2000 2).mpr ⟨?_, .inl (by decide)⟩⟩
  intro i hi _
  change i < 2 at hi
  interval_cases i <;> decide

/-- With room for 4 bytes the fifth is overwritten as well. -/
theorem strncpy_overruns :
    (strncpy 0x2000 0x1000 4 shortString).2 0x2004 = 0 ∧ shortString 0x2004 = 0xff ∧
      ¬ Budgeted 0x2000 0x1000 4 2 shortString (strncpy 0x2000 0x1000 4 shortString).2 := by
  have hzero : (strncpy 0x2000 0x1000 4 shortString).2 0x2004 = 0 := by decide
  refine ⟨hzero, by decide, fun h => ?_⟩
  have hkept := h.kept 0x2004 (by decide)
  rw [hzero] at hkept
  exact absurd hkept (by decide)

end

/-- Where the destination starts inside the source, `memcpy` repeats the bytes in front of it. -/
theorem memcpy_repeats (d s n : Word) (m : Mem) : (memcpy d s n m).1 = d ∧ ∀ x, (memcpy d s n m).2 x =
    if (x - d).toNat < n.toNat then m (s + ofNat 32 ((x - d).toNat % (d - s).toNat)) else m x := by
  refine ⟨rfl, fun x => ?_⟩
  unfold memcpy
  simpa using @copyLoop_apply 1 d s n.toNat m (by decide) n.isLt.le x

end Ceblar
