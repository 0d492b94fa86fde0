import Ceblar.Fs.ShortName

/-! # Names there and back

What `short_name` prints for an entry with an 8.3 name, `make_83` turns into the bytes of that entry again.
-/

namespace Ceblar

/-- Eleven bytes that hold an 8.3 name: blanks only behind the characters of either part. -/
structure DirEntry.Canonical (d : DirEntry) : Prop where
  base : d 0 ≠ 0x20
  base_blank : ∀ i j : Nat, i < j → j < 8 → d (Fin.ofNat 32 i) = 0x20 → d (Fin.ofNat 32 j) = 0x20
  ext_blank : ∀ i j : Nat, 8 ≤ i → i < j → j < 11 → d (Fin.ofNat 32 i) = 0x20 → d (Fin.ofNat 32 j) = 0x20
  char : ∀ i < 11, d (Fin.ofNat 32 i) ≠ 0 ∧ d (Fin.ofNat 32 i) ≠ 0x2f ∧ d (Fin.ofNat 32 i) ≠ 0x2e ∧
    ¬(0x61 ≤ d (Fin.ofNat 32 i) ∧ d (Fin.ofNat 32 i) ≤ 0x7a)

theorem nameChars_nul (fuel : Nat) (p q : List Byte) :
    nameChars fuel (p ++ 0 :: q) = ((nameChars fuel p).1, (nameChars fuel p).2 ++ 0 :: q) := by
  induction fuel generalizing p with
  | zero => rfl
  | succ fuel ih =>
    cases p with
    | nil => rfl
    | cons c p =>
      rw [List.cons_append, nameChars, nameChars, ih]
      split_ifs <;> rfl

theorem extChars_nul (fuel : Nat) (p q : List Byte) : extChars fuel (p ++ 0 :: q) = extChars fuel p := by
  induction fuel generalizing p with
  | zero => rfl
  | succ fuel ih =>
    cases p with
    | nil => rfl
    | cons c p => rw [List.cons_append, extChars, extChars, ih]

theorem skipDot_nul (p q : List Byte) : skipDot (p ++ 0 :: q) = skipDot p ++ 0 :: q := by
  cases p with
  | nil => rfl
  | cons c p =>
    unfold skipDot
    rw [List.cons_append]
    split <;> simp_all

theorem make83_nul (p q : List Byte) : make83 (p ++ 0 :: q) = make83 p := by
  rw [make83_eq, make83_eq, nameChars_nul]
  dsimp only
  rw [skipDot_nul, extChars_nul]

/-! ## The parts of a name -/

theorem padded_of_blanks {l : List Byte} (h : l.Pairwise fun a b => a = 0x20 → b = 0x20) :
    l.takeWhile (· != 0x20) ++ List.replicate (l.length - (l.takeWhile (· != 0x20)).length) 0x20 = l := by
  induction l with
  | nil => rfl
  | cons c l ih =>
    rw [List.pairwise_cons] at h
    by_cases hc : c = 0x20
    · subst hc
      rw [List.takeWhile_cons_of_neg (by simp), List.nil_append, List.length_nil, Nat.sub_zero]
      exact (List.eq_replicate_of_mem fun b hb =>
        (List.mem_cons.mp hb).elim id fun hb => h.1 b hb rfl).symm
    · rw [List.takeWhile_cons_of_pos (by simpa using hc), List.length_cons, List.length_cons,
        Nat.add_sub_add_right, List.cons_append, ih h.2]

section

variable {d : DirEntry}

def DirEntry.part (d : DirEntry) (j n : Nat) : List Byte :=
  (List.range n).map fun i => d (Fin.ofNat 32 (j + i))

theorem part_blanks {j n : Nat}
    (h : ∀ i k : Nat, j ≤ i → i < k → k < j + n → d (Fin.ofNat 32 i) = 0x20 → d (Fin.ofNat 32 k) = 0x20) :
    (d.part j n).Pairwise fun a b => a = 0x20 → b = 0x20 := by
  unfold DirEntry.part
  rw [List.pairwise_map]
  refine List.Pairwise.imp_of_mem (fun {i k} _ hk hlt => ?_) List.pairwise_lt_range
  exact h (j + i) (j + k) (by omega) (by omega) (by have := List.mem_range.mp hk; omega)

theorem DirEntry.Canonical.nameChar (h : d.Canonical) {j n : Nat} (hn : j + n ≤ 11) :
    ∀ c ∈ (d.part j n).takeWhile (· != 0x20), NameChar c := by
  intro c hc
  have hblank : c ≠ 0x20 := by simpa using List.mem_takeWhile_imp hc
  obtain ⟨i, hi, rfl⟩ := List.mem_map.mp ((List.takeWhile_sublist _).subset hc)
  obtain ⟨h0, hslash, hdot, hlower⟩ := h.char (j + i) (by have := List.mem_range.mp hi; omega)
  exact ⟨h0, hblank, hdot, hslash, if_neg hlower⟩

theorem part_length (d : DirEntry) (j n : Nat) : (d.part j n).length = n := by simp [DirEntry.part]

theorem takeWhile_part_le (d : DirEntry) (j n : Nat) : ((d.part j n).takeWhile (· != 0x20)).length ≤ n :=
  (List.takeWhile_sublist _).length_le.trans_eq (part_length d j n)

def DirEntry.Canonical.name (h : d.Canonical) : ShortName where
  base := (d.part 0 8).takeWhile (· != 0x20)
  ext := (d.part 8 3).takeWhile (· != 0x20)
  base_pos := by
    change ((d 0 :: _).takeWhile _ : List Byte) ≠ []
    rw [List.takeWhile_cons_of_pos (by simpa using h.base)]
    exact List.cons_ne_nil _ _
  base_le := takeWhile_part_le d 0 8
  ext_le := takeWhile_part_le d 8 3
  base_char := h.nameChar (by omega)
  ext_char := h.nameChar (by omega)

theorem DirEntry.Canonical.stored (h : d.Canonical) : d.stored = h.name.bytes := by
  have hbase :=
    padded_of_blanks (part_blanks (j := 0) (n := 8) fun i k _ => by simpa using h.base_blank i k)
  have hext := padded_of_blanks (part_blanks (j := 8) (n := 3) fun i k => h.ext_blank i k)
  rw [part_length] at hbase hext
  rw [stored_chars, ShortName.bytes, List.append_assoc _ h.name.ext]
  exact (congrArg₂ (· ++ ·) hbase hext).symm

theorem ShortName.text_length (n : ShortName) : n.text.length ≤ 12 := by
  have := n.base_le
  have := n.ext_le
  unfold ShortName.text
  split <;> simp <;> omega

theorem DirEntry.Canonical.shown (h : d.Canonical) {cap : Word} (hcap : 13 ≤ cap) :
    Ceblar.shortName d cap = h.name.text ++ [0] := by
  have hlen := h.name.text_length
  have hroom : 13 ≤ cap.toNat := hcap
  rw [shortName_eq d (by rintro rfl; exact absurd hroom (by decide)), name83_of_stored h.stored,
    List.take_of_length_le (by omega)]

theorem name_round_trip (h : d.Canonical) {cap : Word} (hcap : 13 ≤ cap) :
    make83 (shortName d cap) = d.stored ∧
      ∀ d' : DirEntry, d'.Canonical → shortName d' cap = shortName d cap → d'.stored = d.stored := by
  have hback : ∀ {e : DirEntry}, e.Canonical → make83 (shortName e cap) = e.stored := by
    intro e he
    rw [he.shown hcap, make83_nul, make83_of_spelled he.name.text_upper, he.stored]
  refine ⟨hback h, fun d' h' hsame => ?_⟩
  rw [← hback h', hsame, hback h]

def fullEntry : DirEntry := fun i =>
  [0x4b, 0x45, 0x52, 0x4e, 0x45, 0x4c, 0x33, 0x32, 0x45, 0x4c, 0x46].getD i 0

theorem fullEntry_canonical : fullEntry.Canonical := by
  have hne : ∀ i < 11, fullEntry (Fin.ofNat 32 i) ≠ 0x20 := by decide
  refine ⟨by decide, fun i j hij hj h => absurd h (hne i (by omega)),
    fun i j _ hij hj h => absurd h (hne i (by omega)), ?_⟩
  decide

theorem name_round_trip_full : fullEntry.Canonical ∧ make83 (shortName fullEntry 13) = fullEntry.stored :=
  ⟨fullEntry_canonical, (name_round_trip fullEntry_canonical (by decide : (13 : Word) ≤ 13)).1⟩

end

end Ceblar
