import Ceblar.Kernel.ElfPages

/-! # Writable and executable

Which images the loader accepts, and how its test of the segment flags compares with W^X.
-/

namespace Ceblar

def ElfProgram.executable (p : ElfProgram) : Bool := bit p.flags 0
def ElfProgram.writable (p : ElfProgram) : Bool := bit p.flags 1
def ElfProgram.readable (p : ElfProgram) : Bool := bit p.flags 2

def Image.SomeLoad (image : Image) (f : ElfProgram → Bool) : Prop :=
  ∃ i < image.header.phnum.toNat, (image.program i).isLoad = true ∧ f (image.program i) = true

def Accepts (image : Image) (size : Word) (space : Nat) (m : Vmm) : Prop :=
  ∃ entry m', elf32Load image size space m = .ok (some entry, m')

/-- Everything the loader asks for but the flags of the segments: the header, the bounds of every
segment, and a page in the tables and a frame for each of its pages. -/
structure OtherwiseValid (image : Image) (size : Word) (pmm : Pmm) : Prop where
  length : 52 ≤ size
  header : image.header.valid size = true
  bounds : ∀ i < image.header.phnum.toNat, (image.program i).isLoad = true →
    (image.program i).inBounds size = true
  tables : ∀ i < image.header.phnum.toNat, (image.program i).isLoad = true →
    ∀ r ∈ (image.program i).requests, (userSlot r.va).isSome = true
  frames : image.pages image.header.phnum.toNat ≤ freeFrames pmm

theorem flags_mask (p : ElfProgram) : p.flags &&& 6 = 6 ↔ (p.writable && p.readable) = true := by
  unfold ElfProgram.writable ElfProgram.readable
  rw [Bool.and_eq_true]
  constructor
  · intro h
    have hbit : ∀ k, bit (p.flags &&& 6) k = bit 6 k := fun k => by rw [h]
    exact ⟨by simpa [bit] using hbit 1, by simpa [bit] using hbit 2⟩
  · rintro ⟨h1, h2⟩
    apply BitVec.eq_of_getLsbD_eq
    intro k hk
    have hsix : ∀ k < 32, (6 : Word).getLsbD k = (decide (k = 1) || decide (k = 2)) := by decide
    rw [BitVec.getLsbD_and, hsix k hk]
    by_cases hk1 : k = 1
    · subst hk1
      simp [show p.flags.getLsbD 1 = true from h1]
    · by_cases hk2 : k = 2
      · subst hk2
        simp [show p.flags.getLsbD 2 = true from h2]
      · simp [hk1, hk2]

theorem accepts_iff {m : Vmm} (hm : m.UserHalfFree) (image : Image) (size : Word) (space : Nat) :
    Accepts image size space m ↔
      OtherwiseValid image size m.pmm ∧ ¬image.SomeLoad fun p => p.writable && p.readable := by
  have hflags : (¬image.SomeLoad fun p => p.writable && p.readable) ↔
      ∀ i < image.header.phnum.toNat, (image.program i).isLoad = true →
      (image.program i).flags &&& 6 ≠ 6 := by
    unfold Image.SomeLoad
    simp only [← flags_mask]
    push Not
    rfl
  rw [hflags]
  constructor
  · rintro ⟨entry, m', hload⟩
    have hhead : 52 ≤ size ∧ image.header.valid size = true := by
      unfold elf32Load at hload
      split at hload
      next => cases hload
      next hc =>
        rw [not_or, BitVec.not_lt, Bool.not_eq_false] at hc
        exact hc
    obtain ⟨phys, hplan⟩ := elf32Load_plan space hm hhead.1 hhead.2
    rw [hplan] at hload
    have hboth : (taken image size space m).toBool = true ∧
        image.passes size image.header.phnum.toNat = true := by
      rw [← Bool.and_eq_true]
      by_contra hc
      rw [if_neg hc] at hload
      cases hload
    obtain ⟨hlen, hmem⟩ := requests_of_passes hboth.2
    obtain ⟨hslots, hframes⟩ := takePages_ok_iff.mp hboth.1
    have hpass := image_passes_iff.mp hboth.2
    refine ⟨⟨hhead.1, hhead.2, fun i hi hl => (hpass i hi hl).2, fun i hi hl r hr => ?_, hlen ▸ hframes⟩,
      fun i hi hl => (hpass i hi hl).1⟩
    exact hslots r ((hmem r).mpr ⟨i, hi, hl, hr⟩)
  · rintro ⟨hv, hwr⟩
    have hpass : image.passes size image.header.phnum.toNat = true :=
      image_passes_iff.mpr fun i hi hl => ⟨hwr i hi hl, hv.bounds i hi hl⟩
    obtain ⟨hlen, hmem⟩ := requests_of_passes hpass
    have htaken : (taken image size space m).toBool = true := by
      refine takePages_ok_iff.mpr ⟨fun r hr => ?_, hlen.symm ▸ hv.frames⟩
      obtain ⟨i, hi, hl, hr⟩ := (hmem r).mp hr
      exact hv.tables i hi hl r hr
    obtain ⟨phys, hplan⟩ := elf32Load_plan space hm hv.length hv.header
    rw [htaken, hpass] at hplan
    exact ⟨_, _, hplan⟩

/-- The loader rejects an image for a segment that is writable and executable, and no valid image
for its flags otherwise. -/
def EnforcesWX (image : Image) (size : Word) (space : Nat) (m : Vmm) : Prop :=
  (Accepts image size space m → ¬image.SomeLoad fun p => p.writable && p.executable) ∧
    (OtherwiseValid image size m.pmm → (¬image.SomeLoad fun p => p.writable && p.executable) →
      Accepts image size space m)

theorem enforces_wx_iff {m : Vmm} (hm : m.UserHalfFree) (image : Image) (size : Word) (space : Nat) :
    EnforcesWX image size space m ↔ (OtherwiseValid image size m.pmm →
      ((image.SomeLoad fun p => p.writable && p.readable) ↔
        image.SomeLoad fun p => p.writable && p.executable)) := by
  unfold EnforcesWX
  rw [accepts_iff hm]
  by_cases hv : OtherwiseValid image size m.pmm
  · simp only [hv, true_and, forall_const]
    rw [← iff_def, not_iff_not]
  · simp [hv]

def oneSegment (flags : Byte) : Image := fun o =>
  ([0x7f, 0x45, 0x4c, 0x46, 1, 0, 0, 0, 0, 0, 0, 0, 0, 0, 0, 0, 2, 0, 3, 0, 1, 0, 0, 0, 0, 0, 0x40,
    0, 52, 0, 0, 0, 0, 0, 0, 0, 0, 0, 0, 0, 52, 0, 32, 0, 1, 0, 0, 0, 0, 0, 0, 0,
    1, 0, 0, 0, 0, 0, 0, 0, 0, 0, 0x40, 0, 0, 0, 0, 0, 1, 0, 0, 0, 1, 0, 0, 0, flags, 0, 0, 0, 0, 0,
    0, 0] : List Byte).getD o 0

theorem oneSegment_valid {flags : Byte} {pmm : Pmm} (hframes : 1 ≤ freeFrames pmm)
    (h : (oneSegment flags).header.valid 84 = true ∧ (oneSegment flags).header.phnum.toNat = 1 ∧
      ((oneSegment flags).program 0).inBounds 84 = true ∧ (oneSegment flags).pages 1 = 1 ∧
      ((oneSegment flags).program 0).requests.all (fun r => (userSlot r.va).isSome) = true) :
    OtherwiseValid (oneSegment flags) 84 pmm := by
  obtain ⟨hvalid, hphnum, hbounds, hpages, hslots⟩ := h
  have hzero : ∀ i < (oneSegment flags).header.phnum.toNat, i = 0 := by
    rw [hphnum]
    intro i hi
    omega
  refine ⟨by decide, hvalid, fun i hi _ => ?_, fun i hi _ => ?_, ?_⟩
  · rw [hzero i hi]
    exact hbounds
  · rw [hzero i hi]
    exact List.all_eq_true.mp hslots
  · rw [hphnum, hpages]
    exact hframes

theorem enforces_wx_text : ∃ m, vmmCreateAddressSpace coldMachine = some (0, m) ∧ m.UserHalfFree ∧
    EnforcesWX (oneSegment 5) 84 0 m := by
  obtain ⟨m, hm⟩ : ∃ m, vmmCreateAddressSpace coldMachine = some (0, m) := ⟨_, rfl⟩
  have hfree : m.UserHalfFree := (vmmCreateAddressSpace_tidy coldMachine_coldStart.tidy hm).userHalf
  refine ⟨m, hm, hfree, (enforces_wx_iff hfree (oneSegment 5) 84 0).mpr fun _ => ?_⟩
  have hphnum : (oneSegment 5).header.phnum.toNat = 1 := by decide +kernel
  have hwritable : ((oneSegment 5).program 0).writable = false := by decide +kernel
  have hnone : ∀ f : ElfProgram → Bool, ¬(oneSegment 5).SomeLoad fun p => p.writable && f p := by
    rintro f ⟨i, hi, -, hw⟩
    rw [hphnum] at hi
    obtain rfl : i = 0 := by omega
    have hw' := (Bool.and_eq_true_iff.mp hw).1
    rw [hwritable] at hw'
    cases hw'
  exact ⟨fun h => absurd h (hnone _), fun h => absurd h (hnone _)⟩

/-- Data that is readable and writable is rejected; code that is writable is accepted. -/
theorem wx_confused : ∃ m, vmmCreateAddressSpace coldMachine = some (0, m) ∧
    ¬EnforcesWX (oneSegment 6) 84 0 m ∧ ¬EnforcesWX (oneSegment 3) 84 0 m := by
  obtain ⟨m, hm⟩ : ∃ m, vmmCreateAddressSpace coldMachine = some (0, m) := ⟨_, rfl⟩
  have hfree : m.UserHalfFree := (vmmCreateAddressSpace_tidy coldMachine_coldStart.tidy hm).userHalf
  have hframes : 1 ≤ freeFrames m.pmm := by
    have hpmm : m.pmm = coldMachine.pmm := by
      cases hm
      rfl
    rw [hpmm]
    decide +kernel
  have hdata : OtherwiseValid (oneSegment 6) 84 m.pmm := oneSegment_valid hframes (by decide +kernel)
  have hcode : OtherwiseValid (oneSegment 3) 84 m.pmm := oneSegment_valid hframes (by decide +kernel)
  have hphnum6 : (oneSegment 6).header.phnum.toNat = 1 := by decide +kernel
  have hphnum3 : (oneSegment 3).header.phnum.toNat = 1 := by decide +kernel
  refine ⟨m, hm, fun h => ?_, fun h => ?_⟩
  · -- nothing is executable, so the image must be accepted
    have hnone : ¬(oneSegment 6).SomeLoad fun p => p.writable && p.executable := by
      rintro ⟨i, hi, -, hx⟩
      rw [hphnum6] at hi
      obtain rfl : i = 0 := by omega
      revert hx
      decide +kernel
    refine ((accepts_iff hfree _ _ _).mp (h.2 hdata hnone)).2 ⟨0, by omega, ?_, ?_⟩ <;> decide +kernel
  · have hnone : ¬(oneSegment 3).SomeLoad fun p => p.writable && p.readable := by
      rintro ⟨i, hi, -, hr⟩
      rw [hphnum3] at hi
      obtain rfl : i = 0 := by omega
      revert hr
      decide +kernel
    refine h.1 ((accepts_iff hfree _ _ _).mpr ⟨hcode, hnone⟩) ⟨0, by omega, ?_, ?_⟩ <;> decide +kernel

end Ceblar
