import Ceblar.Kernel.ElfFill

/-! # The memory image of a program

When the user memory of a fresh space is the image that the file describes, and which files are accepted.
-/

namespace Ceblar

section

variable {space : Nat} {m m' : Vmm} {a : Word} {image : Image} {size : Word}

theorem filling_fresh {m0 : Vmm} (hk : m0.UserHalfFree)
    (hfresh : vmmCreateAddressSpace m0 = some (space, m)) :
    Filling space (vmmSwitchAddressSpace m (some space)) ∧ ∀ b, userRead m space b = none := by
  unfold vmmCreateAddressSpace at hfresh
  obtain ⟨i, -, hi⟩ := Option.map_eq_some_iff.mp hfresh
  cases hi
  have hnone : ∀ (s : AddressSpace) (b : Word), s.tableUsed = (fun _ => false) → userPte s b = none := by
    intro s b hs
    unfold userPte
    cases userSlot b <;> simp [hs]
  refine ⟨⟨rfl, hk, ?_, ?_, ?_⟩, ?_⟩
  · intro t j _
    simp [vmmSwitchAddressSpace]
  · intro a pte ha
    rw [hnone _ _ (by simp [vmmSwitchAddressSpace])] at ha
    cases ha
  · intro a b pte pte' ha
    rw [hnone _ _ (by simp [vmmSwitchAddressSpace])] at ha
    cases ha
  · intro b
    unfold userRead
    rw [hnone _ _ (by simp)]
    rfl

theorem elf32Load_painted {m0 : Vmm} {entry : Word} (hk : m0.UserHalfFree)
    (hfresh : vmmCreateAddressSpace m0 = some (space, m))
    (hload : elf32Load image size space m = .ok (some entry, m')) :
    userRead m' space = painted image image.header.phnum.toNat ∧
      ∀ i < image.header.phnum.toNat, (image.program i).isLoad = true →
      (image.program i).inBounds size = true := by
  obtain ⟨hfill, hnone⟩ := filling_fresh hk hfresh
  unfold elf32Load at hload
  split at hload
  · cases hload
  · split at hload
    · cases hload
    · cases hload
    · rename_i m1 hm1
      cases hload
      have hpainted : userRead m1 space = painted image image.header.phnum.toNat ∧ _ :=
        loadPrograms_painted hfill hnone hm1
      exact hpainted

/-- The ranges of two `PT_LOAD` headers have no address in common. -/
def Image.Disjoint (image : Image) : Prop :=
  ∀ i j, i < image.header.phnum.toNat → j < image.header.phnum.toNat → i ≠ j →
    (image.program i).isLoad = true →
    (image.program j).isLoad = true → ∀ a, (image.program i).holds a → ¬(image.program j).holds a

def Wiped (image : Image) (i n : Nat) (a : Word) : Prop :=
  ∃ j, i < j ∧ j < n ∧ (image.program j).isLoad = true ∧ (image.program j).covers a

theorem painted_eq {i n : Nat} (hd : image.Disjoint) (hn : n ≤ image.header.phnum.toNat) (hi : i < n)
    (hl : (image.program i).isLoad = true) (ha : (image.program i).holds a) :
    (Wiped image i n a → painted image n a = some 0) ∧
      (¬Wiped image i n a →
        painted image n a =
          some ((image.program i).byte image (a.toNat - (image.program i).vaddr.toNat))) := by
  induction n, hi using Nat.le_induction with
  | base =>
    have hpaint : painted image (i + 1) a = paint image (image.program i) (painted image i) a := by
      unfold painted
      rw [forRange, if_pos hl]
    refine ⟨fun ⟨j, h1, h2, _⟩ => absurd h1 (by omega), fun _ => ?_⟩
    rw [hpaint, paint, if_pos ha]
  | succ n hin ih =>
    obtain ⟨ihw, ihk⟩ := ih (by omega)
    have hpaint : painted image (n + 1) =
        if (image.program n).isLoad then paint image (image.program n) (painted image n)
          else painted image n := rfl
    rw [hpaint]
    by_cases hclear : (image.program n).isLoad = true ∧ (image.program n).covers a
    · obtain ⟨hln, hc⟩ := hclear
      rw [if_pos hln, paint, if_neg (hd i n (by omega) (by omega) (by omega) hl hln a ha), if_pos hc]
      exact ⟨fun _ => rfl, fun hk => absurd ⟨n, by omega, by omega, hln, hc⟩ hk⟩
    · have hwiped : Wiped image i (n + 1) a ↔ Wiped image i n a := by
        constructor
        · rintro ⟨j, h1, h2, h3⟩
          refine ⟨j, h1, ?_, h3⟩
          by_contra hjn
          obtain rfl : j = n := by omega
          exact hclear h3
        · rintro ⟨j, h1, h2, h3⟩
          exact ⟨j, h1, by omega, h3⟩
      have hsame : (if (image.program n).isLoad then paint image (image.program n) (painted image n)
          else painted image n) a = painted image n a := by
        by_cases hln : (image.program n).isLoad = true
        · rw [if_pos hln, paint, if_neg (hd i n (by omega) (by omega) (by omega) hl hln a ha),
            if_neg fun hc => hclear ⟨hln, hc⟩]
        · rw [if_neg hln]
      rw [hsame, hwiped]
      exact ⟨ihw, ihk⟩

end

/-- User memory is what the `PT_LOAD` headers describe. -/
def HoldsImage (image : Image) (m : Vmm) (space : Nat) : Prop :=
  ∀ i < image.header.phnum.toNat, (image.program i).isLoad = true →
    let p := image.program i
    (∀ k < p.filesz.toNat,
      userRead m space (p.vaddr + BitVec.ofNat 32 k) = some (image (p.offset.toNat + k))) ∧
      ∀ k, p.filesz.toNat ≤ k → k < p.memsz.toNat →
      userRead m space (p.vaddr + BitVec.ofNat 32 k) = some 0

/-- No byte of the file other than 0 lies on a page of a later segment. -/
def NoneWiped (image : Image) : Prop :=
  ∀ i j, i < j → j < image.header.phnum.toNat → (image.program i).isLoad = true →
    (image.program j).isLoad = true → ∀ k < (image.program i).filesz.toNat,
      (image.program j).covers ((image.program i).vaddr + BitVec.ofNat 32 k) →
        image ((image.program i).offset.toNat + k) = 0

theorem elf_image_iff (m0 m m' : Vmm) (hk : m0.UserHalfFree) (space : Nat)
    (hfresh : vmmCreateAddressSpace m0 = some (space, m)) (image : Image) (size entry : Word)
    (hload : elf32Load image size space m = .ok (some entry, m')) (hd : image.Disjoint) :
    HoldsImage image m' space ↔ NoneWiped image := by
  obtain ⟨hread, hbounds⟩ := elf32Load_painted hk hfresh hload
  -- the address of byte `k` of a segment
  have hto : ∀ i < image.header.phnum.toNat, (image.program i).isLoad = true →
      ∀ k < (image.program i).memsz.toNat,
      ((image.program i).vaddr + BitVec.ofNat 32 k).toNat = (image.program i).vaddr.toNat + k := by
    intro i hi hl k hk
    obtain ⟨-, -, h3, -⟩ := inBounds_spec (hbounds i hi hl)
    rw [BitVec.toNat_add, BitVec.toNat_ofNat]
    omega
  have hbyte : ∀ i < image.header.phnum.toNat, (image.program i).isLoad = true →
      ∀ k < (image.program i).memsz.toNat,
      (Wiped image i image.header.phnum.toNat ((image.program i).vaddr + BitVec.ofNat 32 k) →
        userRead m' space ((image.program i).vaddr + BitVec.ofNat 32 k) = some 0) ∧
      (¬Wiped image i image.header.phnum.toNat ((image.program i).vaddr + BitVec.ofNat 32 k) →
        userRead m' space ((image.program i).vaddr + BitVec.ofNat 32 k) =
          some ((image.program i).byte image k)) := by
    intro i hi hl k hk
    have hsum := hto i hi hl k hk
    have hholds : (image.program i).holds ((image.program i).vaddr + BitVec.ofNat 32 k) :=
      ⟨by omega, by omega⟩
    have hpainted := painted_eq hd (Nat.le_refl _) hi hl hholds
    rwa [hsum, Nat.add_sub_cancel_left, ← hread] at hpainted
  constructor
  · intro h i j hij hj hli hlj k hk hc
    have hi : i < image.header.phnum.toNat := by omega
    obtain ⟨hfile, -, -, -⟩ := inBounds_spec (hbounds i hi hli)
    have hzero := (hbyte i hi hli k (by omega)).1 ⟨j, hij, hj, hlj, hc⟩
    rw [(h i hi hli).1 k hk] at hzero
    exact Option.some.inj hzero
  · intro h i hi hl
    obtain ⟨hfile, -, -, -⟩ := inBounds_spec (hbounds i hi hl)
    refine ⟨fun k hk => ?_, fun k hk hk' => ?_⟩
    · obtain ⟨hwiped, hkept⟩ := hbyte i hi hl k (by omega)
      by_cases hw : Wiped image i image.header.phnum.toNat ((image.program i).vaddr + BitVec.ofNat 32 k)
      · obtain ⟨j, hij, hj, hlj, hc⟩ := hw
        rw [hwiped ⟨j, hij, hj, hlj, hc⟩, h i j hij hj hl hlj k hk hc]
      · rw [hkept hw, ElfProgram.byte, if_pos hk]
    · obtain ⟨hwiped, hkept⟩ := hbyte i hi hl k hk'
      by_cases hw : Wiped image i image.header.phnum.toNat ((image.program i).vaddr + BitVec.ofNat 32 k)
      · exact hwiped hw
      · rw [hkept hw, ElfProgram.byte, if_neg (by omega)]

/-! ## Images that are accepted -/

def takeFrames : Nat → Pmm → Option Pmm
  | 0, p => some p
  | n + 1, p => (takeFrames n p).bind fun p => (pmmAllocPage p).map Prod.snd

def ElfProgram.pages (p : ElfProgram) : Nat := (p.last.toNat - p.first.toNat) / 4096

def Image.pages (image : Image) (n : Nat) : Nat :=
  forRange n (fun i c => if (image.program i).isLoad then c + (image.program i).pages else c) 0

/-- The tests on a `PT_LOAD` header, and its pages lie in the eight tables. -/
def ElfProgram.loadable (p : ElfProgram) (size : Word) : Bool :=
  decide (p.flags &&& 6 ≠ 6) && p.inBounds size && decide (p.last.toNat ≤ 0x2400000)

section

variable {space : Nat} {m : Vmm} {image : Image} {size : Word} {p : ElfProgram}

theorem takeFrames_le {n k : Nat} {q : Pmm} (hk : k ≤ n) (h : (takeFrames n q).isSome = true) :
    (takeFrames k q).isSome = true := by
  induction n, hk using Nat.le_induction with
  | base => exact h
  | succ n hkn ih =>
    refine ih ?_
    rw [takeFrames, Option.isSome_bind] at h
    cases hn : takeFrames n q with
    | none => simp [hn] at h
    | some r => rfl

theorem takeFrames_alloc {n : Nat} {q r : Pmm} (hn : takeFrames n q = some r)
    (h : (takeFrames (n + 1) q).isSome = true) : ∃ page r', pmmAllocPage r = some (page, r') ∧
      takeFrames (n + 1) q = some r' := by
  rw [takeFrames, hn, Option.bind_some] at h ⊢
  cases ha : pmmAllocPage r with
  | none => simp [ha] at h
  | some x => exact ⟨x.1, x.2, rfl, rfl⟩

theorem loadProgram_ok {n : Nat} {q : Pmm} (h : Filling space m) (hl : p.isLoad = true)
    (hp : p.loadable size = true) (hq : takeFrames n q = some m.pmm)
    (hfree : (takeFrames (n + p.pages) q).isSome = true) :
    ∃ m', loadProgram image size space p m = .ok m' ∧ Filling space m' ∧
    takeFrames (n + p.pages) q = some m'.pmm := by
  simp only [ElfProgram.loadable, Bool.and_eq_true, decide_eq_true_eq] at hp
  obtain ⟨⟨hwx, hbounds⟩, hlast⟩ := hp
  obtain ⟨hfirst, hlast'⟩ := first_last hbounds
  obtain ⟨hfile, hlo, hhi, hsum⟩ := inBounds_spec hbounds
  obtain ⟨m1, hpages, h1, hq1⟩ : ∃ m1, forRangeE p.pages (loadPage space p) m = .ok m1 ∧
    Filling space m1 ∧
      takeFrames (n + p.pages) q = some m1.pmm := by
    refine forRangeE_inv (fun j s => Filling space s ∧ takeFrames (n + j) q = some s.pmm) p.pages
      ⟨h, hq⟩ ?_
    rintro j hj s ⟨hs, hqs⟩
    obtain ⟨page, r, halloc, hr⟩ := takeFrames_alloc hqs (takeFrames_le (by omega) hfree)
    obtain ⟨s1, -, hbad⟩ | ⟨s', page', hok, halloc', hs', -⟩ := loadPage_spec hs hbounds hj
    · rcases hbad with hnone | hfar
      · rw [halloc] at hnone
        cases hnone
      · unfold ElfProgram.pages at hj
        omega
    · rw [halloc] at halloc'
      cases halloc'
      exact ⟨s', hok, hs', hr⟩
  obtain ⟨m2, m3, hcopy, hzero, h3, hpmm, -⟩ :=
    fillSegment_spec image h1 hbounds (loadPages_spec h hbounds hpages).2
  refine ⟨m3, ?_, h3, by rw [hpmm]; exact hq1⟩
  unfold loadProgram
  rw [if_neg (by simp [hl]), if_neg hwx, if_neg (by simp [hbounds])]
  exact bind_eq_ok.mpr ⟨m1, hpages, bind_eq_ok.mpr ⟨m2, hcopy, hzero⟩⟩

theorem elf32Load_accepts {m0 : Vmm} (hk : m0.UserHalfFree)
    (hfresh : vmmCreateAddressSpace m0 = some (space, m)) (hsize : 52 ≤ size)
    (hvalid : image.header.valid size = true)
    (hloadable : ∀ i < image.header.phnum.toNat, (image.program i).isLoad = true →
      (image.program i).loadable size = true)
    (hfree : (takeFrames (image.pages image.header.phnum.toNat) m.pmm).isSome = true) :
    ∃ m', elf32Load image size space m = .ok (some image.header.entry, m') := by
  obtain ⟨hfill, -⟩ := filling_fresh hk hfresh
  have hmono : ∀ {i n : Nat}, i ≤ n → image.pages i ≤ image.pages n := by
    intro i n hin
    induction n, hin using Nat.le_induction with
    | base => exact Nat.le_refl _
    | succ n _ ih =>
      have hstep : image.pages (n + 1) =
          if (image.program n).isLoad then image.pages n + (image.program n).pages
            else image.pages n := rfl
      rw [hstep]
      split <;> omega
  obtain ⟨m1, hloop, -⟩ : ∃ m1, loadPrograms image size space m = .ok m1 ∧ Filling space m1 ∧
      takeFrames (image.pages image.header.phnum.toNat) m.pmm = some m1.pmm := by
    refine forRangeE_inv
      (fun i s => Filling space s ∧ takeFrames (image.pages i) m.pmm = some s.pmm) _ ⟨hfill, rfl⟩ ?_
    rintro i hi s ⟨hs, hq⟩
    have hstep : image.pages (i + 1) =
        if (image.program i).isLoad then image.pages i + (image.program i).pages else image.pages i := rfl
    rw [hstep]
    by_cases hl : (image.program i).isLoad = true
    · rw [if_pos hl] at hstep ⊢
      refine loadProgram_ok hs hl (hloadable i hi hl) hq (takeFrames_le ?_ hfree)
      rw [← hstep]
      exact hmono (by omega)
    · rw [if_neg hl]
      refine ⟨s, ?_, hs, hq⟩
      unfold loadProgram
      rw [if_pos (by simpa using hl)]
  refine ⟨vmmSwitchAddressSpace m1 none, ?_⟩
  unfold elf32Load
  rw [if_neg (by simp only [hvalid, Bool.true_eq_false, or_false, BitVec.not_lt]; exact hsize), hloop]

end

def twoSegments (vaddr0 vaddr1 : Word) : Image := fun o =>
  ([0x7f, 0x45, 0x4c, 0x46, 1, 0, 0, 0, 0, 0, 0, 0, 0, 0, 0, 0, 2, 0, 3, 0, 1, 0, 0, 0, 0, 0, 0x40,
    0, 52, 0, 0, 0, 0, 0, 0, 0, 0, 0, 0, 0, 52, 0, 32, 0, 2, 0, 0, 0, 0, 0, 0, 0,
    1, 0, 0, 0, 0, 0, 0, 0, byteOf vaddr0 0, byteOf vaddr0 1, byteOf vaddr0 2, byteOf vaddr0 3, 0,
    0, 0, 0, 1, 0, 0, 0, 1, 0, 0, 0, 4, 0, 0, 0, 0, 0, 0, 0,
    1, 0, 0, 0, 0, 0, 0, 0, byteOf vaddr1 0, byteOf vaddr1 1, byteOf vaddr1 2, byteOf vaddr1 3, 0,
    0, 0, 0, 1, 0, 0, 0, 1, 0, 0, 0, 4, 0, 0, 0, 0, 0, 0, 0] : List Byte).getD o 0

theorem twoSegments_accepted (vaddr0 vaddr1 : Word) {m : Vmm}
    (hm : vmmCreateAddressSpace coldMachine = some (0, m))
    (h : (twoSegments vaddr0 vaddr1).header.valid 116 = true ∧
      (twoSegments vaddr0 vaddr1).header.phnum = 2 ∧
      ((twoSegments vaddr0 vaddr1).program 0).loadable 116 = true ∧
      ((twoSegments vaddr0 vaddr1).program 1).loadable 116 = true ∧
      (twoSegments vaddr0 vaddr1).pages 2 ≤ 2) :
    ∃ m', elf32Load (twoSegments vaddr0 vaddr1) 116 0 m =
      .ok (some (twoSegments vaddr0 vaddr1).header.entry, m') := by
  obtain ⟨hvalid, hphnum, h0, h1, hpages⟩ := h
  have hfree : (takeFrames 2 m.pmm).isSome = true := by
    have hpmm : m.pmm = coldMachine.pmm := by
      cases hm
      rfl
    rw [hpmm]
    decide +kernel
  refine elf32Load_accepts (vmmInit_userHalfFree _) hm (by decide) hvalid ?_ ?_
  · rw [hphnum]
    intro i hi _
    have hi' : i < 2 := hi
    interval_cases i
    · exact h0
    · exact h1
  · rw [hphnum]
    exact takeFrames_le hpages hfree

theorem twoSegments_disjoint {image : Image} {n : Nat} (hn : 0 < n)
    (hphnum : image.header.phnum.toNat = 2)
    (hseg : ∀ i, i < 2 → (image.program i).vaddr.toNat = 0x400000 + i * n ∧
      (image.program i).memsz.toNat = 1) :
    image.Disjoint := by
  intro i j hi hj hij _ _ a ha hb
  rw [hphnum] at hi hj
  obtain ⟨hi1, hi2⟩ := hseg i hi
  obtain ⟨hj1, hj2⟩ := hseg j hj
  unfold ElfProgram.holds at ha hb
  interval_cases i <;> interval_cases j <;> omega

theorem elf_image_apart : ∃ m m', vmmCreateAddressSpace coldMachine = some (0, m) ∧
    elf32Load (twoSegments 0x400000 0x401000) 116 0 m = .ok (some 0x400000, m') ∧
    HoldsImage (twoSegments 0x400000 0x401000) m' 0 := by
  obtain ⟨m, hm⟩ : ∃ m, vmmCreateAddressSpace coldMachine = some (0, m) := ⟨_, rfl⟩
  obtain ⟨m', hload⟩ := twoSegments_accepted 0x400000 0x401000 hm (by decide +kernel)
  have hphnum : (twoSegments 0x400000 0x401000).header.phnum.toNat = 2 := by decide +kernel
  have hseg : ∀ i, i < 2 → ((twoSegments 0x400000 0x401000).program i).vaddr.toNat = 0x400000 + i * 4096 ∧
      ((twoSegments 0x400000 0x401000).program i).memsz.toNat = 1 := by decide +kernel
  refine ⟨m, m', hm, hload,
    (elf_image_iff coldMachine m m' (vmmInit_userHalfFree _) 0 hm _ 116 _ hload ?_).mpr ?_⟩
  · exact twoSegments_disjoint (by decide) hphnum hseg
  · intro i j hij hj _ _ k hk hc
    rw [hphnum] at hj
    obtain ⟨rfl, rfl⟩ : i = 0 ∧ j = 1 := by omega
    have hfile : ((twoSegments 0x400000 0x401000).program 0).filesz.toNat = 1 := by decide +kernel
    obtain rfl : k = 0 := by omega
    exact absurd hc (by decide +kernel)

/-- The second segment shares a page with the first and clears it. -/
theorem elf_image_wiped : ∃ m m', vmmCreateAddressSpace coldMachine = some (0, m) ∧
    elf32Load (twoSegments 0x400000 0x400800) 116 0 m = .ok (some 0x400000, m') ∧
    (twoSegments 0x400000 0x400800).Disjoint ∧ ¬HoldsImage (twoSegments 0x400000 0x400800) m' 0 := by
  obtain ⟨m, hm⟩ : ∃ m, vmmCreateAddressSpace coldMachine = some (0, m) := ⟨_, rfl⟩
  obtain ⟨m', hload⟩ := twoSegments_accepted 0x400000 0x400800 hm (by decide +kernel)
  have hphnum : (twoSegments 0x400000 0x400800).header.phnum.toNat = 2 := by decide +kernel
  have hseg : ∀ i, i < 2 → ((twoSegments 0x400000 0x400800).program i).vaddr.toNat = 0x400000 + i * 2048 ∧
      ((twoSegments 0x400000 0x400800).program i).memsz.toNat = 1 := by decide +kernel
  refine ⟨m, m', hm, hload, ?_, fun h => ?_⟩
  · exact twoSegments_disjoint (by decide) hphnum hseg
  · obtain ⟨hread, -⟩ := elf32Load_painted (vmmInit_userHalfFree _) hm hload
    have hbyte := (h 0 (by rw [hphnum]; omega) (by decide +kernel)).1 0 (by decide +kernel)
    rw [hread, hphnum] at hbyte
    revert hbyte
    decide +kernel

end Ceblar
