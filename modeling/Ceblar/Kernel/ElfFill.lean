import Ceblar.Kernel.Elf
import Ceblar.Mm.Tidy

/-! # Filling a space

What the loader stores, header by header, as layers of paint over the user memory of the space.
-/

namespace Ceblar

open Function

def ElfProgram.holds (p : ElfProgram) (a : Word) : Prop :=
  p.vaddr.toNat ≤ a.toNat ∧ a.toNat < p.vaddr.toNat + p.memsz.toNat

def ElfProgram.covers (p : ElfProgram) (a : Word) : Prop :=
  p.first.toNat ≤ a.toNat ∧ a.toNat < p.last.toNat

instance (p : ElfProgram) (a : Word) : Decidable (p.holds a) := inferInstanceAs (Decidable (_ ∧ _))
instance (p : ElfProgram) (a : Word) : Decidable (p.covers a) := inferInstanceAs (Decidable (_ ∧ _))

def ElfProgram.byte (image : Image) (p : ElfProgram) (k : Nat) : Byte :=
  if k < p.filesz.toNat then image (p.offset.toNat + k) else 0

def paint (image : Image) (p : ElfProgram) (c : Word → Option Byte) (a : Word) : Option Byte :=
  if p.holds a then some (p.byte image (a.toNat - p.vaddr.toNat))
  else if p.covers a then some 0
  else c a

def painted (image : Image) (n : Nat) : Word → Option Byte :=
  forRange n (fun i c => if (image.program i).isLoad then paint image (image.program i) c else c)
    fun _ => none

/-! ## Stores in the space that is filled -/

structure Filling (space : Nat) (m : Vmm) : Prop where
  current : m.currentSpace = some space
  kernel : m.UserHalfFree
  /-- A table that is not used yet was cleared. -/
  blank : ∀ t j, (m.spaces space).tableUsed t = false → bit ((m.spaces space).userTables t j) 0 = false
  taken : ∀ a pte, userPte (m.spaces space) a = some pte → m.pmm.bitmap (pageNumber pte) = true
  apart : ∀ a b pte pte', userPte (m.spaces space) a = some pte → userPte (m.spaces space) b = some pte' →
    pageNumber pte = pageNumber pte' → pageNumber a = pageNumber b

section

variable {space : Nat} {m m' : Vmm} {a b pte : Word} {flags page : Word}

theorem userRead_isSome :
    (userRead m space a).isSome = true ↔ ∃ pte, userPte (m.spaces space) a = some pte := by
  unfold userRead
  rw [Option.isSome_map, Option.isSome_iff_exists]

theorem kernelStore_eq (hc : m.currentSpace = some space)
    (hpte : userPte (m.spaces space) a = some pte) (v : Byte) :
    m.kernelStore a v = .ok { m with
      phys := update m.phys (pageNumber pte) (update (m.phys (pageNumber pte)) (offset a) v) } := by
  obtain ⟨t, ht, hu, rfl, hp, -⟩ := userPte_eq_some.mp hpte
  have hactive : m.activeFrame a = some (pageNumber ((m.spaces space).userTables t (tableIndex a))) := by
    unfold Vmm.activeFrame
    rw [hc, ht]
    dsimp only
    rw [if_pos ⟨hu, (and_pagePresent _).mpr hp⟩]
    rfl
  unfold Vmm.kernelStore Vmm.touch
  rw [hactive]
  rfl

theorem eq_of_page_offset (hp : pageNumber a = pageNumber b) (ho : offset a = offset b) : a = b := by
  rw [pageNumber_eq, pageNumber_eq] at hp
  rw [offset_eq, offset_eq] at ho
  apply BitVec.eq_of_toNat_eq
  omega

theorem Filling.store (h : Filling space m) (ha : (userRead m space a).isSome = true) (v : Byte) :
    ∃ m', m.kernelStore a v = .ok m' ∧ Filling space m' ∧ m'.pmm = m.pmm ∧
      userRead m' space = update (userRead m space) a (some v) := by
  obtain ⟨pte, hpte⟩ := userRead_isSome.mp ha
  refine ⟨_, kernelStore_eq h.current hpte v, ⟨h.current, h.kernel, h.blank, h.taken, h.apart⟩, rfl, ?_⟩
  funext b
  unfold userRead
  dsimp only
  by_cases hba : b = a
  · subst hba
    simp [hpte]
  · rw [update_of_ne hba]
    cases hb : userPte (m.spaces space) b with
    | none => rfl
    | some pte' =>
      rw [Option.map_some, Option.map_some]
      by_cases hf : pageNumber pte' = pageNumber pte
      · have hoff : offset b ≠ offset a :=
          fun ho => hba (eq_of_page_offset (h.apart b a _ _ hb hpte hf) ho)
        rw [hf, update_self, update_of_ne hoff]
      · rw [update_of_ne hf]

theorem fill_spec {n : Nat} (h : Filling space m) (f : Nat → Byte) (hwrap : a.toNat + n ≤ 2 ^ 32)
    (hmapped : ∀ b : Word, a.toNat ≤ b.toNat → b.toNat < a.toNat + n →
      (userRead m space b).isSome = true) :
    ∃ m', fill a n f m = .ok m' ∧ Filling space m' ∧ m'.pmm = m.pmm ∧ ∀ b : Word, userRead m' space b =
      if a.toNat ≤ b.toNat ∧ b.toNat < a.toNat + n then some (f (b.toNat - a.toNat))
      else userRead m space b := by
  refine forRangeE_inv (fun k s => Filling space s ∧ s.pmm = m.pmm ∧ ∀ b : Word, userRead s space b =
    if a.toNat ≤ b.toNat ∧ b.toNat < a.toNat + k then some (f (b.toNat - a.toNat))
    else userRead m space b) n
    ⟨h, rfl, fun b => ?_⟩ ?_
  · rw [if_neg (by omega)]
  · rintro k hk s ⟨hs, hpmm, hread⟩
    have hto : (a + BitVec.ofNat 32 k).toNat = a.toNat + k := by
      rw [BitVec.toNat_add, BitVec.toNat_ofNat]
      omega
    have hsome : (userRead s space (a + BitVec.ofNat 32 k)).isSome = true := by
      rw [hread, if_neg (by omega)]
      exact hmapped _ (by omega) (by omega)
    obtain ⟨s', hstore, hs', hpmm', hread'⟩ := hs.store hsome (f k)
    refine ⟨s', by rw [hstore]; rfl, hs', hpmm'.trans hpmm, fun b => ?_⟩
    rw [hread']
    by_cases hb : b = a + BitVec.ofNat 32 k
    · subst hb
      rw [update_self, if_pos (by omega), hto, Nat.add_sub_cancel_left]
    · have hne : b.toNat ≠ a.toNat + k := fun he => hb (BitVec.eq_of_toNat_eq (he.trans hto.symm))
      rw [update_of_ne hb, hread]
      by_cases hin : a.toNat ≤ b.toNat ∧ b.toNat < a.toNat + k
      · rw [if_pos hin, if_pos (by omega)]
      · rw [if_neg hin, if_neg (by omega)]

theorem getPhysical_user (h : m.UserHalfFree) (hlo : 0x400000 ≤ a.toNat) (hhi : a.toNat < 0xc0000000) :
    vmmGetPhysical m a = 0 := by
  unfold vmmGetPhysical
  rw [h (dirIndex a) (by rw [dirIndex_eq]; omega) (by rw [dirIndex_eq]; omega)]

theorem userPte_mapUser
    (hblank : ∀ t j, (m.spaces space).tableUsed t = false →
      bit ((m.spaces space).userTables t j) 0 = false)
    (hmap : vmmMapUser m space a page flags = some m') (hflags : flags.toNat < 4096) :
    (∀ t j, (m'.spaces space).tableUsed t = false →
      bit ((m'.spaces space).userTables t j) 0 = false) ∧ ∃ e, pageNumber e = pageNumber page ∧
      ∀ b, userPte (m'.spaces space) b =
      if pageNumber b = pageNumber a then some e else userPte (m.spaces space) b := by
  unfold vmmMapUser at hmap
  obtain ⟨t, ht, rfl⟩ := Option.map_eq_some_iff.mp hmap
  have hentry : ∀ u l, (((m.markTable space t).setPte space t (tableIndex a)
      (pageBase page ||| (flags ||| pagePresent ||| pageUser))).spaces space).userTables u l =
      if u = t ∧ l = tableIndex a then pageBase page ||| (flags ||| pagePresent ||| pageUser)
      else (m.spaces space).userTables u l := by
    intro u l
    have := pte_setPte (m.markTable space t) space t (tableIndex a)
      (pageBase page ||| (flags ||| pagePresent ||| pageUser)) space u l
    rw [pte_markTable] at this
    simpa [Vmm.pte] using this
  have hused : ∀ u, (((m.markTable space t).setPte space t (tableIndex a)
      (pageBase page ||| (flags ||| pagePresent ||| pageUser))).spaces space).tableUsed u =
      (decide (u = t) || (m.spaces space).tableUsed u) := by
    intro u
    rw [setPte_tableUsed, markTable_tableUsed]
    simp
  refine ⟨fun u l hu => ?_, _, pageNumber_userEntry page flags hflags, fun b => ?_⟩
  · rw [hused, Bool.or_eq_false_iff, decide_eq_false_iff_not] at hu
    rw [hentry, if_neg fun hc => hu.1 hc.1]
    exact hblank u l hu.2
  by_cases hp : pageNumber b = pageNumber a
  · rw [if_pos hp]
    obtain ⟨hslot, hindex⟩ := userSlot_page hp
    refine userPte_eq_some.mpr ⟨t, hslot.trans ht, ?_, ?_, ?_, ?_⟩
    · rw [hused]
      simp
    · rw [hentry, if_pos ⟨rfl, hindex⟩]
    · simp
    · simp
  · rw [if_neg hp]
    unfold userPte
    cases hb : userSlot b with
    | none => rfl
    | some u =>
      dsimp only
      have hne : ¬(u = t ∧ tableIndex b = tableIndex a) := by
        rintro ⟨rfl, hi⟩
        exact hp (page_of_slot hb ht hi)
      rw [hentry, if_neg hne, hused]
      by_cases hut : u = t
      · subst hut
        -- an entry of a table that was not used is not present
        cases hold : (m.spaces space).tableUsed u with
        | true => simp
        | false => simp [hblank u (tableIndex b) hold]
      · simp [hut]

theorem mapUser_frame (hmap : vmmMapUser m space a page flags = some m') :
    m'.pmm = m.pmm ∧ m'.phys = m.phys ∧ m'.kernelTables = m.kernelTables ∧
    m'.currentSpace = m.currentSpace := by
  unfold vmmMapUser at hmap
  obtain ⟨t, -, rfl⟩ := Option.map_eq_some_iff.mp hmap
  exact ⟨rfl, rfl, rfl, rfl⟩

theorem Filling.map {pmm : Pmm} (h : Filling space m) (halloc : pmmAllocPage m.pmm = some (page, pmm))
    (hflags : flags.toNat < 4096) (hmap : vmmMapUser { m with pmm } space a page flags = some m') :
    Filling space m' ∧ (∀ b, pageNumber b = pageNumber a → (userRead m' space b).isSome = true) ∧
      ∀ b, pageNumber b ≠ pageNumber a → userRead m' space b = userRead m space b := by
  obtain ⟨hblank, e, he, hpte⟩ := userPte_mapUser (m := { m with pmm }) h.blank hmap hflags
  obtain ⟨hpmm, hphys, hkernel, hcurrent⟩ := mapUser_frame hmap
  have hnew : pmm.bitmap (pageNumber page) = true := by
    obtain ⟨f, -, hf, -, rfl⟩ := pmmAllocPage_spec halloc
    rw [hf]
    simp
  have hfresh : ∀ b pte, userPte (m.spaces space) b = some pte → pageNumber page ≠ pageNumber pte :=
    fun b pte hb => (pmmAllocPage_other halloc (h.taken b pte hb)).1
  refine ⟨⟨hcurrent.trans h.current, ?_, hblank, ?_, ?_⟩, ?_, ?_⟩
  · unfold Vmm.UserHalfFree
    rw [hkernel]
    exact h.kernel
  · intro b pte hb
    rw [hpte] at hb
    rw [hpmm]
    split at hb
    · cases hb
      rw [he]
      exact hnew
    · exact (pmmAllocPage_other halloc (h.taken b pte hb)).2.1
  · intro b c pte pte' hb hc hframe
    rw [hpte] at hb hc
    split at hb
    · rename_i hpb
      cases hb
      split at hc
      · rename_i hpc
        rw [hpb, hpc]
      · exact absurd (he.symm.trans hframe) (hfresh c pte' hc)
    · split at hc
      · cases hc
        exact absurd (hframe.trans he).symm (hfresh b pte hb)
      · exact h.apart b c pte pte' hb hc hframe
  · intro b hb
    refine userRead_isSome.mpr ⟨e, ?_⟩
    rw [hpte, if_pos hb]
  · intro b hb
    unfold userRead
    rw [hpte, if_neg hb, hphys]

/-! ## A segment -/

variable {image : Image} {size : Word} {p : ElfProgram}

theorem inBounds_spec (h : p.inBounds size = true) :
    p.filesz.toNat ≤ p.memsz.toNat ∧ 0x400000 ≤ p.vaddr.toNat ∧
    p.vaddr.toNat + p.memsz.toNat < 0xc0000000 ∧
      (p.vaddr + p.memsz).toNat = p.vaddr.toNat + p.memsz.toNat := by
  simp only [ElfProgram.inBounds, Bool.and_eq_true, decide_eq_true_eq, BitVec.le_def, BitVec.lt_def] at h
  obtain ⟨⟨⟨⟨⟨h1, -⟩, -⟩, h4⟩, h5⟩, h6⟩ := h
  have hsum : (p.vaddr + p.memsz).toNat = (p.vaddr.toNat + p.memsz.toNat) % 2 ^ 32 := BitVec.toNat_add _ _
  have hb1 := p.vaddr.isLt
  have hb2 := p.memsz.isLt
  have e1 : (0x400000 : Word).toNat = 0x400000 := rfl
  have e2 : (0xc0000000 : Word).toNat = 0xc0000000 := rfl
  omega

theorem first_last (h : p.inBounds size = true) :
    p.first.toNat = p.vaddr.toNat / 4096 * 4096 ∧
      p.last.toNat = (p.vaddr.toNat + p.memsz.toNat + 4095) / 4096 * 4096 := by
  obtain ⟨-, h2, h3, h4⟩ := inBounds_spec h
  constructor
  · rw [ElfProgram.first, toNat_pageBase, pageNumber_eq]
  · rw [ElfProgram.last, toNat_pageBase, pageNumber_eq, BitVec.toNat_add, h4]
    have e : (4095 : Word).toNat = 4095 := rfl
    rw [e]
    omega

theorem loadPage_spec {j : Nat} (h : Filling space m) (hp : p.inBounds size = true)
    (hj : j < (p.last.toNat - p.first.toNat) / 4096) :
    (∃ m1, loadPage space p j m = .error (.reject m1) ∧
      (pmmAllocPage m.pmm = none ∨ 0x2400000 ≤ p.first.toNat + j * 4096)) ∨
    ∃ m' page, loadPage space p j m = .ok m' ∧ pmmAllocPage m.pmm = some (page, m'.pmm) ∧
      Filling space m' ∧ ∀ b : Word, userRead m' space b =
        if p.first.toNat + j * 4096 ≤ b.toNat ∧ b.toNat < p.first.toNat + (j + 1) * 4096 then some 0
        else userRead m space b := by
  obtain ⟨h1, h2, h3, h4⟩ := inBounds_spec hp
  obtain ⟨hfirst, hlast⟩ := first_last hp
  have hva : (p.first + BitVec.ofNat 32 (j * 4096)).toNat = p.first.toNat + j * 4096 := by
    rw [BitVec.toNat_add, BitVec.toNat_ofNat]
    omega
  dsimp only [loadPage]
  generalize p.first + BitVec.ofNat 32 (j * 4096) = va at hva ⊢
  rw [if_neg (by rw [getPhysical_user h.kernel (by omega) (by omega)]; simp)]
  cases halloc : pmmAllocPage m.pmm with
  | none => exact .inl ⟨_, rfl, .inl rfl⟩
  | some r =>
    obtain ⟨page, pmm⟩ := r
    dsimp only
    cases hmap : vmmMapUser { m with pmm } space va page (if p.flags &&& 2 ≠ 0 then pageWrite else 0) with
    | none =>
      refine .inl ⟨_, rfl, .inr ?_⟩
      -- only an address beyond the eight tables is refused
      unfold vmmMapUser at hmap
      rw [Option.map_eq_none_iff] at hmap
      by_contra hlt
      have hslot : userSlot va = some (va.toNat / 4194304 - 1) :=
        (userSlot_eq_some _ _).mpr ⟨by omega, by omega, rfl⟩
      rw [hmap] at hslot
      cases hslot
    | some m1 =>
      have hflags : (if p.flags &&& 2 ≠ 0 then pageWrite else 0 : Word).toNat < 4096 := by
        split <;> decide
      obtain ⟨h1, hin, hout⟩ := h.map halloc hflags hmap
      have hpage : ∀ b : Word, pageNumber b = pageNumber va ↔ va.toNat ≤ b.toNat ∧
          b.toNat < va.toNat + 4096 := by
        intro b
        rw [pageNumber_eq, pageNumber_eq]
        omega
      obtain ⟨m2, hfill, h2, hpmm, hread⟩ := fill_spec h1 (fun _ => 0) (a := va) (n := 4096) (by omega)
        fun b hlo hhi => hin b ((hpage b).mpr ⟨hlo, hhi⟩)
      refine .inr ⟨m2, page, hfill, ?_, h2, fun b => ?_⟩
      · rw [hpmm, (mapUser_frame hmap).1]
      · rw [hread]
        by_cases hb : va.toNat ≤ b.toNat ∧ b.toNat < va.toNat + 4096
        · rw [if_pos hb, if_pos (by omega)]
        · rw [if_neg hb, if_neg (by omega)]
          exact hout b fun he => hb ((hpage b).mp he)

theorem loadPages_spec (h : Filling space m) (hp : p.inBounds size = true)
    (hload : forRangeE ((p.last.toNat - p.first.toNat) / 4096) (loadPage space p) m = .ok m') :
    Filling space m' ∧
    ∀ b : Word, userRead m' space b = if p.covers b then some 0 else userRead m space b := by
  obtain ⟨hfirst, hlast⟩ := first_last hp
  have hend : Filling space m' ∧ ∀ b : Word, userRead m' space b =
      if p.first.toNat ≤ b.toNat ∧
      b.toNat < p.first.toNat + (p.last.toNat - p.first.toNat) / 4096 * 4096 then some 0
      else userRead m space b := by
    refine forRangeE_ok (fun j s => Filling space s ∧ ∀ b : Word, userRead s space b =
      if p.first.toNat ≤ b.toNat ∧ b.toNat < p.first.toNat + j * 4096 then some 0 else userRead m space b)
      ⟨h, fun b => ?_⟩ ?_ hload
    · rw [if_neg (by omega)]
    · rintro j hj s s' ⟨hs, hread⟩ hstep
      obtain ⟨s1, hreject, -⟩ | ⟨s1, page, hok, -, hs', hread'⟩ := loadPage_spec hs hp hj
      · rw [hstep] at hreject
        cases hreject
      rw [hstep] at hok
      cases hok
      refine ⟨hs', fun b => ?_⟩
      rw [hread', hread]
      obtain ⟨e, he⟩ : ∃ e, e = j * 4096 := ⟨_, rfl⟩
      rw [show (j + 1) * 4096 = e + 4096 by omega, ← he]
      by_cases hb : p.first.toNat + e ≤ b.toNat ∧ b.toNat < p.first.toNat + (e + 4096)
      · rw [if_pos hb, if_pos (by omega)]
      · rw [if_neg hb]
        by_cases hb' : p.first.toNat ≤ b.toNat ∧ b.toNat < p.first.toNat + e
        · rw [if_pos hb', if_pos (by omega)]
        · rw [if_neg hb', if_neg (by omega)]
  refine ⟨hend.1, fun b => ?_⟩
  rw [hend.2]
  have hcov : p.covers b ↔ p.first.toNat ≤ b.toNat ∧
      b.toNat < p.first.toNat + (p.last.toNat - p.first.toNat) / 4096 * 4096 := by
    unfold ElfProgram.covers
    omega
  by_cases hb : p.covers b
  · rw [if_pos hb, if_pos (hcov.mp hb)]
  · rw [if_neg hb, if_neg (mt hcov.mpr hb)]

theorem covers_of_holds (hp : p.inBounds size = true) (h : p.holds a) : p.covers a := by
  obtain ⟨hfirst, hlast⟩ := first_last hp
  obtain ⟨hlo, hhi⟩ := h
  unfold ElfProgram.covers
  omega

theorem loadProgram_inBounds (hl : p.isLoad = true) (hload : loadProgram image size space p m = .ok m') :
    p.inBounds size = true := by
  unfold loadProgram at hload
  rw [if_neg (by simp [hl])] at hload
  split at hload
  · cases hload
  · split at hload
    · cases hload
    · rename_i hb
      simpa using hb

theorem fillSegment_spec {c : Word → Option Byte} (image : Image) (h : Filling space m)
    (hp : p.inBounds size = true)
    (hread : ∀ b, userRead m space b = if p.covers b then some 0 else c b) :
    ∃ m1 m2, fill p.vaddr p.filesz.toNat (fun k => image (p.offset.toNat + k)) m = .ok m1 ∧
      fill (p.vaddr + p.filesz) (p.memsz.toNat - p.filesz.toNat) (fun _ => 0) m1 = .ok m2 ∧
      Filling space m2 ∧ m2.pmm = m.pmm ∧ userRead m2 space = paint image p c := by
  obtain ⟨hfile, hlo, hhi, hsum⟩ := inBounds_spec hp
  have hrest : (p.vaddr + p.filesz).toNat = p.vaddr.toNat + p.filesz.toNat := by
    rw [BitVec.toNat_add]
    omega
  have hmapped : ∀ b : Word, p.holds b → (userRead m space b).isSome = true := by
    intro b hb
    rw [hread, if_pos (covers_of_holds hp hb)]
    rfl
  obtain ⟨m1, hcopy, h1, hpmm1, hread1⟩ := fill_spec (a := p.vaddr) (n := p.filesz.toNat) h
    (fun k => image (p.offset.toNat + k)) (by omega) fun b hb1 hb2 => hmapped b ⟨hb1, by omega⟩
  have hmapped1 : ∀ b : Word, p.holds b → (userRead m1 space b).isSome = true := by
    intro b hb
    rw [hread1]
    split
    · rfl
    · exact hmapped b hb
  obtain ⟨m2, hzero, h2, hpmm2, hread2⟩ :=
    fill_spec (a := p.vaddr + p.filesz) (n := p.memsz.toNat - p.filesz.toNat) h1
    (fun _ => 0) (by omega) fun b hb1 hb2 => hmapped1 b ⟨by omega, by omega⟩
  refine ⟨m1, m2, hcopy, hzero, h2, hpmm2.trans hpmm1, ?_⟩
  funext b
  rw [hread2, hread1, hread, hrest]
  unfold paint
  by_cases hb : p.holds b
  · rw [if_pos hb]
    unfold ElfProgram.byte
    obtain ⟨hb1, hb2⟩ := hb
    by_cases hk : b.toNat - p.vaddr.toNat < p.filesz.toNat
    · rw [if_neg (by omega), if_pos (by omega), if_pos hk]
    · rw [if_pos (by omega), if_neg hk]
  · have hb' := hb
    unfold ElfProgram.holds at hb'
    rw [if_neg (by omega), if_neg (by omega), if_neg hb]

theorem loadProgram_paints (h : Filling space m) (hl : p.isLoad = true)
    (hload : loadProgram image size space p m = .ok m') :
    Filling space m' ∧ userRead m' space = paint image p (userRead m space) := by
  have hp := loadProgram_inBounds hl hload
  unfold loadProgram at hload
  rw [if_neg (by simp [hl])] at hload
  split at hload
  · cases hload
  rw [if_neg (by simp [hp])] at hload
  obtain ⟨m1, hpages, hload⟩ := bind_eq_ok.mp hload
  obtain ⟨m2, hcopy, hzero⟩ := bind_eq_ok.mp hload
  obtain ⟨h1, hread1⟩ := loadPages_spec h hp hpages
  obtain ⟨m2', m3, hcopy', hzero', h3, -, hread3⟩ := fillSegment_spec image h1 hp hread1
  rw [hcopy] at hcopy'
  cases hcopy'
  rw [hzero] at hzero'
  cases hzero'
  exact ⟨h3, hread3⟩

theorem loadPrograms_painted {n : Nat} (h : Filling space m) (hnone : ∀ b, userRead m space b = none)
    (hload : forRangeE n (fun i => loadProgram image size space (image.program i)) m = .ok m') :
    userRead m' space = painted image n ∧ ∀ i < n, (image.program i).isLoad = true →
      (image.program i).inBounds size = true := by
  suffices hs : Filling space m' ∧ userRead m' space = painted image n ∧ ∀ i < n,
    (image.program i).isLoad = true →
      (image.program i).inBounds size = true from hs.2
  refine forRangeE_ok (fun n s => Filling space s ∧ userRead s space = painted image n ∧
    ∀ i < n, (image.program i).isLoad = true → (image.program i).inBounds size = true)
    ⟨h, funext hnone, fun i hi => absurd hi (by omega)⟩ ?_ hload
  rintro i - s s' ⟨hs, hread, hbounds⟩ hstep
  have hpaint : painted image (i + 1) =
      if (image.program i).isLoad then paint image (image.program i) (painted image i)
        else painted image i := rfl
  rw [hpaint]
  by_cases hl : (image.program i).isLoad = true
  · obtain ⟨hs', hread'⟩ := loadProgram_paints hs hl hstep
    refine ⟨hs', by rw [hread', hread, if_pos hl], fun j hj hlj => ?_⟩
    rcases Nat.lt_succ_iff_lt_or_eq.mp hj with hj | rfl
    · exact hbounds j hj hlj
    · exact loadProgram_inBounds hl hstep
  · unfold loadProgram at hstep
    rw [if_pos (by simpa using hl)] at hstep
    cases hstep
    refine ⟨hs, by rw [hread, if_neg hl], fun j hj hlj => ?_⟩
    rcases Nat.lt_succ_iff_lt_or_eq.mp hj with hj | rfl
    · exact hbounds j hj hlj
    · exact absurd hlj hl

end

end Ceblar
