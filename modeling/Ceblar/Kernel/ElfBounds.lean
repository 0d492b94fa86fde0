import Ceblar.Kernel.ElfImage

/-! # The loader stays in its bounds

The loader with a guard in front of every read of the image and every store. The guards never fire.
-/

namespace Ceblar

open BitVec (ofNat toNat_add toNat_ofNat)

/-! ## The guarded loader -/

inductive Trap where
  | stop (e : ElfStop)
  /-- A read behind the end of the image. -/
  | pastImage (o : Word)
  /-- A store outside the user region or the pages mapped so far. -/
  | strayStore (a : Word)

structure Loading where
  vmm : Vmm
  mapped : List Nat

def peek (image : Image) (size o : Word) : Except Trap Byte :=
  if o < size then .ok (image o.toNat) else .error (.pastImage o)

def peekHalf (image : Image) (size o : Word) : Except Trap Word := do
  let b0 ← peek image size o
  let b1 ← peek image size (o + 1)
  pure (le32 b0 b1 0 0)

def peekWord (image : Image) (size o : Word) : Except Trap Word := do
  let b0 ← peek image size o
  let b1 ← peek image size (o + 1)
  let b2 ← peek image size (o + 2)
  let b3 ← peek image size (o + 3)
  pure (le32 b0 b1 b2 b3)

def peekHeader (image : Image) (size : Word) : Except Trap ElfHeader := do
  let i0 ← peek image size 0
  let i1 ← peek image size 1
  let i2 ← peek image size 2
  let i3 ← peek image size 3
  let i4 ← peek image size 4
  let machine ← peekHalf image size 18
  let entry ← peekWord image size 24
  let phoff ← peekWord image size 28
  let phentsize ← peekHalf image size 42
  let phnum ← peekHalf image size 44
  pure { ident := fun k => ([i0, i1, i2, i3, i4] :
    List Byte).getD k 0, machine, entry, phoff, phentsize, phnum }

def peekProgram (image : Image) (size o : Word) : Except Trap ElfProgram := do
  let type ← peekWord image size o
  let offset ← peekWord image size (o + 4)
  let vaddr ← peekWord image size (o + 8)
  let filesz ← peekWord image size (o + 16)
  let memsz ← peekWord image size (o + 20)
  let flags ← peekWord image size (o + 24)
  pure { type, offset, vaddr, filesz, memsz, flags }

def guardedStore (a : Word) (b : Byte) (s : Loading) : Except Trap Loading :=
  if 0x400000 ≤ a ∧ a < 0xc0000000 ∧ pageNumber a ∈ s.mapped then
    match s.vmm.kernelStore a b with
    | .error h => .error (.stop (.halt h))
    | .ok vmm => .ok { s with vmm }
  else .error (.strayStore a)

def guardedFill (a : Word) (n : Nat) (f : Nat → Except Trap Byte) (s : Loading) : Except Trap Loading :=
  forRangeE n (fun k s => f k >>= fun b => guardedStore (a + ofNat 32 k) b s) s

def guardedPage (space : Nat) (p : ElfProgram) (j : Nat) (s : Loading) : Except Trap Loading :=
  let va := p.first + ofNat 32 (j * 4096)
  if vmmGetPhysical s.vmm va ≠ 0 then .ok s
  else
    match pmmAllocPage s.vmm.pmm with
    | none => .error (.stop (.reject s.vmm))
    | some (page, pmm) =>
      match vmmMapUser { s.vmm with pmm } space va page (if p.flags &&& 2 ≠ 0 then pageWrite else 0) with
      | none => .error (.stop (.reject { s.vmm with pmm := pmmFreePage pmm page }))
      | some vmm => guardedFill va 4096 (fun _ => .ok 0) { vmm, mapped := pageNumber va :: s.mapped }

def guardedProgram (image : Image) (size : Word) (space : Nat) (p : ElfProgram) (s : Loading) :
    Except Trap Loading :=
  if !p.isLoad then .ok s
  else if p.flags &&& 6 = 6 then .error (.stop (.reject s.vmm))
  else if !p.inBounds size then .error (.stop (.reject s.vmm))
  else do
    let s ← forRangeE ((p.last.toNat - p.first.toNat) / 4096) (guardedPage space p) s
    let s ← guardedFill p.vaddr p.filesz.toNat (fun k => peek image size (p.offset + ofNat 32 k)) s
    guardedFill (p.vaddr + p.filesz) (p.memsz.toNat - p.filesz.toNat) (fun _ => .ok 0) s

def guardedPrograms (image : Image) (size : Word) (space : Nat) (h : ElfHeader) (m : Vmm) :
    Except Trap Loading :=
  forRangeE h.phnum.toNat
    (fun i s => peekProgram image size (h.phoff + ofNat 32 (i * 32)) >>= fun p =>
      guardedProgram image size space p s)
    ⟨vmmSwitchAddressSpace m (some space), []⟩

def elf32LoadGuarded (image : Image) (size : Word) (space : Nat) (m : Vmm) :
    Except Trap (Option Word × Vmm) :=
  if size < 52 then .ok (none, m)
  else do
    let h ← peekHeader image size
    if h.valid size = false then .ok (none, m)
    else
      match guardedPrograms image size space h m with
      | .error (.stop (.reject m)) => .ok (none, vmmSwitchAddressSpace m none)
      | .error e => .error e
      | .ok s => .ok (some h.entry, vmmSwitchAddressSpace s.vmm none)

section

variable {image : Image} {size o : Word} {n : Nat}

theorem peek_add (h : o.toNat + n < size.toNat) :
    peek image size (o + ofNat 32 n) = .ok (image (o.toNat + n)) := by
  have hto : (o + ofNat 32 n).toNat = o.toNat + n := by
    rw [toNat_add, toNat_ofNat]
    omega
  rw [peek, if_pos (by rw [BitVec.lt_def]; omega), hto]

theorem peek_self (h : o.toNat < size.toNat) : peek image size o = .ok (image o.toNat) := by
  rw [peek, if_pos (BitVec.lt_def.mpr h)]

theorem peekHalf_eq (h : o.toNat + 2 ≤ size.toNat) :
    peekHalf image size o = .ok (image.half o.toNat) := by
  unfold peekHalf
  rw [peek_self (by omega), show o + 1 = o + ofNat 32 1 from rfl, peek_add (by omega)]
  rfl

theorem peekWord_eq (h : o.toNat + 4 ≤ size.toNat) :
    peekWord image size o = .ok (image.word o.toNat) := by
  unfold peekWord
  rw [peek_self (by omega), show o + 1 = o + ofNat 32 1 from rfl, peek_add (by omega),
    show o + 2 = o + ofNat 32 2 from rfl, peek_add (by omega),
    show o + 3 = o + ofNat 32 3 from rfl, peek_add (by omega)]
  rfl

theorem peekWord_add (h : o.toNat + n + 4 ≤ size.toNat) :
    peekWord image size (o + ofNat 32 n) = .ok (image.word (o.toNat + n)) := by
  have hto : (o + ofNat 32 n).toNat = o.toNat + n := by
    rw [toNat_add, toNat_ofNat]
    omega
  rw [peekWord_eq (by omega), hto]

theorem peekHeader_eq (image : Image) (h : 52 ≤ size.toNat) : ∃ hd, peekHeader image size = .ok hd ∧
    hd.valid size = image.header.valid size ∧ hd.entry = image.header.entry ∧
    hd.phoff = image.header.phoff ∧
      hd.phnum = image.header.phnum := by
  unfold peekHeader
  rw [peek_self (by simp; omega), peek_self (by simp; omega), peek_self (by simp; omega),
    peek_self (by simp; omega),
    peek_self (by simp; omega), peekHalf_eq (by simp; omega), peekWord_eq (by simp; omega),
    peekWord_eq (by simp; omega), peekHalf_eq (by simp; omega), peekHalf_eq (by simp; omega)]
  exact ⟨_, rfl, rfl, rfl, rfl, rfl⟩

theorem peekProgram_eq (hv : image.header.valid size = true) (hn : n < image.header.phnum.toNat) :
    peekProgram image size (image.header.phoff + ofNat 32 (n * 32)) = .ok (image.program n) := by
  simp only [ElfHeader.valid, Bool.and_eq_true, decide_eq_true_eq] at hv
  obtain ⟨⟨-, hoff⟩, hnum⟩ := hv
  rw [BitVec.le_def] at hoff hnum
  rw [BitVec.toNat_udiv, BitVec.toNat_sub_of_le (BitVec.le_def.mpr hoff)] at hnum
  have h32 : (32 : Word).toNat = 32 := rfl
  rw [h32] at hnum
  have hsize := size.isLt
  have hto : (image.header.phoff + ofNat 32 (n * 32)).toNat = image.header.phoff.toNat + n * 32 := by
    rw [toNat_add, toNat_ofNat]
    omega
  unfold peekProgram
  rw [peekWord_eq (by omega), show (4 : Word) = ofNat 32 4 from rfl, peekWord_add (by omega),
    show (8 : Word) = ofNat 32 8 from rfl, peekWord_add (by omega),
    show (16 : Word) = ofNat 32 16 from rfl, peekWord_add (by omega),
    show (20 : Word) = ofNat 32 20 from rfl, peekWord_add (by omega),
    show (24 : Word) = ofNat 32 24 from rfl, peekWord_add (by omega), hto]
  rfl

end

/-! ## Stores -/

structure Guarded (space : Nat) (s : Loading) (m : Vmm) : Prop where
  same : s.vmm = m
  current : m.currentSpace = some space
  kernel : m.UserHalfFree
  there : ∀ a, pageNumber a ∈ s.mapped → ∃ pte, userPte (m.spaces space) a = some pte

abbrev Together {σ τ : Type} (R : σ → τ → Prop) : Except Trap σ → Except ElfStop τ → Prop :=
  Simulates (fun e e' => e = .stop e') R

section

variable {space : Nat} {s : Loading} {m : Vmm} {a : Word} {n : Nat} {image : Image} {size : Word}
    {p : ElfProgram}

theorem mapUser_mapped {m' : Vmm} {va page flags b : Word}
    (hmap : vmmMapUser m space va page flags = some m')
    (hb : pageNumber b = pageNumber va ∨ ∃ pte, userPte (m.spaces space) b = some pte) :
    ∃ pte, userPte (m'.spaces space) b = some pte := by
  unfold vmmMapUser at hmap
  obtain ⟨t, hslot, rfl⟩ := Option.map_eq_some_iff.mp hmap
  have hset := entrySet_mark m space t (tableIndex va)
      (pageBase page ||| (flags ||| pagePresent ||| pageUser))
  rcases hb with hva | ⟨pte, hpte⟩
  · obtain ⟨hslot', hindex⟩ := userSlot_page hva
    have hpte := hset.pte space t (tableIndex b)
    rw [if_pos ⟨rfl, rfl, hindex⟩] at hpte
    exact ⟨_, userPte_eq_some.mpr ⟨t, hslot'.trans hslot, hset.table, hpte, by simp, by simp⟩⟩
  · rcases hset.userPte ⟨by simp, by simp⟩ hpte with hnew | hold
    · exact ⟨_, hnew⟩
    · exact ⟨_, hold⟩

theorem guardedStore_together (h : Guarded space s m) (hlo : 0x400000 ≤ a.toNat)
    (hhi : a.toNat < 0xc0000000) (ha : pageNumber a ∈ s.mapped) (b : Byte) :
    Together (fun s' m' => Guarded space s' m' ∧ s'.mapped = s.mapped) (guardedStore a b s)
      ((m.kernelStore a b).mapError .halt) := by
  obtain ⟨pte, hpte⟩ := h.there a ha
  have hlo' : (0x400000 : Word) ≤ a := BitVec.le_def.mpr hlo
  have hhi' : a < (0xc0000000 : Word) := BitVec.lt_def.mpr hhi
  unfold guardedStore
  rw [if_pos ⟨hlo', hhi', ha⟩, h.same, kernelStore_eq h.current hpte b]
  exact .ok ⟨⟨rfl, h.current, h.kernel, h.there⟩, rfl⟩

theorem guardedFill_together {f : Nat → Byte} {f' : Nat → Except Trap Byte} (h : Guarded space s m)
    (hlo : 0x400000 ≤ a.toNat) (hhi : a.toNat + n ≤ 0xc0000000)
    (ha : ∀ b : Word, a.toNat ≤ b.toNat → b.toNat < a.toNat + n → pageNumber b ∈ s.mapped)
    (hf : ∀ k < n, f' k = .ok (f k)) :
    Together (fun s' m' => Guarded space s' m' ∧ s'.mapped = s.mapped) (guardedFill a n f' s)
      (fill a n f m) := by
  refine forRangeE_simulates (fun _ s' m' => Guarded space s' m' ∧ s'.mapped = s.mapped) ⟨h, rfl⟩ ?_
  rintro k hk s' m' ⟨h', hmapped⟩
  have hto : (a + ofNat 32 k).toNat = a.toNat + k := by
    rw [toNat_add, toNat_ofNat]
    omega
  rw [hf k hk, ← hmapped]
  exact guardedStore_together h' (by omega) (by omega)
    (by rw [hmapped]; exact ha _ (by omega) (by omega)) _

theorem inBounds_file (hp : p.inBounds size = true) : p.offset.toNat + p.filesz.toNat ≤ size.toNat := by
  simp only [ElfProgram.inBounds, Bool.and_eq_true, decide_eq_true_eq] at hp
  obtain ⟨⟨⟨⟨⟨-, hoff⟩, hfit⟩, -⟩, -⟩, -⟩ := hp
  rw [BitVec.le_def, BitVec.toNat_sub_of_le hoff] at hfit
  rw [BitVec.le_def] at hoff
  omega

theorem guardedPage_together {j : Nat} (h : Guarded space s m) (hp : p.inBounds size = true)
    (hj : j < (p.last.toNat - p.first.toNat) / 4096) :
    Together (fun s' m' => Guarded space s' m' ∧ s'.mapped = (p.first.toNat / 4096 + j) :: s.mapped)
      (guardedPage space p j s) (loadPage space p j m) := by
  obtain ⟨h1, h2, h3, h4⟩ := inBounds_spec hp
  obtain ⟨hfirst, hlast⟩ := first_last hp
  have hva : (p.first + ofNat 32 (j * 4096)).toNat = p.first.toNat + j * 4096 := by
    rw [toNat_add, toNat_ofNat]
    omega
  dsimp only [loadPage, guardedPage]
  rw [h.same]
  generalize p.first + ofNat 32 (j * 4096) = va at hva ⊢
  have hnum : pageNumber va = p.first.toNat / 4096 + j := by
    rw [pageNumber_eq]
    omega
  have hphys : ¬ vmmGetPhysical m va ≠ 0 :=
    not_not_intro (getPhysical_user h.kernel (by omega) (by omega))
  rw [if_neg hphys, if_neg hphys]
  cases halloc : pmmAllocPage m.pmm with
  | none => exact .error rfl
  | some r =>
    obtain ⟨page, pmm⟩ := r
    dsimp only
    cases hmap : vmmMapUser { m with pmm } space va page (if p.flags &&& 2 ≠ 0 then pageWrite else 0) with
    | none => exact .error rfl
    | some m1 =>
      dsimp only
      obtain ⟨-, -, hkernel, hcurrent⟩ := mapUser_frame hmap
      have hthere : ∀ b, pageNumber b ∈ pageNumber va :: s.mapped →
          ∃ pte, userPte (m1.spaces space) b = some pte :=
        fun b hb => mapUser_mapped hmap ((List.mem_cons.mp hb).imp_right (h.there b))
      have hguarded : Guarded space { vmm := m1, mapped := pageNumber va :: s.mapped } m1 := by
        refine ⟨rfl, hcurrent.trans h.current, ?_, hthere⟩
        unfold Vmm.UserHalfFree
        rw [hkernel]
        exact h.kernel
      rw [← hnum]
      refine guardedFill_together hguarded (by omega) (by omega) (fun b hb1 hb2 => ?_) fun _ _ => rfl
      rw [pageNumber_eq] at hnum
      rw [List.mem_cons, pageNumber_eq b, pageNumber_eq va]
      omega

theorem guardedPages_together (h : Guarded space s m) (hp : p.inBounds size = true) :
    Together (fun s' m' => Guarded space s' m' ∧ ∀ b : Word, p.covers b → pageNumber b ∈ s'.mapped)
      (forRangeE ((p.last.toNat - p.first.toNat) / 4096) (guardedPage space p) s)
      (forRangeE ((p.last.toNat - p.first.toNat) / 4096) (loadPage space p) m) := by
  obtain ⟨hfirst, hlast⟩ := first_last hp
  refine Simulates.mono (forRangeE_simulates
    (fun j s' m' => Guarded space s' m' ∧ ∀ i < j, p.first.toNat / 4096 + i ∈ s'.mapped) ⟨h, nofun⟩ ?_) ?_
  · rintro j hj s' m' ⟨h', hlist⟩
    refine (guardedPage_together h' hp hj).mono ?_
    rintro s1 m1 ⟨h1, hmapped⟩
    refine ⟨h1, fun i hi => ?_⟩
    rw [hmapped, List.mem_cons]
    rcases Nat.lt_succ_iff_lt_or_eq.mp hi with hlt | rfl
    · exact .inr (hlist i hlt)
    · exact .inl rfl
  · rintro s1 m1 ⟨h1, hlist⟩
    refine ⟨h1, fun b ⟨hb1, hb2⟩ => ?_⟩
    have hb := hlist (pageNumber b - p.first.toNat / 4096) (by rw [pageNumber_eq]; omega)
    rwa [Nat.add_sub_cancel' (by rw [pageNumber_eq]; omega)] at hb

theorem guardedProgram_together (h : Guarded space s m) :
    Together (Guarded space) (guardedProgram image size space p s)
      (loadProgram image size space p m) := by
  unfold guardedProgram loadProgram
  rw [h.same]
  split
  · exact .ok h
  split
  · exact .error rfl
  split
  · exact .error rfl
  next _ _ hp =>
    rw [Bool.not_eq_true, Bool.not_eq_false'] at hp
    obtain ⟨hfile, hlo, hhi, -⟩ := inBounds_spec hp
    have hsize := inBounds_file hp
    refine (guardedPages_together h hp).bind ?_
    rintro s1 m1 ⟨h1, hlist⟩
    have hholds : ∀ b : Word, p.holds b → pageNumber b ∈ s1.mapped :=
      fun b hb => hlist b (covers_of_holds hp hb)
    have hrest : (p.vaddr + p.filesz).toNat = p.vaddr.toNat + p.filesz.toNat := by
      rw [toNat_add]
      omega
    refine (guardedFill_together h1 hlo (by omega) (fun b hb1 hb2 => hholds b ⟨hb1, by omega⟩) ?_).bind ?_
    · intro k hk
      exact peek_add (by omega)
    · rintro s2 m2 ⟨h2, hmapped⟩
      refine (guardedFill_together h2 (by omega) (by omega)
        (fun b hb1 hb2 => ?_) fun _ _ => rfl).mono fun _ _ h3 => h3.1
      rw [hmapped]
      exact hholds b ⟨by omega, by omega⟩

theorem guardedPrograms_together (space : Nat) (hm : m.UserHalfFree)
    (hv : image.header.valid size = true) :
    Together (Guarded space) (guardedPrograms image size space image.header m)
      (loadPrograms image size space m) := by
  refine forRangeE_simulates (fun _ => Guarded space) ⟨rfl, rfl, hm, nofun⟩ ?_
  intro i hi s m h
  rw [peekProgram_eq hv hi]
  exact guardedProgram_together h

end

/-- No read behind the image and no stray store: the guarded loader does what the loader does. -/
theorem elf_load_in_bounds {m : Vmm} (hm : m.UserHalfFree) (image : Image) (size : Word) (space : Nat) :
    elf32LoadGuarded image size space m =
      (elf32Load image size space m).mapError fun h => .stop (.halt h) := by
  unfold elf32LoadGuarded elf32Load
  by_cases hsize : size < 52
  · rw [if_pos hsize, if_pos (.inl hsize)]
    rfl
  obtain ⟨hd, hpeek, hvalid, hentry, hphoff, hphnum⟩ := peekHeader_eq image
    (BitVec.le_def.mp (BitVec.not_lt.mp hsize))
  rw [if_neg hsize, hpeek]
  change (if hd.valid size = false then _ else _) = _
  rw [hvalid, hentry]
  by_cases hv : image.header.valid size = true
  · have hloop := guardedPrograms_together space hm hv
    have hsame : guardedPrograms image size space hd m =
        guardedPrograms image size space image.header m := by
      unfold guardedPrograms
      rw [hphoff, hphnum]
    rw [if_neg (by simp [hv]),
      if_neg (by simp only [hv, hsize, Bool.true_eq_false, or_self, not_false_eq_true]), hsame]
    generalize guardedPrograms image size space image.header m = x at hloop
    generalize loadPrograms image size space m = y at hloop
    cases hloop with
    | ok h =>
      dsimp only
      rw [h.same]
      rfl
    | @error e e' h =>
      subst h
      cases e' <;> rfl
  · rw [if_pos ((Bool.not_eq_true _).mp hv), if_pos (.inr ((Bool.not_eq_true _).mp hv))]
    rfl

theorem elf_load_in_bounds_two :
    ∃ m m', vmmCreateAddressSpace coldMachine = some (0, m) ∧ m.UserHalfFree ∧
    elf32LoadGuarded (twoSegments 0x400000 0x401000) 116 0 m = .ok (some 0x400000, m') := by
  obtain ⟨m, hm⟩ : ∃ m, vmmCreateAddressSpace coldMachine = some (0, m) := ⟨_, rfl⟩
  obtain ⟨m', hload⟩ := twoSegments_accepted 0x400000 0x401000 hm (by decide +kernel)
  have hfree : m.UserHalfFree := (vmmCreateAddressSpace_tidy coldMachine_coldStart.tidy hm).userHalf
  refine ⟨m, m', hm, hfree, ?_⟩
  rw [elf_load_in_bounds hfree, hload]
  rfl

end Ceblar
