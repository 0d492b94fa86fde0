import Ceblar.Kernel.SpaceRun

/-! # Reading a path from user memory

`user_string` may fault pages in, and then the frames of the active space are not what they were.
-/

namespace Ceblar

/-! ## The frames of user spaces -/

def Vmm.held (m : Vmm) (sp : Nat) (v : Word) : Word :=
  if m.spaceUsed sp then vmmGetUserPhysical (m.spaces sp) (pageBase v) else 0

def Grows (m m' : Vmm) : Prop := ∀ sp v, m.held sp v ≠ 0 → m'.held sp v = m.held sp v

def GrewActive (m m' : Vmm) : Prop :=
  ∃ s v, m.currentSpace = some s ∧ (m.spaceUsed s = true → m.held s v = 0 ∧ m'.held s v ≠ 0)

section

variable {m m1 m' : Vmm} {s : Nat} {error address cr2 : Word}

theorem Grows.refl (m : Vmm) : Grows m m := fun _ _ _ => rfl

theorem Grows.trans (h1 : Grows m m1) (h2 : Grows m1 m') : Grows m m' := by
  intro sp v hv
  have he := h1 sp v hv
  rw [← he] at hv ⊢
  exact h2 sp v hv

theorem GrewActive.grows (h : GrewActive m m1) (hg : Grows m1 m') : GrewActive m m' := by
  obtain ⟨s, v, hc, hv⟩ := h
  refine ⟨s, v, hc, fun hu => ⟨(hv hu).1, ?_⟩⟩
  rw [hg s v (hv hu).2]
  exact (hv hu).2

def AddressSpace.frameAt (s : AddressSpace) (t j : Nat) : Word :=
  if s.tableUsed t = true ∧
    ¬(s.userTables t j &&& pagePresent = 0 ∨ s.userTables t j &&& pageUser = 0) then
    pageBase (s.userTables t j)
  else 0

theorem physical_page (s : AddressSpace) {v : Word} (hv : pageBase v = v) :
    vmmGetUserPhysical s v = ((userSlot v).map fun t => s.frameAt t (tableIndex v)).getD 0 := by
  have hoff : v &&& 0xfff = 0 := by
    rw [← hv, pageBase, BitVec.and_assoc]
    simp
  unfold vmmGetUserPhysical AddressSpace.frameAt
  cases userSlot v with
  | none => rfl
  | some t =>
    dsimp only [Option.map_some, Option.getD_some]
    by_cases htable : s.tableUsed t = true
    · by_cases hbits : s.userTables t (tableIndex v) &&& pagePresent = 0 ∨
        s.userTables t (tableIndex v) &&& pageUser = 0
      · rw [if_pos htable, if_pos hbits, if_neg fun h => h.2 hbits]
      · rw [if_pos htable, if_neg hbits, if_pos ⟨htable, hbits⟩, hoff]
        exact BitVec.or_zero
    · rw [if_neg htable, if_neg fun h => htable h.1]

theorem Demanded.frameAt_self {t : Nat} {page a : Word} {v : Vma} {p : Pmm}
    (h : Demanded m s t page v a p m') :
    (m'.spaces s).frameAt t (tableIndex page) ≠ 0 := by
  obtain ⟨f, hf, hnum, -, -⟩ := pmmAllocPage_spec h.alloc
  have hpos : 0 < f := ((firstFree_eq_some _ _).mp hf).1
  have htable : (m'.spaces s).tableUsed t = true := by
    rw [h.spaces]
    simp [Vmm.setPte, Vmm.markTable, Vmm.setSpace]
  have hbits :
      ¬(m'.pte s t (tableIndex page) &&& pagePresent = 0 ∨
        m'.pte s t (tableIndex page) &&& pageUser = 0) := by
    rw [h.pte, not_or]
    refine ⟨(and_pagePresent _).mpr ?_, (and_pageUser _).mpr ?_⟩
    · simp [bit_or, show bit pagePresent 0 = true by decide]
    · simp [bit_or, show bit pageUser 2 = true by decide]
  unfold AddressSpace.frameAt
  rw [if_pos ⟨htable, hbits⟩, Ne, pageBase_eq_zero]
  have hframe := h.frame
  rw [hnum, Vmm.pte] at hframe
  have : f ≤ f ||| pageNumber v.flags := Nat.left_le_or
  omega

theorem Demanded.frameAt_other {t u j : Nat} {page a : Word} {v : Vma} {p : Pmm}
    (h : Demanded m s t page v a p m') (hne : ¬(u = t ∧ j = tableIndex page))
    (hv : (m.spaces s).frameAt u j ≠ 0) :
    (m'.spaces s).frameAt u j = (m.spaces s).frameAt u j := by
  have hused : (m.spaces s).tableUsed u = true := by
    unfold AddressSpace.frameAt at hv
    split at hv
    · rename_i hb
      exact hb.1
    · exact absurd rfl hv
  have hused' : (m'.spaces s).tableUsed u = true := by
    rw [h.spaces]
    simp [Vmm.setPte, Vmm.markTable, Vmm.setSpace, Function.update_apply, hused]
  have hpte : (m'.spaces s).userTables u j = (m.spaces s).userTables u j := by
    rw [h.spaces]
    refine (pte_setPte _ s t _ _ s u j).trans ?_
    rw [if_neg fun hc => hne hc.2, pte_markTable]
    rfl
  unfold AddressSpace.frameAt
  rw [hused, hused', hpte]

theorem readFault_grows (he : error &&& 2 = 0) (h : vmmPageFault m error address cr2 = .ok m') :
    Grows m m' ∧ GrewActive m m' := by
  obtain ⟨s, t, hc, hslot, ⟨vi, -, hphys, hdemand⟩ | hcow⟩ := vmmPageFault_inv h
  · obtain ⟨a, p, hd⟩ := demandFault_inv hslot hdemand
    have hbase : pageBase (faultPage address cr2) = faultPage address cr2 := pageBase_pageBase _
    rw [physical_page _ hbase, hslot] at hphys
    refine ⟨fun sp v hv => ?_, s, faultPage address cr2, hc, fun hu => ⟨?_, ?_⟩⟩
    · unfold Vmm.held at hv ⊢
      rw [hd.spaceUsed]
      split
      · rename_i hu
        rw [if_pos hu] at hv
        by_cases hs : sp = s
        · subst hs
          rw [physical_page _ (pageBase_pageBase v)] at hv ⊢
          rw [physical_page _ (pageBase_pageBase v)]
          cases hslotv : userSlot (pageBase v) with
          | none => rfl
          | some u =>
            rw [hslotv] at hv
            refine hd.frameAt_other ?_ hv
            rintro ⟨rfl, hj⟩
            rw [hj] at hv
            exact hv hphys
        · rw [(inActive_demandFault hc hdemand).others sp fun he => hs
            (Option.some.inj (hc.symm.trans he)).symm]
      · rfl
    · rw [Vmm.held, if_pos hu, hbase, physical_page _ hbase, hslot]
      exact hphys
    · rw [Vmm.held, hd.spaceUsed, if_pos hu, hbase, physical_page _ hbase, hslot]
      exact hd.frameAt_self
  · exact absurd he (cowFault_inv hcow).1.1

end

/-! ## Reading the path -/

def scanResident (m : Vmm) (space : Nat) : Nat → Word → Bool
  | 0, _ => true
  | fuel + 1, p =>
    if p < 0x400000 ∨ 0xc0000000 ≤ p then true
    else if vmmGetUserPhysical (m.spaces space) (pageBase p) =
      0 then ((m.spaces space).vmaAt (pageBase p)).isNone
    else
      match m.activeFrame p with
      | none => false
      | some f => m.phys f (offset p) == 0 || scanResident m space fuel (p + 1)

section

variable {m m1 m' : Vmm} {space : Nat} {p : Word}

theorem validate_byte (m : Vmm) (space : Nat) (h : ¬(p < 0x400000 ∨ 0xc0000000 ≤ p)) :
    vmmValidateUserPtr m space p 1 0 = (validateResident m space (pageBase p) 0).map fun m1 =>
      (if vmmGetUserPhysical (m1.spaces space) (pageBase p) = 0 then (-1 : Int) else 0, m1) := by
  have hlo : (0x400000 : Word).toNat = 0x400000 := rfl
  have hhi : (0xc0000000 : Word).toNat = 0xc0000000 := rfl
  have hpage : (4096 : Word).toNat = 4096 := rfl
  simp only [not_or, BitVec.le_def, BitVec.lt_def, hlo, hhi] at h
  have hlt := p.isLt
  have hlast : p + 1 - 1 = p := BitVec.add_sub_cancel _ _
  have hend : p - 4096 < pageBase p := by
    rw [BitVec.lt_def, BitVec.toNat_sub, toNat_pageBase, pageNumber_eq, hpage]
    omega
  unfold vmmValidateUserPtr
  rw [if_neg, hlast]
  · rw [show (0x100000 : Nat) = 0xfffff + 1 from rfl, validateLoop, validatePage]
    cases validateResident m space (pageBase p) 0 with
    | error e => rfl
    | ok m1 =>
      dsimp only [Except.map]
      split
      · rename_i hres
        split at hres
        · cases hres
        · rw [validateWritable] at hres
          cases hres
      · rename_i hres
        split at hres
        · rename_i h0
          cases hres
          rw [if_pos h0]
        · rw [validateWritable, if_neg (by simp)] at hres
          cases hres
      · rename_i hres
        split at hres
        · cases hres
        · rename_i h0
          rw [validateWritable, if_neg (by simp)] at hres
          cases hres
          rw [if_pos hend, if_neg h0]
  · rw [not_or, not_or, not_or]
    refine ⟨by decide, ?_, ?_, ?_⟩
    · rw [BitVec.lt_def, hlo]
      omega
    · rw [BitVec.le_def, hhi]
      omega
    · rw [BitVec.lt_def, BitVec.toNat_sub, hhi, show (1 : Word).toNat = 1 from rfl]
      omega

theorem validate_byte_cases {rc : Int} (h : ¬(p < 0x400000 ∨ 0xc0000000 ≤ p))
    (hv : vmmValidateUserPtr m space p 1 0 = .ok (rc, m')) :
    (m' = m ∧ (rc = 0 ↔ vmmGetUserPhysical (m.spaces space) (pageBase p) ≠ 0) ∧
      (rc ≠ 0 → (m.spaces space).vmaAt (pageBase p) = none)) ∨
    (vmmGetUserPhysical (m.spaces space) (pageBase p) = 0 ∧ (m.spaces space).vmaAt (pageBase p) ≠ none ∧
      Grows m m' ∧ GrewActive m m') := by
  rw [validate_byte m space h] at hv
  unfold validateResident at hv
  by_cases h0 : vmmGetUserPhysical (m.spaces space) (pageBase p) = 0
  · rw [if_pos h0] at hv
    split at hv
    · rename_i hvma
      cases hv
      exact .inl ⟨rfl, by simp [h0], fun _ => hvma⟩
    · rename_i vi hvma
      rw [if_neg (by decide)] at hv
      cases hfault : vmmPageFault m 4 (pageBase p) 0 with
      | error e =>
        rw [hfault] at hv
        cases hv
      | ok m1 =>
        rw [hfault] at hv
        cases hv
        obtain ⟨hgrows, hactive⟩ := readFault_grows (by decide) hfault
        exact .inr ⟨h0, by rw [hvma]; exact Option.some_ne_none vi, hgrows, hactive⟩
  · rw [if_neg h0] at hv
    cases hv
    rw [if_neg h0]
    exact .inl ⟨rfl, ⟨fun _ => h0, fun _ => rfl⟩, fun hne => absurd rfl hne⟩

theorem kernelLoad_cases {b : Byte} (h : m.kernelLoad p = .ok (b, m')) :
    (∃ f, m.activeFrame p = some f ∧ m' = m ∧ b = m.phys f (offset p)) ∨
    (m.activeFrame p = none ∧ Grows m m' ∧ GrewActive m m') := by
  obtain ⟨⟨f, m1⟩, htouch, h⟩ := bind_eq_ok.mp h
  cases h
  unfold Vmm.touch at htouch
  split at htouch
  · rename_i f hf
    cases htouch
    exact .inl ⟨_, hf, rfl, rfl⟩
  · rename_i hf
    split at htouch
    · cases htouch
    · rename_i m2 hfault
      split at htouch
      · cases htouch
        exact .inr ⟨hf, readFault_grows (by decide) hfault⟩
      · cases htouch

theorem scanString_tail {fuel : Nat} {c : Byte} {res : Option (List Byte)}
    (h : (if c = 0 then pure (some [], m) else do
      let (rest, m) ← scanString space fuel (p + 1) m
      return (rest.map fun s => c :: s, m) : Except Halt (Option (List Byte) × Vmm)) = .ok (res, m')) :
    c = 0 ∧ m' = m ∨ c ≠ 0 ∧ ∃ rest, scanString space fuel (p + 1) m = .ok (rest, m') := by
  split at h
  · rename_i hc
    cases h
    exact .inl ⟨hc, rfl⟩
  · rename_i hc
    obtain ⟨⟨rest, m1⟩, hscan, hend⟩ := bind_eq_ok.mp h
    cases hend
    exact .inr ⟨hc, rest, hscan⟩

theorem scanString_cases {fuel : Nat} {res : Option (List Byte)}
    (h : scanString space fuel p m = .ok (res, m')) :
    (scanResident m space fuel p = true ∧ m' = m) ∨
    (scanResident m space fuel p = false ∧ Grows m m' ∧ GrewActive m m') := by
  induction fuel generalizing p m res with
  | zero =>
    cases h
    exact .inl ⟨rfl, rfl⟩
  | succ fuel ih =>
    -- once a frame came, the rest of the scan keeps it
    have hrest : ∀ {c : Byte} {m1 : Vmm},
        (c = 0 ∧ m' = m1 ∨ c ≠ 0 ∧ ∃ rest, scanString space fuel (p + 1) m1 = .ok (rest, m')) →
        Grows m1 m' := by
      rintro c m1 (⟨-, rfl⟩ | ⟨-, rest, hscan⟩)
      · exact Grows.refl _
      · rcases ih hscan with ⟨-, rfl⟩ | ⟨-, hg, -⟩
        · exact Grows.refl _
        · exact hg
    unfold scanString at h
    unfold scanResident
    by_cases hhi : 0xc0000000 ≤ p
    · rw [if_pos hhi] at h
      cases h
      rw [if_pos (.inr hhi)]
      exact .inl ⟨rfl, rfl⟩
    rw [if_neg hhi] at h
    obtain ⟨⟨rc, m1⟩, hvalid, hnext⟩ := bind_eq_ok.mp h
    clear h
    by_cases hlo : p < 0x400000
    · rw [vmmValidateUserPtr, if_pos (.inr (.inl hlo))] at hvalid
      cases hvalid
      rw [if_pos (.inl hlo)]
      cases hnext
      exact .inl ⟨rfl, rfl⟩
    have hin : ¬(p < 0x400000 ∨ 0xc0000000 ≤ p) := not_or.mpr ⟨hlo, hhi⟩
    rw [if_neg hin]
    dsimp only at hnext
    rcases validate_byte_cases hin hvalid with ⟨rfl, hrc, hvma⟩ | ⟨h0, hvma, hgrows, hactive⟩
    · by_cases hzero : rc = 0
      · rw [if_neg (hrc.mp hzero)]
        rw [if_neg (not_not.mpr hzero)] at hnext
        obtain ⟨⟨c, m2⟩, hload, htail⟩ := bind_eq_ok.mp hnext
        have htail' := scanString_tail htail
        rcases kernelLoad_cases hload with ⟨f, hf, rfl, rfl⟩ | ⟨hf, hgrows, hactive⟩
        · rw [hf]
          dsimp only at htail' ⊢
          rcases htail' with ⟨hc, rfl⟩ | ⟨hc, rest, hscan⟩
          · rw [hc]
            exact .inl ⟨rfl, rfl⟩
          · rw [beq_false_of_ne hc, Bool.false_or]
            exact ih hscan
        · rw [hf]
          exact .inr ⟨rfl, hgrows.trans (hrest htail'), hactive.grows (hrest htail')⟩
      · have h0 : vmmGetUserPhysical (m1.spaces space) (pageBase p) = 0 := by
          by_contra hne
          exact hzero (hrc.mpr hne)
        rw [if_pos hzero] at hnext
        cases hnext
        rw [if_pos h0, hvma hzero]
        exact .inl ⟨rfl, rfl⟩
    · rw [if_pos h0]
      have hlater : Grows m1 m' := by
        split at hnext
        · cases hnext
          exact Grows.refl _
        · obtain ⟨⟨c, m2⟩, hload, htail⟩ := bind_eq_ok.mp hnext
          refine Grows.trans ?_ (hrest (scanString_tail htail))
          rcases kernelLoad_cases hload with ⟨f, -, rfl, -⟩ | ⟨-, hg, -⟩
          · exact Grows.refl _
          · exact hg
      exact .inr
        ⟨by simpa [Option.isSome_iff_ne_none] using hvma, hgrows.trans hlater, hactive.grows hlater⟩

end

def pathResident (a : Word) (k : Kernel) : Bool :=
  if a < 0x400000 ∨ 0xc0000000 ≤ a then true
  else
    match (k.pcb k.current).addressSpace with
    | none => true
    | some space => scanResident k.vmm space 256 a

section

variable {k : Kernel} {a : Word} {m' : Vmm} {path : Option (List Byte)}

theorem userString_cases (h : userString a k = .ok (path, m')) :
    (pathResident a k = true ∧ m' = k.vmm) ∨ (pathResident a k = false ∧ GrewActive k.vmm m') := by
  unfold userString at h
  unfold pathResident
  split at h
  · rename_i hr
    cases h
    rw [if_pos hr]
    exact .inl ⟨rfl, rfl⟩
  · rename_i hr
    rw [if_neg hr]
    cases hspace : (k.pcb k.current).addressSpace with
    | none =>
      rw [hspace] at h
      cases h
      exact .inl ⟨rfl, rfl⟩
    | some space =>
      rw [hspace] at h
      rcases scanString_cases h with hsame | ⟨hres, -, hactive⟩
      · exact .inl hsame
      · exact .inr ⟨hres, hactive⟩

theorem userString_held (h : userString a k = .ok (path, m')) :
    (∀ sp v, m'.held sp v = k.vmm.held sp v) ↔
      pathResident a k = true ∨ ∀ s, k.vmm.currentSpace = some s → k.vmm.spaceUsed s = false := by
  have hin := (userString_inv h).1
  rcases userString_cases h with ⟨hres, rfl⟩ | ⟨hres, s, v, hc, hgrew⟩
  · exact ⟨fun _ => .inl hres, fun _ _ _ => rfl⟩
  · constructor
    · intro hheld
      refine .inr fun s' hc' => ?_
      obtain rfl : s = s' := Option.some.inj (hc.symm.trans hc')
      by_contra hu
      obtain ⟨h0, hne⟩ := hgrew (by simpa using hu)
      exact hne ((hheld s v).trans h0)
    · rintro (hres' | hunused) sp v
      · rw [hres] at hres'
        cases hres'
      · unfold Vmm.held
        rw [hin.used]
        by_cases hsp : k.vmm.currentSpace = some sp
        · rw [hunused sp hsp]
          rfl
        · rw [hin.others sp hsp]

end

end Ceblar
