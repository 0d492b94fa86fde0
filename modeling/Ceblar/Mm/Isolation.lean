import Ceblar.Mm.Cow

/-! # Runs over address spaces: exact counts and isolation

User reads and writes on top of the address-space operations. A space sees only its own writes, as
if a clone had copied every page at once.
-/

namespace Ceblar

variable {i k s t : Nat} {a pte va : Word} {m m' : Vmm} {b : Byte}
variable {address cr2 error page : Word} {p : Pmm} {op : SpaceOp}

/-! ## User accesses -/

/-- What the processor finds for a user access: a page table entry of a used table that is
present and open to the user. Outside the eight tables the directory has kernel pages only. -/
def userPte (s : AddressSpace) (va : Word) : Option Word :=
  match userSlot va with
  | none => none
  | some t =>
    let pte := s.userTables t (tableIndex va)
    if s.tableUsed t = true ∧ pte &&& pagePresent ≠ 0 ∧ pte &&& pageUser ≠ 0 then some pte else none

theorem userPte_eq_some {s : AddressSpace} : userPte s a = some pte ↔
    ∃ t, userSlot a = some t ∧ s.tableUsed t = true ∧ s.userTables t (tableIndex a) = pte ∧
      bit pte 0 = true ∧ bit pte 2 = true := by
  unfold userPte
  cases hs : userSlot a with
  | none => simp
  | some t =>
    dsimp only
    split
    · rename_i hc
      rw [and_pagePresent, and_pageUser] at hc
      constructor
      · rintro he
        cases he
        exact ⟨t, rfl, hc.1, rfl, hc.2.1, hc.2.2⟩
      · rintro ⟨t', ht, -, rfl, -⟩
        cases ht
        rfl
    · rename_i hc
      rw [and_pagePresent, and_pageUser] at hc
      constructor
      · rintro he
        cases he
      · rintro ⟨t', ht, hu, rfl, hp, hq⟩
        cases ht
        exact absurd ⟨hu, hp, hq⟩ hc

/-- Entry `(t, j)` of space `i` became `w`, in a table that is used now. -/
structure EntrySet (m : Vmm) (i t j : Nat) (w : Word) (m' : Vmm) : Prop where
  pte : ∀ k u l, m'.pte k u l = if k = i ∧ u = t ∧ l = j then w else m.pte k u l
  table : (m'.spaces i).tableUsed t = true
  used : ∀ k u, (m.spaces k).tableUsed u = true → (m'.spaces k).tableUsed u = true

theorem entrySet_mark (m : Vmm) (i t j : Nat) (w : Word) :
    EntrySet m i t j w ((m.markTable i t).setPte i t j w) where
  pte k u l := by rw [pte_setPte, pte_markTable]
  table := by
    rw [setPte_tableUsed, markTable_tableUsed]
    simp
  used k u hu := by rw [setPte_tableUsed, markTable_tableUsed, hu, Bool.or_true]

theorem EntrySet.userPte {j : Nat} {w : Word} (h : EntrySet m i t j w m')
    (hw : bit w 0 = true ∧ bit w 2 = true) (hp : userPte (m.spaces s) a = some pte) :
    Ceblar.userPte (m'.spaces s) a = some w ∨ Ceblar.userPte (m'.spaces s) a = some pte := by
  obtain ⟨u, hslot, hused, rfl, hpresent, huser⟩ := userPte_eq_some.mp hp
  have hpte := h.pte s u (tableIndex a)
  split at hpte
  · exact .inl (userPte_eq_some.mpr ⟨u, hslot, h.used s u hused, hpte, hw.1, hw.2⟩)
  · exact .inr (userPte_eq_some.mpr ⟨u, hslot, h.used s u hused, hpte, hpresent, huser⟩)

def userRead (m : Vmm) (i : Nat) (va : Word) : Option Byte :=
  (userPte (m.spaces i) va).map fun pte => m.phys (pageNumber pte) (offset va)

def userStore (m : Vmm) (i : Nat) (va : Word) (b : Byte) : Option Vmm :=
  match userPte (m.spaces i) va with
  | none => none
  | some pte =>
    if pte &&& pageWrite = 0 then none
    else some { m with
      phys := Function.update m.phys (pageNumber pte)
        (Function.update (m.phys (pageNumber pte)) (offset va) b) }

def userWrite (m : Vmm) (i : Nat) (va : Word) (b : Byte) : Option Vmm :=
  let m := vmmSwitchAddressSpace m (some i)
  match userStore m i va b with
  | some m' => some m'
  | none =>
    match vmmPageFault m 6 va va with
    | .error _ => none
    | .ok m => userStore m i va b

/-! ## Operations and runs -/

inductive SpaceOp where
  | create
  | retain (s : Nat)
  | destroy (s : Nat)
  | switchTo (s : Option Nat)
  | mapRange (s : Nat) (virt pages flags : Word)
  | unmapRange (s : Nat) (virt pages : Word)
  | unmapUser (s : Nat) (virt : Word)
  | cloneCow (s : Nat)
  /-- A write fault on a shared page of the current space. -/
  | cowFault (error address cr2 : Word)
  | read (s : Nat) (va : Word)
  | write (s : Nat) (va : Word) (b : Byte)

/-- The page that `vmm_page_fault` works on. -/
def faultPage (address cr2 : Word) : Word := pageBase (if address ≠ 0 then address else cr2)

def sharedFault (m : Vmm) (address cr2 : Word) : Bool :=
  match m.currentSpace with
  | none => false
  | some s =>
    m.spaceUsed s && (userSlot (faultPage address cr2)).isSome &&
      (bit (faultEntry m s (faultPage address cr2)) 0 && bit (faultEntry m s (faultPage address cr2)) 9)

/-- One operation. It is on a live space, ranges are mapped with flags below the frame field,
and users read and write where the space maps something. `none` also stands for a panic. -/
def spaceStep (m : Vmm) : SpaceOp → Option Vmm
  | .create => some ((vmmCreateAddressSpace m).elim m Prod.snd)
  | .retain s => if m.spaceUsed s then some (vmmRetainAddressSpace m s) else none
  | .destroy s => if m.spaceUsed s then some (vmmDestroyAddressSpace m s) else none
  | .switchTo s => if s.all m.spaceUsed then some (vmmSwitchAddressSpace m s) else none
  | .mapRange s virt pages flags =>
    if m.spaceUsed s && flags < 0x1000 then some (vmmMapRange m s virt pages flags).2 else none
  | .unmapRange s virt pages =>
    if m.spaceUsed s then some ((vmmUnmapRange m s virt pages).getD m) else none
  | .unmapUser s virt => if m.spaceUsed s then some ((vmmUnmapUser m s virt).getD m) else none
  | .cloneCow s => if m.spaceUsed s then some (vmmCloneAddressSpaceCow m s).2 else none
  | .cowFault error address cr2 =>
    if sharedFault m address cr2 then (vmmPageFault m error address cr2).toOption else none
  | .read s va =>
    if m.spaceUsed s && (userRead m s va).isSome then some (vmmSwitchAddressSpace m (some s)) else none
  | .write s va b =>
    if m.spaceUsed s && (userRead m s va).isSome then userWrite m s va b else none

/-- The kernel has just set up paging: no space is in use and no frame has been handed out. -/
def Booted (m : Vmm) : Prop :=
  ∃ m₀, m = vmmInit m₀ ∧ (∀ i, m₀.spaceUsed i = false) ∧ m₀.pmm.handed = []

theorem Booted.owned (h : Booted m) : Owned m := by
  obtain ⟨m₀, rfl, hnone, hlog⟩ := h
  have hmaps : ∀ x f, (vmmInit m₀).maps x ≠ some f := by
    intro x f hx
    have := ((maps_eq_some _ _ _).mp hx).1
    simp [vmmInit, hnone] at this
  refine ⟨fun i hi => ?_, fun f => ⟨fun hpos => ?_, fun hm => ?_⟩, ?_, ?_, ?_, rfl⟩
  · simp [vmmInit, hnone] at hi
  · obtain ⟨x, hx⟩ := (count_pos _ _).mp hpos
    exact absurd hx (hmaps x f)
  · simp [vmmInit, hlog] at hm
  · exact fun x _ f hx => absurd hx (hmaps x f)
  · exact fun x f hx => absurd hx (hmaps x f)
  · exact fun x _ f hx => absurd hx (hmaps x f)

theorem userSlot_pageBase (v : Word) : userSlot (pageBase v) = userSlot v := by
  ext t
  rw [userSlot_eq_some, userSlot_eq_some, toNat_pageBase, pageNumber_eq]
  omega

theorem tableIndex_pageBase (v : Word) : tableIndex (pageBase v) = tableIndex v := by
  rw [tableIndex_eq, tableIndex_eq, toNat_pageBase, pageNumber_eq]
  omega

theorem dirIndex_of_slot {v : Word} (h : userSlot v = some t) : dirIndex v = t + 1 := by
  rw [userSlot_eq_some] at h
  rw [dirIndex_eq]
  omega

theorem vmmPageFault_resident (hcur : m.currentSpace = some s)
    (hslot : userSlot (faultPage address cr2) = some t)
    (hphys : vmmGetUserPhysical (m.spaces s) (faultPage address cr2) ≠ 0) :
    vmmPageFault m error address cr2 = cowFault m s error (faultPage address cr2) := by
  have hdir := dirIndex_of_slot hslot
  have hlt := userSlot_lt hslot
  unfold vmmPageFault
  simp only [hcur]
  rw [if_pos (by change 1 ≤ dirIndex (faultPage address cr2) ∧ dirIndex (faultPage address cr2) ≤ 8; omega)]
  split
  · rfl
  · exact if_neg hphys

theorem vmmPageFault_mapped (h : Owned m) (hcur : m.currentSpace = some s)
    (hlive : m.spaceUsed s = true) (hslot : userSlot (faultPage address cr2) = some t)
    (hbit : bit (faultEntry m s (faultPage address cr2)) 0 = true) :
    vmmPageFault m error address cr2 = cowFault m s error (faultPage address cr2) := by
  have hdir := dirIndex_of_slot hslot
  have hphys : vmmGetUserPhysical (m.spaces s) (faultPage address cr2) ≠ 0 := by
    intro hz
    have habs := h.absent_of_physical hlive hz t hslot
    rw [faultEntry, hdir, Nat.add_sub_cancel, habs] at hbit
    simp at hbit
  exact vmmPageFault_resident hcur hslot hphys

theorem Owned.cowFault (h : Owned m) (hlive : m.spaceUsed s = true) (hslot : userSlot page = some t)
    (hf : cowFault m s error page = .ok m') :
    Owned m' ∧ bit (faultEntry m s page) 0 = true ∧ ∃ a p, Copied m s page a p m' := by
  obtain ⟨⟨-, -, htab, -, hpres⟩, a, p, hc⟩ := cowFault_inv hf
  have hbit := (and_pagePresent _).mp hpres
  have hlt := userSlot_lt hslot
  have hdir := dirIndex_of_slot hslot
  exact ⟨h.copied hlive (by omega) htab hbit hc, hbit, a, p, hc⟩

/-! ## What a space reads -/

theorem userPte_none (s : AddressSpace) (h : userSlot va = none) : userPte s va = none := by
  simp [userPte, h]

theorem Owned.userPte_eq (h : Owned m) (hlive : m.spaceUsed i = true)
    (hslot : userSlot va = some t) :
    userPte (m.spaces i) va =
      if bit (m.pte i t (tableIndex va)) 0 = true then some (m.pte i t (tableIndex va)) else none := by
  simp only [userPte, hslot]
  refine if_congr ⟨fun hp => (and_pagePresent _).mp hp.2.1, fun hbit => ?_⟩ rfl rfl
  have hflags := h.flags _ _ (maps_place h.slot hlive (userSlot_lt hslot) (tableIndex_lt va) hbit)
  exact ⟨hflags.1, (and_pagePresent _).mpr hbit, (and_pageUser _).mpr hflags.2.1⟩

theorem Owned.userPte_maps (h : Owned m) (hlive : m.spaceUsed i = true)
    (hp : userPte (m.spaces i) va = some pte) : ∃ (t : Nat) (ht : t < 8), userSlot va = some t ∧
      m.pte i t (tableIndex va) = pte ∧ bit pte 0 = true ∧
      m.maps (place i t (tableIndex va) (h.slot i hlive) ht (tableIndex_lt va)) =
        some (pageNumber pte) := by
  cases hslot : userSlot va with
  | none => simp [userPte_none _ hslot] at hp
  | some t =>
    rw [h.userPte_eq hlive hslot] at hp
    split at hp <;> rename_i hbit
    · cases hp
      exact ⟨t, userSlot_lt hslot, rfl, rfl, hbit, maps_place h.slot hlive (userSlot_lt hslot) _ hbit⟩
    · simp at hp

theorem userRead_congr (hs : m'.spaces k = m.spaces k)
    (hp : ∀ pte, userPte (m.spaces k) va = some pte →
      m'.phys (pageNumber pte) (offset va) = m.phys (pageNumber pte) (offset va)) :
    userRead m' k va = userRead m k va := by
  rw [userRead, userRead, hs]
  exact Option.map_congr hp

theorem OnlySpace.userRead_eq (h : OnlySpace i m m') (hk : k ≠ i) (va : Word) :
    userRead m' k va = userRead m k va :=
  userRead_congr (h.spaces k hk) fun _ _ => by rw [h.phys]

theorem Owned.userRead_copied (h : Owned m) (h' : Owned m')
    (hbit : bit (faultEntry m s page) 0 = true) (hc : Copied m s page a p m')
    (hk : m.spaceUsed k = true) (va : Word) : userRead m' k va = userRead m k va := by
  have hfresh := (h.exact.alloc hc.alloc).1
  have hk' : m'.spaceUsed k = true := by rw [hc.spaceUsed]; exact hk
  cases hslot : userSlot va with
  | none => simp [userRead, userPte_none _ hslot]
  | some t =>
    have hpte : m'.pte k t (tableIndex va) =
        if k = s ∧ t = dirIndex page - 1 ∧ tableIndex va = tableIndex page
        then a ||| pagePresent ||| pageUser ||| pageWrite else m.pte k t (tableIndex va) := by
      rw [← pte_setPte]
      simp only [Vmm.pte, hc.spaces]
    rw [userRead, userRead, h.userPte_eq hk hslot, h'.userPte_eq hk' hslot, hpte]
    split <;> rename_i hplace
    · -- The faulting page itself: the new frame holds the bytes of the old one.
      obtain ⟨rfl, rfl, hindex⟩ := hplace
      rw [hindex]
      rw [show bit (m.pte k (dirIndex page - 1) (tableIndex page)) 0 = true from hbit]
      simp [pageNumber_copyEntry, hc.phys, faultEntry]
    · split <;> rename_i hp
      · have hx := maps_place h.slot hk (userSlot_lt hslot) (tableIndex_lt va) hp
        have hne : pageNumber (m.pte k t (tableIndex va)) ≠ pageNumber a := by
          intro heq
          rw [heq] at hx
          exact (count_eq_zero _ _).mp hfresh _ hx
        simp [hc.phys, hne]
      · rfl

theorem Owned.userRead_store (h : Owned m) (hlive : m.spaceUsed i = true)
    (hst : userStore m i va b = some m') (hk : m.spaceUsed k = true) (va' : Word) :
    userRead m' k va' = if k = i ∧ va' = va then some b else userRead m k va' := by
  unfold userStore at hst
  split at hst
  · simp at hst
  · rename_i pte hp
    split at hst <;> rename_i hwr
    · simp at hst
    · cases hst
      obtain ⟨t, ht, hslot, hpte, hbit, hx⟩ := h.userPte_maps hlive hp
      split <;> rename_i hsame
      · obtain ⟨rfl, rfl⟩ := hsame
        simp [userRead, hp]
      · refine userRead_congr rfl fun pte' hp' => ?_
        obtain ⟨t', ht', hslot', hpte', hbit', hx'⟩ := h.userPte_maps hk hp'
        by_cases hframe : pageNumber pte' = pageNumber pte
        · -- The written frame has one entry, so it is the same page and another byte of it.
          rw [hframe] at hx'
          have hplace := h.alone _ _ _ hx (by
            change bit (m.pte i t (tableIndex va)) 1 = true
            rw [hpte]
            exact (and_pageWrite _).mp hwr) hx'
          simp only [place, Prod.mk.injEq, Fin.mk.injEq] at hplace
          obtain ⟨rfl, rfl, hindex⟩ := hplace
          have hoff : offset va' ≠ offset va := by
            intro hoff
            apply hsame
            refine ⟨rfl, BitVec.eq_of_toNat_eq ?_⟩
            have h1 := pageNumber_of_slot hslot
            have h2 := pageNumber_of_slot hslot'
            rw [pageNumber_eq] at h1 h2
            rw [offset_eq, offset_eq] at hoff
            omega
          simp [hframe, hoff]
        · simp [hframe]

theorem Owned.userRead_clone (h : Owned m) {d : Nat} (hs : m.spaceUsed s = true)
    (hc : vmmCloneAddressSpaceCow m s = (some d, m')) :
    (∀ va, userRead m' d va = userRead m s va) ∧
      ∀ k, m.spaceUsed k = true → ∀ va, userRead m' k va = userRead m k va := by
  obtain ⟨h', hfree, hused, hphys, hspaces, hsource, hdest⟩ := vmmCloneAddressSpaceCow_spec h hs hc
  have hlive : ∀ k, m.spaceUsed k = true → k ≠ d := by
    rintro k hk rfl
    rw [hk] at hfree
    simp at hfree
  -- A read goes through the source's old entry, whatever the flags are now.
  have hread : ∀ (k : Nat) (w : Nat → Nat → Word), m'.spaceUsed k = true →
      (∀ t j, t < 8 → j < 1024 → m'.pte k t j =
      if bit (m.pte s t j) 0 = true then cowEntry (m.pte s t j) else w t j) →
      (∀ t j, bit (m.pte s t j) 0 = false → bit (w t j) 0 = false) →
      ∀ va, userRead m' k va = userRead m s va := by
    intro k w hk hpte hw va
    cases hslot : userSlot va with
    | none => simp [userRead, userPte_none _ hslot]
    | some t =>
      rw [userRead, userRead, h.userPte_eq hs hslot, h'.userPte_eq hk hslot, hphys,
        hpte t _ (userSlot_lt hslot) (tableIndex_lt va)]
      cases hbit : bit (m.pte s t (tableIndex va)) 0 with
      | true => simp [bit_cowEntry, hbit]
      | false => simp [hw _ _ hbit]
  refine ⟨hread d (fun _ _ => 0) (by simp [hused]) hdest (by simp), fun k hk va => ?_⟩
  by_cases hks : k = s
  · subst hks
    exact hread k (fun t j => m.pte k t j) (by simp [hused, hlive k hk, hk]) hsource (fun _ _ hb => hb) va
  · exact userRead_congr (hspaces k hks (hlive k hk)) fun _ _ => by rw [hphys]

theorem Owned.switch (h : Owned m) (s : Option Nat) : Owned (vmmSwitchAddressSpace m s) :=
  ⟨h.slot, h.exact, h.same, h.flags, h.alone, h.table⟩

theorem Owned.store (h : Owned m)
    (hst : userStore m i va b = some m') : Owned m' ∧ m'.spaceUsed = m.spaceUsed := by
  unfold userStore at hst
  split at hst
  · simp at hst
  · split at hst
    · simp at hst
    · cases hst
      exact ⟨⟨h.slot, h.exact, h.same, h.flags, h.alone, h.table⟩, rfl⟩

theorem faultPage_self (va : Word) : faultPage va va = pageBase va := by
  simp [faultPage]

theorem vmmPageFault_write (h : Owned m) (hcur : m.currentSpace = some i)
    (hlive : m.spaceUsed i = true) (hp : userPte (m.spaces i) va = some pte) :
    ∃ t, userSlot (pageBase va) = some t ∧ faultEntry m i (pageBase va) = pte ∧
      vmmPageFault m 6 va va = cowFault m i 6 (pageBase va) := by
  obtain ⟨t, -, hslot, hpte, hbit, -⟩ := h.userPte_maps hlive hp
  rw [← userSlot_pageBase] at hslot
  have hentry : faultEntry m i (pageBase va) = pte := by
    rw [faultEntry, dirIndex_of_slot hslot, Nat.add_sub_cancel, tableIndex_pageBase, hpte]
  refine ⟨t, hslot, hentry, ?_⟩
  rw [← faultPage_self va] at hslot hentry ⊢
  exact vmmPageFault_mapped h hcur hlive hslot (by rw [hentry]; exact hbit)

theorem Owned.write (h : Owned m) (hlive : m.spaceUsed i = true)
    (hmapped : (userRead m i va).isSome = true) (hw : userWrite m i va b = some m') :
    Owned m' ∧ m'.spaceUsed = m.spaceUsed ∧ ∀ k, m.spaceUsed k = true → ∀ va',
      userRead m' k va' = if k = i ∧ va' = va then some b else userRead m k va' := by
  have h0 := h.switch (some i)
  unfold userWrite at hw
  extract_lets m0 at hw
  split at hw
  · rename_i m1 hst
    cases hw
    obtain ⟨h1, hused⟩ := h0.store hst
    exact ⟨h1, hused, fun k hk va' => h0.userRead_store hlive hst hk va'⟩
  · split at hw
    · simp at hw
    · rename_i m1 hfault
      obtain ⟨pte, hp⟩ : ∃ pte, userPte (m.spaces i) va = some pte := by
        simpa [userRead, Option.isSome_iff_exists] using hmapped
      obtain ⟨t, hslot, -, heq⟩ := vmmPageFault_write h0 rfl hlive hp
      rw [heq] at hfault
      obtain ⟨h1, hbit, a, p, hc⟩ := h0.cowFault hlive hslot hfault
      have hused : m1.spaceUsed = m.spaceUsed := hc.spaceUsed
      obtain ⟨h2, hused2⟩ := h1.store hw
      refine ⟨h2, hused2.trans hused, fun k hk va' => ?_⟩
      rw [h1.userRead_store (by rw [hused]; exact hlive) hw (by rw [hused]; exact hk) va',
        h0.userRead_copied h1 hbit hc hk va']
      rfl

def SpaceOp.space (m : Vmm) : SpaceOp → Option Nat
  | .create => none
  | .switchTo _ => none
  | .cowFault _ _ _ => m.currentSpace
  | .retain s => some s
  | .destroy s => some s
  | .mapRange s _ _ _ => some s
  | .unmapRange s _ _ => some s
  | .unmapUser s _ => some s
  | .cloneCow s => some s
  | .read s _ => some s
  | .write s _ _ => some s

structure StepSpec (m : Vmm) (op : SpaceOp) (m' : Vmm) : Prop where
  owned : Owned m'
  reads : ∀ k, m.spaceUsed k = true → op.space m ≠ some k → ∀ va, userRead m' k va = userRead m k va

theorem stepSpec_of_only (h' : Owned m') (hop : op.space m = some s)
    (honly : OnlySpace s m m') : StepSpec m op m' :=
  ⟨h', fun k _ hne va => honly.userRead_eq (by rintro rfl; exact hne hop) va⟩

theorem Owned.userRead_destroy (hk : k ≠ s) (va : Word) :
    userRead (vmmDestroyAddressSpace m s) k va = userRead m k va := by
  have hset : ∀ s' : AddressSpace, (m.setSpace s s').spaces k = m.spaces k :=
    fun _ => Function.update_of_ne hk _ _
  unfold vmmDestroyAddressSpace
  extract_lets sp m1
  split
  · rfl
  · split
    · exact userRead_congr (hset _) fun _ _ => rfl
    · split <;> exact userRead_congr (hset _) fun _ _ => rfl

theorem spaceStep_spec (h : Owned m) (hstep : spaceStep m op = some m') :
    StepSpec m op m' := by
  cases op with
  | create =>
    simp only [spaceStep, Option.some.injEq] at hstep
    subst hstep
    cases hc : vmmCreateAddressSpace m with
    | none => exact ⟨h, fun _ _ _ _ => rfl⟩
    | some r =>
      have hd := vmmCreateAddressSpace_spec hc
      exact ⟨h.create hc, fun k hk _ va => userRead_congr (hd.spaces k (hd.ne hk)) fun _ _ => by
        rw [Option.elim_some, hd.phys]⟩
  | retain s =>
    simp only [spaceStep, Option.ite_none_right_eq_some, Option.some.injEq] at hstep
    obtain ⟨hs, rfl⟩ := hstep
    exact stepSpec_of_only (h.retain s) rfl (onlySpace_setSpace m s _)
  | destroy s =>
    simp only [spaceStep, Option.ite_none_right_eq_some, Option.some.injEq] at hstep
    obtain ⟨hs, rfl⟩ := hstep
    exact ⟨h.destroy hs, fun k _ hne va => Owned.userRead_destroy (by rintro rfl; exact hne rfl) va⟩
  | switchTo s =>
    simp only [spaceStep, Option.ite_none_right_eq_some, Option.some.injEq] at hstep
    obtain ⟨hs, rfl⟩ := hstep
    exact ⟨h.switch s, fun _ _ _ _ => rfl⟩
  | mapRange s virt pages flags =>
    simp only [spaceStep, Option.ite_none_right_eq_some, Option.some.injEq, Bool.and_eq_true,
      decide_eq_true_eq] at hstep
    obtain ⟨⟨hs, hflags⟩, rfl⟩ := hstep
    obtain ⟨h', honly⟩ := h.mapRange hs virt pages hflags
    exact stepSpec_of_only h' rfl honly
  | unmapRange s virt pages =>
    simp only [spaceStep, Option.ite_none_right_eq_some, Option.some.injEq] at hstep
    obtain ⟨hs, rfl⟩ := hstep
    cases hun : vmmUnmapRange m s virt pages with
    | none => exact ⟨h, fun _ _ _ _ => rfl⟩
    | some m1 =>
      obtain ⟨h', honly⟩ := h.unmapRange hs hun
      exact stepSpec_of_only h' rfl honly
  | unmapUser s virt =>
    simp only [spaceStep, Option.ite_none_right_eq_some, Option.some.injEq] at hstep
    obtain ⟨hs, rfl⟩ := hstep
    cases hun : vmmUnmapUser m s virt with
    | none => exact ⟨h, fun _ _ _ _ => rfl⟩
    | some m1 => exact stepSpec_of_only (h.unmapUser hs hun) rfl (onlyTables_unmapUser hun).toOnlySpace
  | cloneCow s =>
    simp only [spaceStep, Option.ite_none_right_eq_some, Option.some.injEq] at hstep
    obtain ⟨hs, rfl⟩ := hstep
    obtain ⟨r, m1, hc⟩ : ∃ r m1, vmmCloneAddressSpaceCow m s = (r, m1) := ⟨_, _, rfl⟩
    rw [hc]
    cases r with
    | none =>
      rw [vmmCloneAddressSpaceCow_none h hs hc]
      exact ⟨h, fun _ _ _ _ => rfl⟩
    | some d =>
      exact ⟨(vmmCloneAddressSpaceCow_spec h hs hc).1,
        fun k hk _ va => (h.userRead_clone hs hc).2 k hk va⟩
  | cowFault error address cr2 =>
    simp only [spaceStep, Option.ite_none_right_eq_some] at hstep
    obtain ⟨hshared, hfault⟩ := hstep
    cases hcur : m.currentSpace with
    | none => simp [sharedFault, hcur] at hshared
    | some s =>
      simp only [sharedFault, hcur, Bool.and_eq_true, Option.isSome_iff_exists] at hshared
      obtain ⟨⟨hs, t, hslot⟩, hbit, -⟩ := hshared
      rw [vmmPageFault_mapped h hcur hs hslot hbit] at hfault
      cases hf : Ceblar.cowFault m s error (faultPage address cr2) with
      | error e => simp [hf, Except.toOption] at hfault
      | ok m1 =>
        simp only [hf, Except.toOption, Option.some.injEq] at hfault
        subst hfault
        obtain ⟨h', -, a, p, hc⟩ := h.cowFault hs hslot hf
        exact ⟨h', fun k hk _ va => h.userRead_copied h' hbit hc hk va⟩
  | read s va =>
    simp only [spaceStep, Option.ite_none_right_eq_some, Option.some.injEq] at hstep
    obtain ⟨-, rfl⟩ := hstep
    exact ⟨h.switch (some s), fun _ _ _ _ => rfl⟩
  | write s va b =>
    simp only [spaceStep, Option.ite_none_right_eq_some, Bool.and_eq_true] at hstep
    obtain ⟨⟨hs, hmapped⟩, hw⟩ := hstep
    obtain ⟨h', -, hread⟩ := h.write hs hmapped hw
    refine ⟨h', fun k hk hne va' => ?_⟩
    rw [hread k hk va', if_neg]
    rintro ⟨rfl, -⟩
    exact hne rfl

theorem runs_owned {m₀ : Vmm} {ops : List SpaceOp} (hboot : Booted m₀)
    (hrun : runs spaceStep m₀ ops = some m) : Owned m :=
  runs_inv Owned (fun _ _ _ h hstep => (spaceStep_spec h hstep).owned) hboot.owned hrun

/-! ## After any run -/

structure Counted (m : Vmm) : Prop where
  /-- The count of a mapped frame is the number of present entries of live spaces with that
  frame, and its bit is set. -/
  mapped : ∀ f, (∃ x, m.maps x = some f) → (m.pmm.refs f).toNat = count m.maps f ∧ m.pmm.bitmap f = true
  /-- A frame that was taken and has no entry left is free. -/
  gone : ∀ f ∈ m.pmm.handed, (∀ x, m.maps x ≠ some f) → m.pmm.refs f = 0 ∧ m.pmm.bitmap f = false
  /-- The next frame to be handed out is not mapped. -/
  next : ∀ a p, pmmAllocPage m.pmm = some (a, p) → ∀ x, m.maps x ≠ some (pageNumber a)

theorem refcounts_exact (m₀ m : Vmm) (ops : List SpaceOp) (hboot : Booted m₀)
    (hrun : runs spaceStep m₀ ops = some m) : Counted m := by
  have h := runs_owned hboot hrun
  refine ⟨fun f hf => ?_, fun f hlog hnone => ?_, fun a p ha => ?_⟩
  · obtain ⟨hin, hrefs⟩ := (h.exact f).held ((count_pos _ _).mpr hf)
    exact ⟨hrefs, ((inUse_iff _ _).mp hin).2.2⟩
  · exact (h.exact f).gone hlog ((count_eq_zero _ _).mpr hnone)
  · exact (count_eq_zero _ _).mp (h.exact.alloc ha).1

def bareMachine : Vmm :=
  vmmInit
    { pmm := { bitmap := fun _ => false, refs := fun _ => 0, total := 16, total_le := by decide,
               used := 0, handed := [] }
      phys := fun _ _ => 0
      kernelTables := fun _ => none
      spaces := fun _ => { userTables := fun _ _ => 0, tableUsed := fun _ => false,
                           vmas := fun _ => ⟨0, 0, 0, false⟩, refs := 0 }
      spaceUsed := fun _ => false
      currentSpace := none
      copyPage := fun _ => 0 }

theorem bareMachine_booted : Booted bareMachine := ⟨_, rfl, fun _ => rfl, rfl⟩

def forkRun : List SpaceOp :=
  [.create, .mapRange 0 0x401000 2 0, .write 0 0x401000 0x5a, .cloneCow 0]

theorem forkRun_isSome : (runs spaceStep bareMachine forkRun).isSome = true := by decide +kernel

theorem refcounts_exact_forkRun : ∃ m, runs spaceStep bareMachine forkRun = some m ∧ Counted m := by
  obtain ⟨m, hm⟩ := Option.isSome_iff_exists.mp forkRun_isSome
  exact ⟨m, hm, refcounts_exact bareMachine m forkRun bareMachine_booted hm⟩

end Ceblar
