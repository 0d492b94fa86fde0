import Ceblar.Mm.Isolation

/-! # Demand paging

What the two branches of `vmm_page_fault` do, without any assumption on who owns which frame,
and what becomes of a frame that the demand branch maps.
-/

namespace Ceblar

variable {m m' : Vmm} {a address cr2 error page : Word} {s t : Nat} {p : Pmm} {v : Vma}

/-! ## What stays -/

structure SameVmas (m m' : Vmm) : Prop where
  vmas : ∀ k, (m'.spaces k).vmas = (m.spaces k).vmas
  spaceUsed : m'.spaceUsed = m.spaceUsed
  currentSpace : m'.currentSpace = m.currentSpace
  window : (m.kernelFrame window).isSome = true → (m'.kernelFrame window).isSome = true

theorem SameVmas.refl (m : Vmm) : SameVmas m m := ⟨fun _ => rfl, rfl, rfl, id⟩

theorem SameVmas.trans {m'' : Vmm} (h : SameVmas m m') (h' : SameVmas m' m'') : SameVmas m m'' :=
  ⟨fun k => (h'.vmas k).trans (h.vmas k), h'.spaceUsed.trans h.spaceUsed,
    h'.currentSpace.trans h.currentSpace, fun hw => h'.window (h.window hw)⟩

theorem sameVmas_setPte (m : Vmm) (p : Pmm) (i t j : Nat) (w : Word) :
    SameVmas m ({ m with pmm := p }.setPte i t j w) :=
  ⟨fun k => setPte_vmas _ i t j w k, rfl, rfl, id⟩

theorem sameVmas_markTable (m : Vmm) (i t : Nat) : SameVmas m (m.markTable i t) :=
  ⟨fun k => markTable_vmas _ i t k, rfl, rfl, id⟩

theorem sameVmas_pmm (m : Vmm) (p : Pmm) : SameVmas m { m with pmm := p } := ⟨fun _ => rfl, rfl, rfl, id⟩

theorem OnlyTables.sameVmas {i : Nat} (h : OnlyTables i m m') : SameVmas m m' := by
  refine ⟨fun k => ?_, h.spaceUsed, h.currentSpace, fun hw => ?_⟩
  · by_cases hk : k = i
    · subst hk
      exact h.vmas
    · rw [h.spaces k hk]
  · rwa [Vmm.kernelFrame, h.kernelTables, ← Vmm.kernelFrame]

@[simp] theorem kernelFrame_pmm (m : Vmm) (p : Pmm) (v : Word) :
    ({ m with pmm := p } : Vmm).kernelFrame v = m.kernelFrame v := rfl

theorem faultEntry_of_slot (h : userSlot a = some t) (m : Vmm) (i : Nat) :
    faultEntry m i a = m.pte i t (tableIndex a) := by
  rw [faultEntry, dirIndex_of_slot h, Nat.add_sub_cancel]

theorem faultEntry_setPte {i : Nat} {b : Word} {u : Nat} (ha : userSlot a = some t)
    (hb : userSlot b = some u) (w : Word) :
    faultEntry (m.setPte i u (tableIndex b) w) i a = if pageNumber a = pageNumber b then w
      else faultEntry m i a := by
  have hta := tableIndex_lt a
  have htb := tableIndex_lt b
  rw [faultEntry_of_slot ha, faultEntry_of_slot ha, pte_setPte, pageNumber_of_slot ha,
    pageNumber_of_slot hb]
  by_cases h : t = u ∧ tableIndex a = tableIndex b
  · rw [if_pos ⟨rfl, h⟩, if_pos (by rw [h.1, h.2])]
  · rw [if_neg fun hc => h hc.2, if_neg fun hc => h (by omega)]

theorem faultEntry_congr {k : Nat} (h : (m'.spaces k).userTables = (m.spaces k).userTables) (a : Word) :
    faultEntry m' k a = faultEntry m k a := by
  rw [faultEntry, faultEntry, Vmm.pte, Vmm.pte, h]

theorem page_aligned (address cr2 : Word) : (faultPage address cr2).toNat % 4096 = 0 := by
  rw [faultPage, toNat_pageBase]
  omega

/-- What the demand branch does: the page gets an entry, and the frame it was made of is given
back to the allocator. -/
structure Demanded (m : Vmm) (s t : Nat) (page : Word) (v : Vma) (a : Word) (p : Pmm) (m' : Vmm) :
    Prop where
  alloc : pmmAllocPage m.pmm = some (a, p)
  pmm : m'.pmm = pmmFreePage p a
  spaces : m'.spaces = ((m.markTable s t).setPte s t (tableIndex page)
    (pageBase a ||| (v.flags ||| pageWrite ||| pagePresent ||| pageUser))).spaces
  spaceUsed : m'.spaceUsed = m.spaceUsed
  currentSpace : m'.currentSpace = m.currentSpace
  window : (m'.kernelFrame window).isSome = true

theorem demandFault_demanded (hw : (m.kernelFrame window).isSome = true) (s : Nat) (v : Vma)
    (hslot : userSlot page = some t) (ha : pmmAllocPage m.pmm = some (a, p)) :
    ∃ m', demandFault m s page v = .ok m' ∧ Demanded m s t page v a p m' := by
  obtain ⟨f, hf⟩ := Option.isSome_iff_exists.mp hw
  let m1 := { m with pmm := p, phys := Function.update m.phys f fun _ => 0 }
  obtain ⟨hframe, -⟩ := kernelFrame_window (m := m1) (table_of_window hw) a pageWrite (by decide)
  let m2 := vmmMap m1 window a pageWrite
  have hstore : ({ m with pmm := p } : Vmm).storeWindow (fun _ => 0) = .ok m1 := by
    rw [Vmm.storeWindow, kernelFrame_pmm, hf]
  refine ⟨{ (m2.markTable s t).setPte s t (tableIndex page)
      (pageBase a ||| (v.flags ||| pageWrite ||| pagePresent ||| pageUser)) with
      pmm := pmmFreePage m2.pmm a }, ?_, ?_⟩
  · simp only [demandFault, ha]
    rw [hstore]
    change Except.ok _ = Except.ok _
    rw [vmmMapUser, hslot]
    rfl
  · refine ⟨ha, ?_, ?_, ?_, ?_, ?_⟩
    · simp [m2, m1]
    · simp [Vmm.setPte, Vmm.markTable, Vmm.setSpace, m2, m1]
    · simp [m2, m1]
    · simp [m2, m1]
    · change (m2.kernelFrame window).isSome = true
      rw [hframe]
      rfl

theorem demandFault_inv (hslot : userSlot page = some t)
    (hf : demandFault m s page v = .ok m') : ∃ a p, Demanded m s t page v a p m' := by
  cases ha : pmmAllocPage m.pmm with
  | none => simp [demandFault, ha] at hf
  | some r =>
    have hw : (m.kernelFrame window).isSome = true := by
      by_contra hn
      rw [Bool.not_eq_true, Option.isSome_eq_false_iff, Option.isNone_iff_eq_none] at hn
      simp [demandFault, ha, Vmm.storeWindow, hn, bind, Except.bind] at hf
    obtain ⟨m1, hrun, hd⟩ := demandFault_demanded hw s v hslot ha
    rw [hrun, Except.ok.injEq] at hf
    exact ⟨r.1, r.2, hf ▸ hd⟩

theorem Demanded.sameVmas (h : Demanded m s t page v a p m') : SameVmas m m' := by
  refine ⟨fun k => ?_, h.spaceUsed, h.currentSpace, fun _ => h.window⟩
  rw [h.spaces, setPte_vmas, markTable_vmas]

theorem Demanded.pte (h : Demanded m s t page v a p m') :
    m'.pte s t (tableIndex page) =
      pageBase a ||| (v.flags ||| pageWrite ||| pagePresent ||| pageUser) := by
  rw [Vmm.pte, h.spaces]
  exact (pte_setPte _ s t _ _ _ _ _).trans (if_pos ⟨rfl, rfl, rfl⟩)

/-- The frame of the entry: the frame that was taken, with the address bits of the VMA's flags
merged in. -/
theorem Demanded.frame (h : Demanded m s t page v a p m') :
    pageNumber (m'.pte s t (tableIndex page)) = pageNumber a ||| pageNumber v.flags := by
  rw [h.pte, pageNumber_or, pageNumber_pageBase]
  simp only [pageNumber_or]
  rw [show pageNumber pageWrite = 0 by decide, show pageNumber pagePresent = 0 by decide,
    show pageNumber pageUser = 0 by decide]
  simp

/-! ## Which branch a fault takes -/

theorem userSlot_of_dirIndex {v : Word} (h : 1 ≤ dirIndex v ∧ dirIndex v ≤ 8) :
    userSlot v = some (dirIndex v - 1) := by
  rw [dirIndex_eq] at *
  rw [userSlot_eq_some]
  omega

theorem vmmPageFault_inv (hf : vmmPageFault m error address cr2 = .ok m') :
    ∃ s t, m.currentSpace = some s ∧ userSlot (faultPage address cr2) = some t ∧
      ((∃ vi, (m.spaces s).vmaAt (faultPage address cr2) = some vi ∧
          vmmGetUserPhysical (m.spaces s) (faultPage address cr2) = 0 ∧
          demandFault m s (faultPage address cr2) ((m.spaces s).vmas vi) = .ok m') ∨
        cowFault m s error (faultPage address cr2) = .ok m') := by
  unfold vmmPageFault at hf
  extract_lets page at hf
  split at hf
  · simp at hf
  · rename_i s hcur
    split at hf
    · rename_i hdir
      refine ⟨s, _, hcur, userSlot_of_dirIndex hdir, ?_⟩
      split at hf
      · exact Or.inr hf
      · rename_i vi hvi
        split at hf
        · rename_i hphys
          exact Or.inl ⟨vi, hvi, hphys, hf⟩
        · exact Or.inr hf
    · simp at hf

theorem Copied.sameVmas (h : Copied m s page a p m') :
    SameVmas m m' := by
  refine ⟨fun k => ?_, h.spaceUsed, h.currentSpace, fun _ => h.window⟩
  rw [h.spaces, setPte_vmas]

theorem vmmPageFault_sameVmas (hf : vmmPageFault m error address cr2 = .ok m') : SameVmas m m' := by
  obtain ⟨s, t, -, hslot, ⟨vi, -, -, hd⟩ | hc⟩ := vmmPageFault_inv hf
  · obtain ⟨a, p, hdem⟩ := demandFault_inv hslot hd
    exact hdem.sameVmas
  · obtain ⟨-, a, p, hcopy⟩ := cowFault_inv hc
    exact hcopy.sameVmas

theorem vmmPageFault_demand {vi : Nat}
    (hcur : m.currentSpace = some s) (hslot : userSlot (faultPage address cr2) = some t)
    (hvma : (m.spaces s).vmaAt (faultPage address cr2) = some vi)
    (hphys : vmmGetUserPhysical (m.spaces s) (faultPage address cr2) = 0) :
    vmmPageFault m error address cr2 = demandFault m s (faultPage address cr2)
      ((m.spaces s).vmas vi) := by
  have hdir := dirIndex_of_slot hslot
  have hlt := userSlot_lt hslot
  unfold vmmPageFault
  simp only [hcur]
  rw [if_pos (by change 1 ≤ dirIndex (faultPage address cr2) ∧ dirIndex (faultPage address cr2) ≤ 8; omega)]
  simp only [faultPage] at hvma hphys
  simp only [hvma, hphys, if_true]
  rfl

section

variable {P : Vmm → Prop} {m m' : Vmm} {s : Nat} {page write : Word}

theorem validateResident_inv
    (hfault : ∀ m m' error address, P m → vmmPageFault m error address 0 = .ok m' → P m') (h : P m)
    (hv : validateResident m s page write = .ok m') : P m' := by
  unfold validateResident at hv
  split at hv
  · split at hv
    · cases hv
      exact h
    · exact hfault _ _ _ _ h hv
  · cases hv
    exact h

theorem validateWritable_inv
    (hfault : ∀ m m' error address, P m → vmmPageFault m error address 0 = .ok m' → P m') {r : Bool}
    (h : P m) (hv : validateWritable m s page write = .ok (r, m')) : P m' := by
  unfold validateWritable at hv
  extract_lets t j at hv
  split at hv
  · split at hv
    · cases hv
      exact h
    · split at hv
      · cases hv
      · rename_i m2 hf
        cases hv
        exact hfault _ _ _ _ h hf
  · cases hv
    exact h

theorem validatePage_inv
    (hfault : ∀ m m' error address, P m → vmmPageFault m error address 0 = .ok m' → P m') {r : Bool}
    (h : P m) (hv : validatePage m s page write = .ok (r, m')) : P m' := by
  unfold validatePage at hv
  cases hres : validateResident m s page write with
  | error e => simp [hres] at hv
  | ok m1 =>
    have h1 := validateResident_inv hfault h hres
    rw [hres] at hv
    simp only at hv
    split at hv
    · cases hv
      exact h1
    · exact validateWritable_inv hfault h1 hv

theorem validateLoop_inv
    (hfault : ∀ m m' error address, P m → vmmPageFault m error address 0 = .ok m' → P m')
    {last : Word} (fuel : Nat) : ∀ {page : Word} {m m' : Vmm} {r : Int}, P m →
      validateLoop s last write fuel page m = .ok (r, m') → P m' := by
  induction fuel with
  | zero => intro page m m' r _ h; cases h
  | succ fuel ih =>
    intro page m m' r h hl
    rw [validateLoop] at hl
    split at hl
    · cases hl
    · rename_i m1 hp
      cases hl
      exact validatePage_inv hfault h hp
    · rename_i m1 hp
      have h1 := validatePage_inv hfault h hp
      split at hl
      · cases hl
        exact h1
      · exact ih h1 hl

end

theorem vmmValidateUserPtr_inv (P : Vmm → Prop)
    (hfault : ∀ m m' error address, P m → vmmPageFault m error address 0 = .ok m' → P m')
    {virt len write : Word} {r : Int} (h : P m)
    (hv : vmmValidateUserPtr m s virt len write = .ok (r, m')) : P m' := by
  unfold vmmValidateUserPtr at hv
  split at hv
  · cases hv
    exact h
  · exact validateLoop_inv hfault _ h hv

theorem Copied.frame (h : Copied m s page a p m')
    (hslot : userSlot page = some t) : pageNumber (m'.pte s t (tableIndex page)) = pageNumber a := by
  have ht : dirIndex page - 1 = t := by rw [dirIndex_of_slot hslot, Nat.add_sub_cancel]
  rw [Vmm.pte, h.spaces, ← pageNumber_copyEntry a, ht]
  exact congrArg pageNumber ((pte_setPte _ _ _ _ _ _ _ _).trans (if_pos ⟨rfl, rfl, rfl⟩))

theorem cloneCowTables_inv (P : Vmm → Prop) (hset : ∀ m i t j w, P m → P (m.setPte i t j w))
    (hmark : ∀ m i t, P m → P (m.markTable i t))
    (hretain : ∀ (m : Vmm) a, P m → P { m with pmm := pmmRetainPage m.pmm a })
    (s d : Nat) (h : P m) : ∃ m', cloneCowTables s d m = .ok m' ∧ P m' := by
  refine forRangeE_inv (fun _ m => P m) 8 h fun t ht m h => ?_
  split
  · refine forRangeE_inv (fun _ m => P m) 1024 h fun j hj m h => ?_
    unfold cloneCowEntry
    extract_lets pte va flags m1
    split
    · exact ⟨m, rfl, h⟩
    · rw [show vmmMapUser m1 d va (pageBase pte) flags = _ from vmmMapUser_entry m1 d ht hj _ _]
      exact ⟨_, rfl, hretain _ _ (hset _ _ _ _ _ (hmark _ _ _ (hset _ _ _ _ _ h)))⟩
  · exact ⟨m, rfl, h⟩

theorem vmmCloneAddressSpaceCow_inv (P : Vmm → Prop) (hset : ∀ m i t j w, P m → P (m.setPte i t j w))
    (hmark : ∀ m i t, P m → P (m.markTable i t))
    (hretain : ∀ (m : Vmm) a, P m → P { m with pmm := pmmRetainPage m.pmm a }) (s : Nat) (h : P m)
    (hcreate : ∀ d m1, vmmCreateAddressSpace m = some (d, m1) →
      P (m1.setSpace d { m1.spaces d with vmas := (m1.spaces s).vmas })) :
    P (vmmCloneAddressSpaceCow m s).2 := by
  unfold vmmCloneAddressSpaceCow
  split
  · exact h
  · rename_i d m1 hc
    obtain ⟨m', hloop, h'⟩ := cloneCowTables_inv P hset hmark hretain s d (hcreate d m1 hc)
    simp only [hloop]
    exact h'

/-! ## After a demand fault -/

inductive LaterOp where
  | switchTo (s : Option Nat)
  | fault (error address cr2 : Word)
  | cloneCow (s : Nat)
  | alloc

def laterStep (m : Vmm) : LaterOp → Option Vmm
  | .switchTo s => some (vmmSwitchAddressSpace m s)
  | .fault error address cr2 => (vmmPageFault m error address cr2).toOption
  | .cloneCow s => some (vmmCloneAddressSpaceCow m s).2
  | .alloc => some ((pmmAllocPage m.pmm).elim m fun r => { m with pmm := r.2 })

/-- Entry `(t, j)` of space `s` maps frame `g`. -/
def MapsFrame (s t j g : Nat) (m : Vmm) : Prop :=
  bit (m.pte s t j) 0 = true ∧ pageNumber (m.pte s t j) = g

/-- The step is taken while the entry maps `g`, and it is not a copy-on-write fault that lets go
of `g` through another entry. -/
def KeepsFrame (s t j g : Nat) (m : Vmm) (op : LaterOp) : Prop :=
  MapsFrame s t j g m ∧ ∀ error address cr2 s', op = .fault error address cr2 → m.currentSpace = some s' →
    MapsFrame s' (dirIndex (faultPage address cr2) - 1) (tableIndex (faultPage address cr2)) g m →
    s' = s ∧ dirIndex (faultPage address cr2) - 1 = t ∧ tableIndex (faultPage address cr2) = j

theorem laterStep_keeps {j g : Nat} {op : LaterOp} (h : m.pmm.bitmap g = true)
    (hkeep : KeepsFrame s t j g m op) (hstep : laterStep m op = some m') (hmaps : MapsFrame s t j g m') :
    m'.pmm.bitmap g = true := by
  cases op with
  | switchTo s' =>
    simp only [laterStep, Option.some.injEq] at hstep
    subst hstep
    exact h
  | alloc =>
    simp only [laterStep, Option.some.injEq] at hstep
    subst hstep
    cases ha : pmmAllocPage m.pmm with
    | none => exact h
    | some r => exact (pmmAllocPage_other ha h).2.1
  | cloneCow s' =>
    simp only [laterStep, Option.some.injEq] at hstep
    subst hstep
    refine vmmCloneAddressSpaceCow_inv (fun m => m.pmm.bitmap g = true) (fun _ _ _ _ _ hm => hm)
      (fun _ _ _ hm => hm) (fun _ _ hm => by simpa using hm) s' h fun d m1 hc => ?_
    have hpmm := (vmmCreateAddressSpace_spec hc).pmm
    change m1.pmm.bitmap g = true
    rw [hpmm]
    exact h
  | fault error address cr2 =>
    simp only [laterStep] at hstep
    cases hf : vmmPageFault m error address cr2 with
    | error e => simp [hf, Except.toOption] at hstep
    | ok m1 =>
      simp only [hf, Except.toOption, Option.some.injEq] at hstep
      subst hstep
      obtain ⟨s', t', hcur, hslot, ⟨vi, -, -, hd⟩ | hc⟩ := vmmPageFault_inv hf
      · obtain ⟨a, p, hdem⟩ := demandFault_inv hslot hd
        rw [hdem.pmm, (pmmFreePage_alloc hdem.alloc).1]
        exact h
      · obtain ⟨hguard, a, p, hcopy⟩ := cowFault_inv hc
        obtain ⟨hnew, hbit, -⟩ := pmmAllocPage_other hcopy.alloc h
        by_cases hold : pageNumber (faultEntry m s' (faultPage address cr2)) = g
        · -- The entry itself was copied, so it maps the fresh frame now.
          obtain ⟨rfl, rfl, rfl⟩ := hkeep.2 error address cr2 s' rfl hcur
            ⟨(and_pagePresent _).mp hguard.2.2.2.2, hold⟩
          have ht : dirIndex (faultPage address cr2) - 1 = t' := by
            rw [dirIndex_of_slot hslot, Nat.add_sub_cancel]
          rw [ht] at hmaps
          exact absurd ((hcopy.frame hslot).symm.trans hmaps.2) hnew
        · rw [hcopy.pmm, (pmmFreePage_other p (by rwa [pageNumber_pageBase])).1]
          exact hbit

theorem runs_keeps {j g : Nat} {ops : List LaterOp} (h : m.pmm.bitmap g = true)
    (hkeep : Along (KeepsFrame s t j g) laterStep m ops) (hrun : runs laterStep m ops = some m')
    (hmaps : MapsFrame s t j g m') : m'.pmm.bitmap g = true :=
  runs_inv_along (fun m => MapsFrame s t j g m → m.pmm.bitmap g = true)
    (fun _ _ _ hP hC hstep hm => laterStep_keeps (hP hC.1) hC hstep hm) (fun _ => h) hkeep hrun hmaps

def OwnedFrame (p : Pmm) (g : Nat) : Prop := p.bitmap g = true ∧ p.refs g = 1

/-- What becomes of the frames when a demand fault from `m` to `m'` takes frame `f` and gives
`page` an entry for frame `g`. -/
structure FrameFate (m m' : Vmm) (s t : Nat) (page flags : Word) (f g : Nat) : Prop where
  taken : m.pmm.firstFree = some f
  maps : MapsFrame s t (tableIndex page) g m'
  /-- Flags below the frame field leave `g = f`. -/
  merged : g = f ||| pageNumber flags
  /-- The frame that was taken is free again, and the next one to be handed out. -/
  free : m'.pmm.bitmap f = false ∧ m'.pmm.refs f = 0 ∧ m'.pmm.firstFree = some f
  /-- So the entry maps an owned frame exactly if it is another one that had an owner before. -/
  owned_iff : OwnedFrame m'.pmm g ↔ g ≠ f ∧ OwnedFrame m.pmm g
  /-- An owned frame is not handed out while the entry maps it, unless a copy-on-write fault on
  another of its entries lets go of it. -/
  kept : ∀ ops m'', OwnedFrame m'.pmm g → Along (KeepsFrame s t (tableIndex page) g) laterStep m' ops →
    runs laterStep m' ops = some m'' → MapsFrame s t (tableIndex page) g m'' →
    ∀ a p, pmmAllocPage m''.pmm = some (a, p) → pageNumber a ≠ g

/-- A demand fault does not own the frame it takes. -/
theorem demand_frame_owned_iff (m m' : Vmm) (s t vi : Nat) (error address cr2 : Word)
    (hcur : m.currentSpace = some s) (hslot : userSlot (faultPage address cr2) = some t)
    (hvma : (m.spaces s).vmaAt (faultPage address cr2) = some vi)
    (hphys : vmmGetUserPhysical (m.spaces s) (faultPage address cr2) = 0)
    (hfault : vmmPageFault m error address cr2 = .ok m') :
    ∃ f g, FrameFate m m' s t (faultPage address cr2) ((m.spaces s).vmas vi).flags f g := by
  rw [vmmPageFault_demand hcur hslot hvma hphys] at hfault
  obtain ⟨a, p, hd⟩ := demandFault_inv hslot hfault
  obtain ⟨f, hf, rfl, -, -⟩ := pmmAllocPage_spec hd.alloc
  obtain ⟨hbit, hrefs, hnext⟩ := pmmFreePage_alloc hd.alloc
  rw [← hd.pmm] at hbit hrefs hnext
  have hfree := ((firstFree_eq_some _ _).mp hf).2.2.1
  refine ⟨pageNumber a, _, hf, ⟨?_, rfl⟩, hd.frame,
    ⟨by rw [hbit]; exact hfree, by simp [hrefs], hnext⟩, ?_, ?_⟩
  · rw [hd.pte]
    simp
  · simp only [OwnedFrame, hbit, hrefs]
    constructor
    · rintro ⟨hb, hr⟩
      have hne : pageNumber (m'.pte s t (tableIndex (faultPage address cr2))) ≠ pageNumber a := by
        intro heq
        rw [heq, hfree] at hb
        simp at hb
      rw [Function.update_of_ne hne] at hr
      exact ⟨hne, hb, hr⟩
    · rintro ⟨hne, hb, hr⟩
      rw [Function.update_of_ne hne]
      exact ⟨hb, hr⟩
  · intro ops m'' hown hkeep hrun hmaps a' p' ha'
    exact (pmmAllocPage_other ha' (runs_keeps hown.1 hkeep hrun hmaps)).1

def userMachine : Vmm :=
  vmmSwitchAddressSpace ((vmmCreateAddressSpace bareMachine).elim bareMachine Prod.snd) (some 0)

def lazyMachine : Vmm :=
  let m := (vmmCreateAddressSpace bareMachine).elim bareMachine Prod.snd
  let m := (vmmMapLazyRange m 0 0x400000 2 pageWrite).elim m Prod.snd
  vmmSwitchAddressSpace m (some 0)

theorem demand_frame_owned_iff_lazy : ∃ m' f g, vmmPageFault lazyMachine 4 0x400000 0 = .ok m' ∧
    FrameFate lazyMachine m' 0 0 (faultPage 0x400000 0) ((lazyMachine.spaces 0).vmas 0).flags f g := by
  have hok : (vmmPageFault lazyMachine 4 0x400000 0).toOption.isSome = true := by decide +kernel
  cases hf : vmmPageFault lazyMachine 4 0x400000 0 with
  | error e =>
    rw [hf] at hok
    simp [Except.toOption] at hok
  | ok m' =>
    obtain ⟨f, g, h⟩ := demand_frame_owned_iff lazyMachine m' 0 0 0 4 0x400000 0 (by decide +kernel)
      (by decide +kernel) (by decide +kernel) (by decide +kernel) hf
    exact ⟨m', f, g, rfl, h⟩

/-- The first page gets frame 1, which is left free with a count of 0, and the second page gets
frame 1 as well. -/
theorem demand_frame_handed_out_twice :
    (do let m1 ← (vmmPageFault lazyMachine 4 0x400000 0).toOption
        let m2 ← (vmmPageFault m1 4 0x401000 0).toOption
        pure (pageNumber (m1.pte 0 0 0), m1.pmm.bitmap 1, m1.pmm.refs 1,
          pageNumber (m2.pte 0 0 0), pageNumber (m2.pte 0 0 1))) = some (1, false, 0, 1, 1) := by
  decide +kernel

end Ceblar
