import Ceblar.Mm.Vma

/-! # Read-only pages under the two clones

`vmm_clone_address_space_cow` marks every present page copy-on-write, one that was not writable too,
and the fault on a marked page grants write access.
-/

namespace Ceblar

open Function

/-- One entry of the loop in `vmm_clone_address_space`. The source switches to the two spaces to
read and to write the page at its own address; the error exit carries the state in which it gives
up. -/
def cloneEntry (source dest t j : Nat) (m : Vmm) : Except Vmm Vmm :=
  if m.pte source t j &&& pagePresent = 0 then .ok m
  else
    match pmmAllocPage m.pmm with
    | none => .error m
    | some (page, pmm) =>
      match vmmMapUser { m with pmm } dest (BitVec.ofNat 32 ((t + 1) * 0x400000 + j * 4096)) page
          (m.pte source t j &&& 0xfff) with
      | none => .error { m with pmm := pmmFreePage pmm page }
      | some m1 =>
        .ok { m1 with
          copyPage := m1.phys (pageNumber (m.pte source t j))
          phys := update m1.phys (pageNumber page) (m1.phys (pageNumber (m.pte source t j))) }

def cloneTables (source dest : Nat) (m : Vmm) : Except Vmm Vmm :=
  forRangeE 8 (fun t m =>
    if (m.spaces source).tableUsed t then forRangeE 1024 (cloneEntry source dest t) m
    else .ok m) m

/-- `vmm_clone_address_space`: the new space, or `none` for the source's null. On every way out the space
that was current is current again. -/
def vmmCloneAddressSpace (m : Vmm) (source : Nat) : Option Nat × Vmm :=
  match vmmCreateAddressSpace m with
  | none => (none, m)
  | some (dest, m) =>
    let m := m.setSpace dest { m.spaces dest with vmas := (m.spaces source).vmas }
    match cloneTables source dest m with
    | .error m' => (none, vmmSwitchAddressSpace (vmmDestroyAddressSpace m' dest) m.currentSpace)
    | .ok m => (some dest, m)

/-! ## Read-only pages -/

/-- A user page whose entry has neither `PAGE_WRITE` nor `PAGE_COW`. -/
structure ReadOnlyPage (m : Vmm) (k : Nat) (page : Word) : Prop where
  aligned : page.toNat % 4096 = 0
  mapped : vmmGetUserPhysical (m.spaces k) page ≠ 0
  write : bit (faultEntry m k page) 1 = false
  cow : bit (faultEntry m k page) 9 = false

structure WriteDenied (m : Vmm) (k : Nat) (page : Word) : Prop where
  entry : bit (faultEntry m k page) 1 = false
  check : ∀ virt len write, pageBase virt = page → write ≠ 0 →
    ∃ m', vmmValidateUserPtr m k virt len write = .ok (-1, m')

inductive CloneOp where
  | switchTo (s : Option Nat)
  | fault (error address cr2 : Word)
  | cloneCow (s : Nat)
  | clone (s : Nat)
  | validate (s : Nat) (virt len write : Word)

def cloneStep (m : Vmm) : CloneOp → Option Vmm
  | .switchTo s => if s.all m.spaceUsed then some (vmmSwitchAddressSpace m s) else none
  | .fault error address cr2 => (vmmPageFault m error address cr2).toOption
  | .cloneCow s => if m.spaceUsed s then some (vmmCloneAddressSpaceCow m s).2 else none
  | .clone s => if m.spaceUsed s then some (vmmCloneAddressSpace m s).2 else none
  | .validate s virt len write =>
    if m.spaceUsed s then (vmmValidateUserPtr m s virt len write).toOption.map Prod.snd else none

/-- Whatever follows, neither of the two spaces gets write access to the page. -/
def NeverGranted (m : Vmm) (s d : Nat) (page : Word) : Prop :=
  ∀ ops m', runs cloneStep m ops = some m' → WriteDenied m' s page ∧ WriteDenied m' d page

section

variable {m m' : Vmm} {k s d t j : Nat} {page : Word}

structure UserEntry (s : AddressSpace) (t j : Nat) : Prop where
  used : s.tableUsed t = true
  present : bit (s.userTables t j) 0 = true
  user : bit (s.userTables t j) 2 = true
  frame : pageNumber (s.userTables t j) ≠ 0

theorem physical_iff {s : AddressSpace} (hal : page.toNat % 4096 = 0) :
    vmmGetUserPhysical s page ≠ 0 ↔ ∃ t, userSlot page = some t ∧ UserEntry s t (tableIndex page) := by
  have hoff : page &&& 0xfff = 0 := (aligned_iff page).mpr hal
  unfold vmmGetUserPhysical
  cases hslot : userSlot page with
  | none => simp
  | some t =>
    simp only [Option.some.injEq, exists_eq_left']
    split
    next hused =>
      split
      next hflags =>
        refine ⟨fun h => absurd rfl h, fun h => ?_⟩
        rcases hflags with h0 | h2
        · exact absurd h0 ((and_pagePresent _).mpr h.present)
        · exact absurd h2 ((and_pageUser _).mpr h.user)
      next hflags =>
        push Not at hflags
        have hframe : pageBase (s.userTables t (tableIndex page)) ||| (page &&& 0xfff) ≠ 0 ↔
            pageNumber (s.userTables t (tableIndex page)) ≠ 0 := by
          rw [hoff,
            show pageBase (s.userTables t (tableIndex page)) ||| (0 : Word) = _ from BitVec.or_zero]
          exact not_congr (pageBase_eq_zero _)
        rw [hframe]
        exact ⟨fun h => ⟨hused, (and_pagePresent _).mp hflags.1, (and_pageUser _).mp hflags.2, h⟩,
          fun h => h.frame⟩
    next hused => exact ⟨fun h => absurd rfl h, fun h => absurd h.used hused⟩

structure ReadOnlyEntry (s : AddressSpace) (t j : Nat) : Prop extends UserEntry s t j where
  write : bit (s.userTables t j) 1 = false
  cow : bit (s.userTables t j) 9 = false

theorem readOnlyPage_iff (hal : page.toNat % 4096 = 0) :
    ReadOnlyPage m k page ↔ ∃ t, userSlot page = some t ∧
    ReadOnlyEntry (m.spaces k) t (tableIndex page) := by
  constructor
  · rintro ⟨-, hmap, hw, hc⟩
    obtain ⟨t, hslot, hentry⟩ := (physical_iff hal).mp hmap
    rw [faultEntry_of_slot hslot] at hw hc
    exact ⟨t, hslot, hentry, hw, hc⟩
  · rintro ⟨t, hslot, hentry, hw, hc⟩
    refine ⟨hal, (physical_iff hal).mpr ⟨t, hslot, hentry⟩, ?_, ?_⟩
    · rwa [faultEntry_of_slot hslot]
    · rwa [faultEntry_of_slot hslot]

theorem pageBase_aligned (hal : page.toNat % 4096 = 0) : pageBase page = page := by
  apply BitVec.eq_of_toNat_eq
  rw [toNat_pageBase, pageNumber_eq]
  omega

theorem ReadOnlyPage.denied (h : ReadOnlyPage m k page) : WriteDenied m k page := by
  refine ⟨h.write, fun virt len write hvirt hwrite => ⟨m, ?_⟩⟩
  have hcow := h.cow
  have hw := h.write
  unfold faultEntry at hcow hw
  unfold vmmValidateUserPtr
  split
  next => rfl
  next =>
    have hstop : validatePage m k page write = .ok (false, m) := by
      simp only [validatePage, validateResident, h.mapped, if_false, validateWritable]
      have hunmarked : m.pte k (dirIndex page - 1) (tableIndex page) &&& pageCow = 0 :=
        (and_pageCow_eq_zero _).mpr hcow
      rw [if_pos ⟨hwrite, (and_pageWrite_eq_zero _).mpr hw⟩, if_pos hunmarked]
    rw [hvirt, show (0x100000 : Nat) = 0xfffff + 1 from rfl, validateLoop, hstop]

theorem validatePage_marked (hmap : vmmGetUserPhysical (m.spaces k) page ≠ 0)
    (hw : bit (faultEntry m k page) 1 = false) (hc : bit (faultEntry m k page) 9 = true)
    (hfault : vmmPageFault m 6 page 0 = cowFault m k 6 page) :
    validatePage m k page 1 =
      match cowFault m k 6 page with
      | .error e => .error e
      | .ok m2 => .ok (decide (faultEntry m2 k page &&& pageWrite ≠ 0), m2) := by
  unfold faultEntry at hw hc
  simp only [validatePage, validateResident, hmap, if_false, validateWritable]
  rw [if_pos ⟨by decide, (and_pageWrite_eq_zero _).mpr hw⟩, if_neg ((and_pageCow _).mpr hc), hfault]
  rfl

theorem check_marked (hal : page.toNat % 4096 = 0) (hcur : m.currentSpace = some k)
    (hmap : vmmGetUserPhysical (m.spaces k) page ≠ 0) (hw : bit (faultEntry m k page) 1 = false)
    (hc : bit (faultEntry m k page) 9 = true) : vmmValidateUserPtr m k page 1 1 ≠ .ok (-1, m') := by
  obtain ⟨t, hslot, -⟩ := (physical_iff hal).mp hmap
  obtain ⟨hlow, hhigh, -⟩ := (userSlot_eq_some _ _).mp hslot
  have hne : page ≠ 0 := by
    rintro rfl
    simp at hlow
  have hpage : faultPage page 0 = page := by rw [faultPage, if_pos hne, pageBase_aligned hal]
  have hfault : vmmPageFault m 6 page 0 = cowFault m k 6 page := by
    rw [← hpage] at hslot hmap
    rw [vmmPageFault_resident hcur hslot hmap, hpage]
  have hstep := validatePage_marked hmap hw hc hfault
  have hargs : ¬ ((1 : Word) = 0 ∨ page < 0x400000 ∨ 0xc0000000 ≤ page ∨ 0xc0000000 - page < 1) := by
    have h4 : (0x400000 : Word).toNat = 0x400000 := rfl
    have hc0 : (0xc0000000 : Word).toNat = 0xc0000000 := rfl
    have h1 : (1 : Word).toNat = 1 := rfl
    push Not
    refine ⟨by decide, ?_, ?_, ?_⟩
    · rw [BitVec.lt_def, h4]
      omega
    · rw [BitVec.le_def, hc0]
      omega
    · rw [BitVec.lt_def, BitVec.toNat_sub_of_le (by rw [BitVec.le_def, hc0]; omega), hc0, h1]
      omega
  have hlast : page + 1 - 1 - 4096 < page := by
    have h4096 : (4096 : Word).toNat = 4096 := rfl
    rw [BitVec.add_sub_cancel, BitVec.lt_def,
      BitVec.toNat_sub_of_le (by rw [BitVec.le_def, h4096]; omega), h4096]
    omega
  rw [vmmValidateUserPtr, if_neg hargs, pageBase_aligned hal,
    show (0x100000 : Nat) = 0xfffff + 1 from rfl, validateLoop, hstep]
  cases hf : cowFault m k 6 page with
  | error e => simp
  | ok m2 =>
    obtain ⟨-, a, p, hcopy⟩ := cowFault_inv hf
    have hgranted : faultEntry m2 k page &&& pageWrite ≠ 0 := by
      rw [and_pageWrite, faultEntry, Vmm.pte, hcopy.spaces]
      refine (congrArg (bit · 1) ((pte_setPte _ _ _ _ _ _ _ _).trans (if_pos ⟨rfl, rfl, rfl⟩))).trans ?_
      simp
    simp only [decide_eq_true hgranted, if_pos hlast]
    intro h
    cases h

/-! ## The clone loops -/

/-- Both loops reach entry `(t, j)` if its table is in use: what holds before it turns into what
holds after. -/
theorem cloneLoop_reaches {body : Nat → Nat → Vmm → Except Vmm Vmm} (P Q : Vmm → Prop) (ht : t < 8)
    (hj : j < 1024) (hused : ∀ m, P m → (m.spaces s).tableUsed t = true)
    (hbefore : ∀ u < 8, ∀ l < 1024, ¬ (u = t ∧ l = j) → ∀ m m', P m → body u l m = .ok m' → P m')
    (hat : ∀ m m', P m → body t j m = .ok m' → Q m')
    (hafter : ∀ u < 8, ∀ l < 1024, ¬ (u = t ∧ l = j) → ∀ m m', Q m → body u l m = .ok m' → Q m') (h : P m)
    (hrun : forRangeE 8
      (fun t m => if (m.spaces s).tableUsed t then forRangeE 1024 (body t) m else .ok m) m = .ok m') :
    Q m' := by
  refine forRangeE_reaches P Q ht (fun u hu hut m m' hm hrow => ?_) (fun m m' hm hrow => ?_)
    (fun u hu hut m m' hm hrow => ?_) h hrun
  · split at hrow
    next => exact forRangeE_ok (fun _ => P) hm (fun l hl m m' => hbefore u hu l hl (by omega) m m') hrow
    next =>
      cases hrow
      exact hm
  · rw [if_pos (hused m hm)] at hrow
    exact forRangeE_reaches P Q hj (fun l hl hlj => hbefore t ht l hl (by omega)) hat
      (fun l hl hlj => hafter t ht l hl (by omega)) hm hrow
  · split at hrow
    next => exact forRangeE_ok (fun _ => Q) hm (fun l hl m m' => hafter u hu l hl (by omega) m m') hrow
    next =>
      cases hrow
      exact hm

/-- What the copy-on-write loop does to the source at one entry. -/
theorem cloneCowEntry_source (hne : s ≠ d) (ht : t < 8) (hj : j < 1024)
    (h : cloneCowEntry s d t j m = .ok m') :
    m'.spaceUsed = m.spaceUsed ∧ (∀ u, (m'.spaces s).tableUsed u = (m.spaces s).tableUsed u) ∧
      ∀ u l, m'.pte s u l =
        if (u = t ∧ l = j) ∧ bit (m.pte s t j) 0 = true then cowEntry (m.pte s t j) else m.pte s u l := by
  unfold cloneCowEntry at h
  dsimp only at h
  split at h
  next habsent =>
    cases h
    have habsent : bit (m.pte s t j) 0 = false := (and_pagePresent_eq_zero _).mp habsent
    exact ⟨rfl, fun _ => rfl, fun u l => by simp [habsent]⟩
  next hpresent =>
    rw [vmmMapUser_entry _ d ht hj] at h
    cases h
    refine ⟨rfl, fun u => ?_, fun u l => ?_⟩
    · change (((_ : Vmm).setPte d t j _).spaces s).tableUsed u = _
      rw [setPte_tableUsed, markTable_tableUsed, setPte_tableUsed]
      simp [hne]
    · have hpresent : bit (m.pte s t j) 0 = true := (and_pagePresent _).mp hpresent
      change ((_ : Vmm).setPte d t j _).pte s u l = _
      rw [pte_setPte, if_neg (fun hc => hne hc.1), pte_markTable, pte_setPte]
      simp only [true_and, hpresent, and_true]
      rfl

/-- After the clone the source's own entry is marked. -/
theorem cowClone_marks (hlive : m.spaceUsed s = true)
    (hclone : vmmCloneAddressSpaceCow m s = (some d, m')) (ht : t < 8) (hj : j < 1024)
    (hused : (m.spaces s).tableUsed t = true) (hbit : bit (m.pte s t j) 0 = true) :
    m'.spaceUsed s = true ∧ (m'.spaces s).tableUsed t = true ∧ m'.pte s t j = cowEntry (m.pte s t j) := by
  unfold vmmCloneAddressSpaceCow at hclone
  split at hclone
  next => cases hclone
  next d' m1 hcreate =>
    have hc := vmmCreateAddressSpace_spec hcreate
    have hne := hc.ne hlive
    have hsource :
        (m1.setSpace d' { m1.spaces d' with vmas := (m1.spaces s).vmas }).spaces s = m.spaces s :=
      (update_of_ne hne _ _).trans (hc.spaces s hne)
    dsimp only at hclone
    split at hclone
    next => cases hclone
    next m2 hloop =>
      cases hclone
      -- the entry keeps its word until the loop comes to it, and the new one after that
      have hother : ∀ w, ∀ u < 8, ∀ l < 1024, ¬ (u = t ∧ l = j) → ∀ m1 m2 : Vmm,
          (m1.spaceUsed s = true ∧ (m1.spaces s).tableUsed t = true ∧ m1.pte s t j = w) →
          cloneCowEntry s d u l m1 = .ok m2 →
          m2.spaceUsed s = true ∧ (m2.spaces s).tableUsed t = true ∧ m2.pte s t j = w := by
        rintro w u hu l hl hne' m1 m2 ⟨h1, h2, h3⟩ hentry
        obtain ⟨hlive1, hused1, hpte1⟩ := cloneCowEntry_source hne hu hl hentry
        rw [hlive1, hused1, hpte1, if_neg (fun hc => hne' ⟨hc.1.1.symm, hc.1.2.symm⟩)]
        exact ⟨h1, h2, h3⟩
      refine cloneLoop_reaches
        (fun m2 => m2.spaceUsed s = true ∧ (m2.spaces s).tableUsed t = true ∧ m2.pte s t j = m.pte s t j)
        (fun m2 => m2.spaceUsed s = true ∧
          (m2.spaces s).tableUsed t = true ∧ m2.pte s t j = cowEntry (m.pte s t j))
        ht hj (fun _ h => h.2.1) (hother _) ?_ (hother _) ⟨?_, ?_, ?_⟩ hloop
      · rintro m1 m2 ⟨h1, h2, h3⟩ hentry
        obtain ⟨hlive1, hused1, hpte1⟩ := cloneCowEntry_source hne ht hj hentry
        rw [hlive1, hused1, hpte1, if_pos ⟨⟨rfl, rfl⟩, by rw [h3]; exact hbit⟩, h3]
        exact ⟨h1, h2, rfl⟩
      · exact (congrFun hc.used s).trans ((update_of_ne hne _ _).trans hlive)
      · rw [hsource]
        exact hused
      · rw [Vmm.pte, hsource]
        rfl

/-- A copy-on-write clone grants write access to every read-only page of its source. -/
theorem cow_clone_grants_write (m m' : Vmm) (s d : Nat) (page : Word) (hlive : m.spaceUsed s = true)
    (hro : ReadOnlyPage m s page) (hclone : vmmCloneAddressSpaceCow m s = (some d, m')) :
    ¬ NeverGranted m' s d page := by
  intro hnever
  obtain ⟨t, hslot, hentry⟩ := (readOnlyPage_iff hro.aligned).mp hro
  obtain ⟨hlive', hused, hpte⟩ :=
    cowClone_marks hlive hclone (userSlot_lt hslot) (tableIndex_lt page) hentry.used hentry.present
  have hrun : runs cloneStep m' [.switchTo (some s)] = some (vmmSwitchAddressSpace m' (some s)) := by
    simp [runs_cons, cloneStep, hlive']
  obtain ⟨m2, hcheck⟩ := (hnever _ _ hrun).1.check page 1 1 (pageBase_aligned hro.aligned) (by decide)
  have hmarked : UserEntry ((vmmSwitchAddressSpace m' (some s)).spaces s) t (tableIndex page) := by
    refine ⟨hused, ?_, ?_, ?_⟩
    all_goals rw [show ((vmmSwitchAddressSpace m' (some s)).spaces s).userTables t
      (tableIndex page) = _ from hpte]
    · rw [bit_cowEntry _ 0 (by omega),
        show bit (m.pte s t (tableIndex page)) 0 = true from hentry.present]
      rfl
    · rw [bit_cowEntry _ 2 (by omega), show bit (m.pte s t (tableIndex page)) 2 = true from hentry.user]
      rfl
    · rw [pageNumber_cowEntry]
      exact hentry.frame
  have hfault : faultEntry (vmmSwitchAddressSpace m' (some s)) s page =
      cowEntry (m.pte s t (tableIndex page)) := by
    rw [faultEntry_of_slot hslot, ← hpte]
    rfl
  refine check_marked hro.aligned rfl ((physical_iff hro.aligned).mpr ⟨t, hslot, hmarked⟩) ?_ ?_ hcheck
  · rw [hfault, bit_cowEntry _ 1 (by omega)]
    simp
  · rw [hfault, bit_cowEntry _ 9 (by omega)]
    simp

def textMachine : Vmm :=
  let m := (vmmCreateAddressSpace bareMachine).elim bareMachine Prod.snd
  (pmmAllocPage m.pmm).elim m fun r => (vmmMapUser { m with pmm := r.2 } 0 0x401000 r.1 0).getD m

theorem textMachine_readOnly : ReadOnlyPage textMachine 0 0x401000 :=
  ⟨by decide, by decide +kernel, by decide +kernel, by decide +kernel⟩

theorem cow_clone_grants_write_text : ∃ d m', vmmCloneAddressSpaceCow textMachine 0 = (some d, m') ∧
    ¬ NeverGranted m' 0 d 0x401000 := by
  have hd : (vmmCloneAddressSpaceCow textMachine 0).1 = some 1 := by decide +kernel
  generalize hclone : vmmCloneAddressSpaceCow textMachine 0 = r at hd
  obtain ⟨d, m'⟩ := r
  subst hd
  exact ⟨1, m', rfl, cow_clone_grants_write textMachine m' 0 1 0x401000
    (by decide +kernel) textMachine_readOnly hclone⟩

/-- After the clone a write fault of the source makes its text page writable. -/
theorem text_becomes_writable : ∃ d m' m'', vmmCloneAddressSpaceCow textMachine 0 = (some d, m') ∧
    runs cloneStep m' [.switchTo (some 0), .fault 6 0x401000 0] = some m'' ∧
    bit (faultEntry m'' 0 0x401000) 1 = true ∧ ¬ NeverGranted m' 0 d 0x401000 := by
  have hd : (vmmCloneAddressSpaceCow textMachine 0).1 = some 1 := by decide +kernel
  have hwrite : (runs cloneStep (vmmCloneAddressSpaceCow textMachine 0).2
      [.switchTo (some 0), .fault 6 0x401000 0]).map (fun m => bit (faultEntry m 0 0x401000) 1) =
        some true := by
    decide +kernel
  generalize vmmCloneAddressSpaceCow textMachine 0 = r at hd hwrite
  obtain ⟨d, m'⟩ := r
  subst hd
  obtain ⟨m'', hrun, hbit⟩ := Option.map_eq_some_iff.mp hwrite
  refine ⟨1, m', m'', rfl, hrun, hbit, fun hnever => ?_⟩
  cases hbit.symm.trans (hnever _ _ hrun).1.entry

/-! ## The copying clone keeps read-only pages -/

theorem ReadOnlyEntry.setPte {i u l : Nat} {w : Word} (h : ReadOnlyEntry (m.spaces k) t j)
    (hne : ¬ (k = i ∧ t = u ∧ j = l)) : ReadOnlyEntry ((m.setPte i u l w).spaces k) t j := by
  have hpte : ((m.setPte i u l w).spaces k).userTables t j = (m.spaces k).userTables t j :=
    (pte_setPte m i u l w k t j).trans (if_neg hne)
  refine ⟨⟨?_, ?_, ?_, ?_⟩, ?_, ?_⟩
  · rw [setPte_tableUsed]
    exact h.used
  all_goals rw [hpte]
  · exact h.present
  · exact h.user
  · exact h.frame
  · exact h.write
  · exact h.cow

theorem ReadOnlyEntry.markTable {i u : Nat} (h : ReadOnlyEntry (m.spaces k) t j) :
    ReadOnlyEntry ((m.markTable i u).spaces k) t j := by
  have hpte : ((m.markTable i u).spaces k).userTables t j = (m.spaces k).userTables t j :=
    pte_markTable m i u k t j
  refine ⟨⟨?_, ?_, ?_, ?_⟩, ?_, ?_⟩
  · rw [markTable_tableUsed, h.used, Bool.or_true]
  all_goals rw [hpte]
  · exact h.present
  · exact h.user
  · exact h.frame
  · exact h.write
  · exact h.cow

/-- No fault touches the entry: it is mapped, so it is not for the demand branch, and it is not marked. -/
theorem ReadOnlyPage.fault {error address cr2 : Word} (h : ReadOnlyPage m k page)
    (hf : vmmPageFault m error address cr2 = .ok m') : ReadOnlyPage m' k page := by
  obtain ⟨t, hslot, hentry⟩ := (readOnlyPage_iff h.aligned).mp h
  refine (readOnlyPage_iff h.aligned).mpr ⟨t, hslot, ?_⟩
  obtain ⟨i, u, hcur, huslot, ⟨vi, -, hphys, hd⟩ | hc⟩ := vmmPageFault_inv hf
  · obtain ⟨a, p, hdem⟩ := demandFault_inv huslot hd
    rw [hdem.spaces]
    refine hentry.markTable.setPte ?_
    rintro ⟨rfl, rfl, hindex⟩
    refine h.mapped ?_
    have hsame : faultPage address cr2 = page := by
      have hnum : pageNumber (faultPage address cr2) = pageNumber page := by
        rw [pageNumber_of_slot hslot, pageNumber_of_slot huslot, hindex]
      rw [← pageBase_aligned h.aligned, ← pageBase_aligned (page_aligned address cr2)]
      apply BitVec.eq_of_toNat_eq
      rw [toNat_pageBase, toNat_pageBase, hnum]
    rw [← hsame]
    exact hphys
  · obtain ⟨hguard, a, p, hcopy⟩ := cowFault_inv hc
    rw [hcopy.spaces]
    refine hentry.setPte ?_
    rintro ⟨rfl, hu, hindex⟩
    have hmarked := (and_pageCow _).mp hguard.2.2.2.1
    rw [faultEntry, ← hu, ← hindex] at hmarked
    cases hmarked.symm.trans hentry.cow

theorem vmmDestroyAddressSpace_others {i : Nat} (hk : k ≠ i) :
    (vmmDestroyAddressSpace m i).spaces k = m.spaces k ∧
    (vmmDestroyAddressSpace m i).spaceUsed k = m.spaceUsed k := by
  have hset : ∀ s : AddressSpace, (m.setSpace i s).spaces k = m.spaces k := fun _ => update_of_ne hk _ _
  unfold vmmDestroyAddressSpace
  extract_lets sp m1
  split
  · exact ⟨rfl, rfl⟩
  · split
    · exact ⟨hset _, rfl⟩
    · split
      · exact ⟨hset _, update_of_ne hk _ _⟩
      · exact ⟨hset _, rfl⟩

def OnlyDest (d : Nat) (m m' : Vmm) : Prop :=
  (∀ k, k ≠ d → m'.spaces k = m.spaces k) ∧ m'.spaceUsed = m.spaceUsed

def copyEntry (s d t j : Nat) (page : Word) (pmm : Pmm) (m : Vmm) : Vmm :=
  { ({ m with pmm }.markTable d t).setPte d t j
      (pageBase page ||| ((m.pte s t j &&& 0xfff) ||| pagePresent ||| pageUser)) with
    copyPage := m.phys (pageNumber (m.pte s t j))
    phys := update m.phys (pageNumber page) (m.phys (pageNumber (m.pte s t j))) }

theorem cloneEntry_eq (s d : Nat) (ht : t < 8) (hj : j < 1024) (m : Vmm) :
    cloneEntry s d t j m =
      if m.pte s t j &&& pagePresent = 0 then .ok m
      else match pmmAllocPage m.pmm with
        | none => .error m
        | some (page, pmm) => .ok (copyEntry s d t j page pmm m) := by
  unfold cloneEntry
  simp only [vmmMapUser_entry _ d ht hj]
  rfl

theorem cloneEntry_ok (ht : t < 8) (hj : j < 1024) (h : cloneEntry s d t j m = .ok m') :
    (bit (m.pte s t j) 0 = false ∧ m' = m) ∨ ∃ page pmm, bit (m.pte s t j) 0 = true ∧
      pmmAllocPage m.pmm = some (page, pmm) ∧ m' = copyEntry s d t j page pmm m := by
  rw [cloneEntry_eq s d ht hj] at h
  split at h
  next habsent =>
    cases h
    exact .inl ⟨(and_pagePresent_eq_zero _).mp habsent, rfl⟩
  next hpresent =>
    split at h
    next => cases h
    next page pmm ha =>
      cases h
      exact .inr ⟨page, pmm, (and_pagePresent _).mp hpresent, ha, rfl⟩

theorem copyEntry_spaces_ne {pmm : Pmm} (hk : k ≠ d) :
    (copyEntry s d t j page pmm m).spaces k = m.spaces k :=
  (setPte_spaces_ne _ _ _ _ _ hk).trans (markTable_spaces_ne _ _ _ hk)

theorem cloneEntry_only {m₀ : Vmm} (ht : t < 8) (hj : j < 1024) (h : OnlyDest d m₀ m) :
    Exits (OnlyDest d m₀) (OnlyDest d m₀) (cloneEntry s d t j m) := by
  rw [cloneEntry_eq s d ht hj]
  split
  next => exact exits_ok h
  next =>
    split
    next => exact exits_error h
    next page pmm _ =>
      refine exits_ok ⟨fun k hk => ?_, h.2⟩
      exact (copyEntry_spaces_ne hk).trans (h.1 k hk)

theorem cloneTables_only : Exits (OnlyDest d m) (OnlyDest d m) (cloneTables s d m) := by
  unfold cloneTables
  refine forRangeE_exits _ _ (fun t ht m1 h => ?_) ⟨fun _ _ => rfl, rfl⟩
  split
  next => exact forRangeE_exits _ _ (fun j hj m2 h2 => cloneEntry_only ht hj h2) h
  next => exact exits_ok h

theorem vmmCloneAddressSpace_live (hk : m.spaceUsed k = true) :
    (vmmCloneAddressSpace m s).2.spaces k = m.spaces k ∧
    (vmmCloneAddressSpace m s).2.spaceUsed k = true := by
  unfold vmmCloneAddressSpace
  split
  next => exact ⟨rfl, hk⟩
  next d m1 hcreate =>
    have hc := vmmCreateAddressSpace_spec hcreate
    have hne := hc.ne hk
    have hloop := @cloneTables_only (m1.setSpace d { m1.spaces d with vmas := (m1.spaces s).vmas }) s d
    have hbegin : (m1.setSpace d { m1.spaces d with vmas := (m1.spaces s).vmas }).spaces k = m.spaces k ∧
        (m1.setSpace d { m1.spaces d with vmas := (m1.spaces s).vmas }).spaceUsed k = true :=
      ⟨(update_of_ne hne _ _).trans (hc.spaces k hne),
        (congrFun hc.used k).trans ((update_of_ne hne _ _).trans hk)⟩
    dsimp only
    split
    next m2 hend =>
      have hloop := hloop.error m2 hend
      obtain ⟨hsp, hus⟩ := vmmDestroyAddressSpace_others (m := m2) hne
      exact ⟨hsp.trans ((hloop.1 k hne).trans hbegin.1), hus.trans ((congrFun hloop.2 k).trans hbegin.2)⟩
    next m2 hend =>
      have hloop := hloop.ok m2 hend
      exact ⟨(hloop.1 k hne).trans hbegin.1, (congrFun hloop.2 k).trans hbegin.2⟩

theorem ReadOnlyEntry.copy {pmm : Pmm} (h : ReadOnlyEntry (m.spaces s) t j)
    (hframe : pageNumber page ≠ 0) :
    ReadOnlyEntry ((copyEntry s d t j page pmm m).spaces d) t j := by
  have hpte : ((copyEntry s d t j page pmm m).spaces d).userTables t j =
      pageBase page ||| ((m.pte s t j &&& 0xfff) ||| pagePresent ||| pageUser) :=
    (pte_setPte _ d t j _ d t j).trans (if_pos ⟨rfl, rfl, rfl⟩)
  refine ⟨⟨?_, ?_, ?_, ?_⟩, ?_, ?_⟩
  · refine (setPte_tableUsed _ d t j _ d t).trans ?_
    rw [markTable_tableUsed]
    simp
  all_goals rw [hpte]
  · simp
  · simp
  · rw [pageNumber_userEntry page (m.pte s t j &&& 0xfff) (offset_lt _)]
    exact hframe
  · simp [h.write, Vmm.pte]
  · simp [h.cow, Vmm.pte]

/-- The new space has every read-only page of its source as a read-only page. -/
theorem vmmCloneAddressSpace_readOnly (hlive : m.spaceUsed s = true) (hro : ReadOnlyPage m s page)
    (hclone : vmmCloneAddressSpace m s = (some d, m')) :
    m'.spaceUsed d = true ∧ ReadOnlyPage m' d page := by
  obtain ⟨t, hslot, hentry⟩ := (readOnlyPage_iff hro.aligned).mp hro
  rw [readOnlyPage_iff hro.aligned]
  unfold vmmCloneAddressSpace at hclone
  split at hclone
  next => cases hclone
  next d' m1 hcreate =>
    have hc := vmmCreateAddressSpace_spec hcreate
    have hne := hc.ne hlive
    dsimp only at hclone
    split at hclone
    next => cases hclone
    next m2 hloop =>
      cases hclone
      have hsource :
          (m1.setSpace d { m1.spaces d with vmas := (m1.spaces s).vmas }).spaces s = m.spaces s :=
        (update_of_ne hne _ _).trans (hc.spaces s hne)
      refine ⟨?_, t, hslot, ?_⟩
      · rw [(cloneTables_only.ok m' hloop).2]
        exact (congrFun hc.used d).trans (update_self ..)
      · refine cloneLoop_reaches (fun m2 => m2.spaces s = m.spaces s)
          (fun m2 => ReadOnlyEntry (m2.spaces d) t (tableIndex page)) (userSlot_lt hslot)
            (tableIndex_lt page)
          (fun m2 h => by rw [h]; exact hentry.used) ?_ ?_ ?_ hsource hloop
        · intro u hu l hl _ m2 m3 h hrun
          rcases cloneEntry_ok hu hl hrun with ⟨-, rfl⟩ | ⟨a, p, -, -, rfl⟩
          · exact h
          · rw [copyEntry_spaces_ne hne]
            exact h
        · intro m2 m3 h hrun
          rw [← h] at hentry
          rcases cloneEntry_ok (userSlot_lt hslot) (tableIndex_lt page) hrun with ⟨habsent, -⟩ |
            ⟨a, p, -, ha, rfl⟩
          · cases habsent.symm.trans hentry.present
          · obtain ⟨f, hf, hnum, -, -⟩ := pmmAllocPage_spec ha
            have hpos := ((firstFree_eq_some _ _).mp hf).1
            exact hentry.copy (by omega)
        · intro u hu l hl hother m2 m3 h hrun
          rcases cloneEntry_ok hu hl hrun with ⟨-, rfl⟩ | ⟨a, p, -, -, rfl⟩
          · exact h
          · exact (h.markTable (m := { m2 with pmm := p })).setPte fun hc => hother
              ⟨hc.2.1.symm, hc.2.2.symm⟩

theorem ReadOnlyPage.step {op : CloneOp} (h : ReadOnlyPage m k page) (hlive : m.spaceUsed k = true)
    (hop : ∀ s, op ≠ .cloneCow s) (hstep : cloneStep m op = some m') :
    m'.spaceUsed k = true ∧ ReadOnlyPage m' k page := by
  cases op with
  | switchTo s =>
    simp only [cloneStep, Option.ite_none_right_eq_some, Option.some.injEq] at hstep
    obtain ⟨-, rfl⟩ := hstep
    exact ⟨hlive, h.aligned, h.mapped, h.write, h.cow⟩
  | fault error address cr2 =>
    have hf := toOption_eq_some hstep
    exact ⟨(congrFun (vmmPageFault_sameVmas hf).spaceUsed k).trans hlive, h.fault hf⟩
  | cloneCow s => exact absurd rfl (hop s)
  | clone s =>
    simp only [cloneStep, Option.ite_none_right_eq_some, Option.some.injEq] at hstep
    obtain ⟨-, rfl⟩ := hstep
    obtain ⟨hspace, hlive'⟩ := vmmCloneAddressSpace_live (s := s) hlive
    obtain ⟨t, hslot, hentry⟩ := (readOnlyPage_iff h.aligned).mp h
    refine ⟨hlive', (readOnlyPage_iff h.aligned).mpr ⟨t, hslot, ?_⟩⟩
    rw [hspace]
    exact hentry
  | validate s virt len write =>
    simp only [cloneStep, Option.ite_none_right_eq_some] at hstep
    obtain ⟨⟨r, m1⟩, hv, rfl⟩ := Option.map_eq_some_iff.mp hstep.2
    exact vmmValidateUserPtr_inv (fun m => m.spaceUsed k = true ∧ ReadOnlyPage m k page)
      (fun m m' error address hm hf =>
        ⟨(congrFun (vmmPageFault_sameVmas hf).spaceUsed k).trans hm.1, hm.2.fault hf⟩)
      ⟨hlive, h⟩ (toOption_eq_some hv)

theorem copying_clone_denies_write {ops : List CloneOp} {m'' : Vmm} (hlive : m.spaceUsed s = true)
    (hro : ReadOnlyPage m s page) (hclone : vmmCloneAddressSpace m s = (some d, m'))
    (hops : ∀ op ∈ ops, ∀ k, op ≠ .cloneCow k) (hrun : runs cloneStep m' ops = some m'') :
    WriteDenied m'' s page ∧ WriteDenied m'' d page := by
  have hstays : ∀ k, m'.spaceUsed k = true → ReadOnlyPage m' k page → WriteDenied m'' k page := by
    intro k hk hr
    exact (runs_inv_along (fun m => m.spaceUsed k = true ∧ ReadOnlyPage m k page)
      (fun _ _ _ h hop hs => h.2.step h.1 hop hs) ⟨hk, hr⟩
      (along_of_forall (C := fun _ op => ∀ k, op ≠ .cloneCow k) (fun op hop _ => hops op hop) m')
        hrun).2.denied
  obtain ⟨hspace, hlive'⟩ := vmmCloneAddressSpace_live (s := s) hlive
  rw [hclone] at hspace hlive'
  obtain ⟨t, hslot, hentry⟩ := (readOnlyPage_iff hro.aligned).mp hro
  have hsource : ReadOnlyPage m' s page :=
    (readOnlyPage_iff hro.aligned).mpr ⟨t, hslot, by rw [hspace]; exact hentry⟩
  obtain ⟨hd, hdest⟩ := vmmCloneAddressSpace_readOnly hlive hro hclone
  exact ⟨hstays s hlive' hsource, hstays d hd hdest⟩

theorem copying_clone_denies_write_text : ∃ d m' m'', vmmCloneAddressSpace textMachine 0 = (some d, m') ∧
    runs cloneStep m' [.switchTo (some 0), .clone 0] = some m'' ∧
    WriteDenied m'' 0 0x401000 ∧ WriteDenied m'' d 0x401000 := by
  have hd : (vmmCloneAddressSpace textMachine 0).1 = some 1 := by decide +kernel
  have hrun :
      (runs cloneStep (vmmCloneAddressSpace textMachine 0).2
        [.switchTo (some 0), .clone 0]).isSome = true := by
    decide +kernel
  generalize hclone : vmmCloneAddressSpace textMachine 0 = r at hd hrun
  obtain ⟨d, m'⟩ := r
  subst hd
  obtain ⟨m'', hm⟩ := Option.isSome_iff_exists.mp hrun
  exact ⟨1, m', m'', rfl, hm,
    copying_clone_denies_write (by decide +kernel) textMachine_readOnly hclone (by simp) hm⟩

end

end Ceblar
