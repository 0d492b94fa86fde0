import Ceblar.Mm.PmmInit
import Ceblar.Mm.ReadOnly
import Ceblar.Mm.Unmap

/-! # What every memory call keeps

Calls on the allocator, the page tables and the address spaces, with any arguments and in any order.
-/

namespace Ceblar

open Function

def Pmm.Clean (p : Pmm) : Prop := ∀ f, p.bitmap f = false → p.refs f = 0

section

variable {p p' : Pmm} {a : Word}

theorem Pmm.Clean.alloc (h : p.Clean) (ha : pmmAllocPage p = some (a, p')) : p'.Clean := by
  obtain ⟨f, -, -, -, rfl⟩ := pmmAllocPage_spec ha
  intro g hg
  by_cases hgf : g = f
  · simp [hgf] at hg
  · simp only [update_of_ne hgf] at hg ⊢
    exact h g hg

theorem Pmm.Clean.retain (h : p.Clean) (a : Word) : (pmmRetainPage p a).Clean := by
  unfold pmmRetainPage
  dsimp only
  split
  next huse =>
    intro g hg
    have hfree : p.bitmap g = false := hg
    have hne : g ≠ pageNumber a := by
      rintro rfl
      simp [Pmm.inUse, hfree] at huse
    simp only [update_of_ne hne]
    exact h g hfree
  next => exact h

theorem Pmm.Clean.free (h : p.Clean) (a : Word) : (pmmFreePage p a).Clean := by
  intro g hg
  by_cases hga : pageNumber a = g
  · subst hga
    revert hg
    unfold pmmFreePage
    dsimp only
    split
    next huse =>
      split
      next =>
        intro hfree
        change p.bitmap (pageNumber a) = false at hfree
        simp [Pmm.inUse, hfree] at huse
      next => simp
    next => exact h _
  · obtain ⟨hbit, hrefs⟩ := pmmFreePage_other p hga
    rw [hrefs]
    exact h g (hbit ▸ hg)

theorem Pmm.Clean.freeTables (h : p.Clean) (s : AddressSpace) : (freeTables s p).Clean := by
  refine forRange_inv (fun _ (q : Pmm) => q.Clean) 8 h fun t _ q hq => ?_
  split
  next =>
    refine forRange_inv (fun _ (q : Pmm) => q.Clean) 1024 hq fun j _ q hq => ?_
    split
    next => exact hq
    next => exact hq.free _
  next => exact hq

theorem Started.clean (h : Started p) : p.Clean := fun f _ => h.refs f

theorem alloc_ne_zero (ha : pmmAllocPage p = some (a, p')) : pageNumber a ≠ 0 := by
  obtain ⟨f, hf, hnum, -, -⟩ := pmmAllocPage_spec ha
  have := ((firstFree_eq_some p f).mp hf).1
  omega

end

/-! ## The machine -/

def Vmm.UserHalfFree (m : Vmm) : Prop := ∀ di, 1 ≤ di → di < 768 → m.kernelTables di = none

structure Vmm.Tidy (m : Vmm) : Prop where
  clean : m.pmm.Clean
  entries : ∀ k t j, bit (m.pte k t j) 0 = true → UserEntry (m.spaces k) t j
  window : (m.kernelFrame window).isSome = true
  userHalf : m.UserHalfFree

section

variable {m m' : Vmm} {i : Nat} {virt phys flags : Word} {p : Pmm} {d j s t : Nat} {page : Word}
variable {a error pages : Word} {v : Vma}

theorem Vmm.Tidy.congr (h : m.Tidy) (hclean : m'.pmm.Clean)
    (htables : ∀ k, (m'.spaces k).userTables = (m.spaces k).userTables)
    (hused : ∀ k, (m'.spaces k).tableUsed = (m.spaces k).tableUsed)
    (hwindow : (m'.kernelFrame Ceblar.window).isSome = true) (huser : m'.UserHalfFree) : m'.Tidy := by
  refine ⟨hclean, fun k t j hbit => ?_, hwindow, huser⟩
  rw [Vmm.pte, htables] at hbit
  obtain ⟨h1, h2, h3, h4⟩ := h.entries k t j hbit
  rw [← htables] at h2 h3 h4
  exact ⟨by rw [hused]; exact h1, h2, h3, h4⟩

theorem Vmm.Tidy.withPmm (h : m.Tidy) (hp : p.Clean) : { m with pmm := p }.Tidy :=
  h.congr hp (fun _ => rfl) (fun _ => rfl) h.window h.userHalf

theorem Vmm.Tidy.setSpace {s : AddressSpace} (h : m.Tidy)
    (htables : s.userTables = (m.spaces i).userTables)
    (hused : s.tableUsed = (m.spaces i).tableUsed) : (m.setSpace i s).Tidy := by
  refine h.congr h.clean (fun k => ?_) (fun k => ?_) h.window h.userHalf
  all_goals
    by_cases hk : k = i
    · subst hk
      simp [Vmm.setSpace, htables, hused]
    · simp [Vmm.setSpace, hk]

theorem Vmm.Tidy.setPte {w : Word} (h : m.Tidy)
    (hw : bit w 0 = true → (m.spaces i).tableUsed t = true ∧ bit w 2 = true ∧ pageNumber w ≠ 0) :
    (m.setPte i t j w).Tidy := by
  refine ⟨h.clean, fun k u l hbit => ?_, h.window, h.userHalf⟩
  have hpte := pte_setPte m i t j w k u l
  rw [hpte] at hbit
  unfold Vmm.pte at hpte
  split at hbit
  next hc =>
    obtain ⟨rfl, rfl, rfl⟩ := hc
    rw [if_pos ⟨rfl, rfl, rfl⟩] at hpte
    obtain ⟨h1, h2, h3⟩ := hw hbit
    exact ⟨by rw [setPte_tableUsed]; exact h1, by rw [hpte]; exact hbit, by rw [hpte]; exact h2,
      by rw [hpte]; exact h3⟩
  next hc =>
    rw [if_neg hc] at hpte
    obtain ⟨h1, h2, h3, h4⟩ := h.entries k u l hbit
    exact ⟨by rw [setPte_tableUsed]; exact h1, by rw [hpte]; exact h2, by rw [hpte]; exact h3,
      by rw [hpte]; exact h4⟩

theorem Vmm.Tidy.markTable (h : m.Tidy) (i t : Nat) : (m.markTable i t).Tidy := by
  refine ⟨h.clean, fun k u l hbit => ?_, h.window, h.userHalf⟩
  have hpte := pte_markTable m i t k u l
  rw [hpte] at hbit
  unfold Vmm.pte at hpte
  obtain ⟨h1, h2, h3, h4⟩ := h.entries k u l hbit
  refine ⟨?_, by rw [hpte]; exact h2, by rw [hpte]; exact h3, by rw [hpte]; exact h4⟩
  rw [markTable_tableUsed, h1, Bool.or_true]

theorem userEntry_ne_zero (flags : Word) (hphys : pageNumber phys ≠ 0) :
    pageNumber (pageBase phys ||| (flags ||| pagePresent ||| pageUser)) ≠ 0 := by
  rw [pageNumber_or, pageNumber_pageBase]
  intro hz
  exact hphys (Nat.or_eq_zero_iff.mp hz).1

theorem Vmm.Tidy.mapUser (h : m.Tidy) (hphys : pageNumber phys ≠ 0)
    (hmap : vmmMapUser m i virt phys flags = some m') : m'.Tidy := by
  unfold vmmMapUser at hmap
  obtain ⟨t, -, rfl⟩ := Option.map_eq_some_iff.mp hmap
  apply (h.markTable i t).setPte
  intro _
  refine ⟨?_, by simp, userEntry_ne_zero flags hphys⟩
  rw [markTable_tableUsed]
  simp

theorem Vmm.Tidy.unmapUser (h : m.Tidy) (hun : vmmUnmapUser m i virt = some m') : m'.Tidy := by
  unfold vmmUnmapUser at hun
  split at hun
  next => cases hun
  next t _ =>
    split at hun
    next =>
      dsimp only at hun
      split at hun
      next => cases hun
      next =>
        cases hun
        exact (h.withPmm (h.clean.free _)).setPte (by simp)
    next => cases hun

theorem Vmm.Tidy.unmapUserD (h : m.Tidy) (i : Nat) (virt : Word) :
    ((vmmUnmapUser m i virt).getD m).Tidy := by
  cases hun : vmmUnmapUser m i virt with
  | none => exact h
  | some m1 => exact h.unmapUser hun

theorem unmapBack_tidy (i : Nat) (base : Word) (n : Nat) (h : m.Tidy) : (unmapBack i base n m).Tidy := by
  induction n generalizing m with
  | zero => exact h
  | succ n ih => exact ih (h.unmapUserD i _)

theorem mapPages_tidy (i : Nat) (base flags : Word) (left done : Nat) (h : m.Tidy) :
    (mapPages i base flags done left m).2.Tidy := by
  induction left generalizing done m with
  | zero => exact h
  | succ left ih =>
    rw [mapPages]
    split
    next => exact unmapBack_tidy i base done h
    next page pmm ha =>
      have h1 := h.withPmm (h.clean.alloc ha)
      split
      next => exact unmapBack_tidy i base done (h.withPmm ((h.clean.alloc ha).free page))
      next m1 hmap => exact ih (done + 1) (h1.mapUser (alloc_ne_zero ha) hmap)

theorem vmmMapRange_tidy (h : m.Tidy) (i : Nat) (virt pages flags : Word) :
    (vmmMapRange m i virt pages flags).2.Tidy := by
  unfold vmmMapRange
  extract_lets s base stop
  split
  next => exact h
  next =>
    split
    next => exact h
    next =>
      split
      next => exact h
      next =>
        split
        next => exact h
        next slot _ =>
          have hloop := mapPages_tidy i base flags pages.toNat 0 h
          split
          next m1 hm1 =>
            rw [hm1] at hloop
            exact hloop
          next m1 hm1 =>
            rw [hm1] at hloop
            exact hloop.setSpace rfl rfl

theorem vmmMapLazyRange_tidy {base : Word} (h : m.Tidy)
    (hm : vmmMapLazyRange m i virt pages flags = some (base, m')) : m'.Tidy := by
  obtain ⟨slot, hl⟩ := vmmMapLazyRange_spec hm
  rw [hl.state]
  exact h.setSpace rfl rfl

theorem vmmUnmapRange_tidy (h : m.Tidy) (hu : vmmUnmapRange m i virt pages = some m') : m'.Tidy := by
  obtain ⟨slot, hun⟩ := vmmUnmapRange_spec hu
  rw [hun.state]
  have hpages : (unmapPages i virt pages.toNat m).Tidy :=
    forRange_inv (fun _ (m : Vmm) => m.Tidy) pages.toNat h fun k _ m1 h1 => h1.unmapUserD i _
  obtain ⟨htab, hused⟩ :=
    cutVma_tables ((unmapPages i virt pages.toNat m).spaces i) slot virt (virt + pages * 4096)
  exact hpages.setSpace htab hused

theorem vmmCreateAddressSpace_tidy (h : m.Tidy) (hc : vmmCreateAddressSpace m = some (d, m')) :
    m'.Tidy := by
  have hd := vmmCreateAddressSpace_spec hc
  refine ⟨by rw [hd.pmm]; exact h.clean, fun k t j hbit => ?_, ?_, ?_⟩
  · by_cases hk : k = d
    · rw [hk, hd.zero] at hbit
      simp at hbit
    · rw [Vmm.pte, hd.spaces k hk] at hbit
      rw [hd.spaces k hk]
      exact h.entries k t j hbit
  · rw [Vmm.kernelFrame, hd.kernelTables]
    exact h.window
  · unfold Vmm.UserHalfFree
    rw [hd.kernelTables]
    exact h.userHalf

theorem vmmDestroyAddressSpace_tidy (h : m.Tidy) (i : Nat) : (vmmDestroyAddressSpace m i).Tidy := by
  unfold vmmDestroyAddressSpace
  extract_lets s m1
  have h1 : m1.Tidy := h.setSpace rfl rfl
  split
  next => exact h
  next =>
    split
    next => exact h1
    next =>
      split
      next => exact h1.congr (h1.clean.freeTables s) (fun _ => rfl) (fun _ => rfl) h1.window h1.userHalf
      next => exact h1

/-- The new space begins with nothing mapped and the VMAs of its source. -/
theorem cloneBegin_tidy {v : Nat → Vma} (h : m.Tidy) (hc : vmmCreateAddressSpace m = some (d, m')) :
    (m'.setSpace d { m'.spaces d with vmas := v }).Tidy :=
  (vmmCreateAddressSpace_tidy h hc).setSpace rfl rfl

theorem cloneCowEntry_tidy (ht : t < 8) (hj : j < 1024) (h : m.Tidy) :
    ∃ m', cloneCowEntry s d t j m = .ok m' ∧ m'.Tidy := by
  unfold cloneCowEntry
  extract_lets pte va flags m1
  split
  next => exact ⟨m, rfl, h⟩
  next hpresent =>
    have hentry := h.entries s t j ((and_pagePresent _).mp hpresent)
    have h1 : m1.Tidy := by
      apply h.setPte
      intro _
      refine ⟨hentry.used, ?_, ?_⟩
      · have huser : bit pte 2 = true := hentry.user
        simp [flags, huser, bit_not]
      · exact (pageNumber_cowEntry pte).trans_ne hentry.frame
    rw [show vmmMapUser m1 d va (pageBase pte) flags = _ from vmmMapUser_entry m1 d ht hj _ _]
    refine ⟨_, rfl, ?_⟩
    have h2 :
        ((m1.markTable d t).setPte d t j
          (pageBase (pageBase pte) ||| (flags ||| pagePresent ||| pageUser))).Tidy := by
      apply (h1.markTable d t).setPte
      intro _
      refine ⟨by rw [markTable_tableUsed]; simp, by simp, userEntry_ne_zero flags ?_⟩
      rw [pageNumber_pageBase]
      exact hentry.frame
    exact h2.withPmm (h2.clean.retain _)

theorem vmmCloneAddressSpaceCow_tidy (h : m.Tidy) (s : Nat) : (vmmCloneAddressSpaceCow m s).2.Tidy := by
  unfold vmmCloneAddressSpaceCow
  split
  next => exact h
  next d m1 hc =>
    have hloop :
        ∃ m2, cloneCowTables s d (m1.setSpace d { m1.spaces d with vmas := (m1.spaces s).vmas }) =
          .ok m2 ∧
        m2.Tidy := by
      refine forRangeE_inv (fun _ (m : Vmm) => m.Tidy) 8 (cloneBegin_tidy h hc) fun t ht m2 h2 => ?_
      split
      next =>
        exact forRangeE_inv
          (fun _ (m : Vmm) => m.Tidy) 1024 h2 fun j hj m3 h3 => cloneCowEntry_tidy ht hj h3
      next => exact ⟨m2, rfl, h2⟩
    obtain ⟨m2, hrun, h2⟩ := hloop
    simp only [hrun]
    exact h2

theorem cloneEntry_tidy (ht : t < 8) (hj : j < 1024) (h : m.Tidy) :
    Exits Vmm.Tidy Vmm.Tidy (cloneEntry s d t j m) := by
  rw [cloneEntry_eq s d ht hj]
  split
  next => exact exits_ok h
  next =>
    split
    next => exact exits_error h
    next page pmm ha =>
      apply exits_ok
      have h1 : (({ m with pmm }.markTable d t).setPte d t j
          (pageBase page ||| ((m.pte s t j &&& 0xfff) ||| pagePresent ||| pageUser))).Tidy := by
        apply ((h.withPmm (h.clean.alloc ha)).markTable d t).setPte
        intro _
        refine ⟨by rw [markTable_tableUsed]; simp, by simp, userEntry_ne_zero _ (alloc_ne_zero ha)⟩
      exact h1.congr h1.clean (fun _ => rfl) (fun _ => rfl) h1.window h1.userHalf

theorem vmmCloneAddressSpace_tidy (h : m.Tidy) (s : Nat) : (vmmCloneAddressSpace m s).2.Tidy := by
  unfold vmmCloneAddressSpace
  split
  next => exact h
  next d m1 hc =>
    have hloop : Exits Vmm.Tidy Vmm.Tidy
        (cloneTables s d (m1.setSpace d { m1.spaces d with vmas := (m1.spaces s).vmas })) := by
      refine forRangeE_exits _ _ (fun t ht m2 h2 => ?_) (cloneBegin_tidy h hc)
      split
      next => exact forRangeE_exits _ _ (fun j hj m3 h3 => cloneEntry_tidy ht hj h3) h2
      next => exact exits_ok h2
    dsimp only
    split
    next m2 hend =>
      have h2 := vmmDestroyAddressSpace_tidy (hloop.error m2 hend) d
      exact h2.congr h2.clean (fun _ => rfl) (fun _ => rfl) h2.window h2.userHalf
    next m2 hend => exact hloop.ok m2 hend

theorem vmmMap_window (h : (m.kernelFrame window).isSome = true) :
    ((vmmMap m virt phys flags).kernelFrame window).isSome = true := by
  unfold vmmMap
  split
  next => exact h
  next table htable =>
    unfold Vmm.kernelFrame at h ⊢
    dsimp only
    by_cases hdir : dirIndex window = dirIndex virt
    · rw [hdir, htable] at h
      rw [hdir, update_self]
      dsimp only at h ⊢
      by_cases hti : tableIndex window = tableIndex virt
      · rw [hti, update_self, if_neg (by simp)]
        rfl
      · rw [update_of_ne hti]
        exact h
    · rw [update_of_ne hdir]
      exact h

theorem Vmm.UserHalfFree.map (h : m.UserHalfFree) (virt phys flags : Word) :
    (vmmMap m virt phys flags).UserHalfFree :=
  fun di h1 h2 => (kernelTables_vmmMap m virt phys flags di).mpr (h di h1 h2)

theorem demandFault_userHalf (h : m.UserHalfFree)
    (hf : demandFault m s page v = .ok m') : m'.UserHalfFree := by
  unfold demandFault at hf
  split at hf
  next => cases hf
  next newPage pmm _ =>
    obtain ⟨m1, hstore, hf⟩ := bind_eq_ok.mp hf
    have h1 : m1.UserHalfFree := by
      unfold Vmm.storeWindow at hstore
      split at hstore
      next => cases hstore
      next =>
        cases hstore
        exact h
    cases hf
    cases hmap :
      vmmMapUser (vmmMap m1 window newPage pageWrite) s page newPage (v.flags ||| pageWrite) with
    | none => exact h1.map _ _ _
    | some m2 =>
      unfold vmmMapUser at hmap
      obtain ⟨t, -, rfl⟩ := Option.map_eq_some_iff.mp hmap
      exact h1.map _ _ _

theorem cowFault_userHalf (h : m.UserHalfFree) (hf : cowFault m s error page = .ok m') :
    m'.UserHalfFree := by
  unfold cowFault at hf
  extract_lets t j pte at hf
  split at hf
  next =>
    split at hf
    next => cases hf
    next newPage pmm _ =>
      obtain ⟨m1, hload, hf⟩ := bind_eq_ok.mp hf
      obtain ⟨m2, hstore, hf⟩ := bind_eq_ok.mp hf
      have h1 : m1.UserHalfFree := by
        unfold Vmm.loadWindow at hload
        split at hload
        next => cases hload
        next =>
          cases hload
          exact Vmm.UserHalfFree.map (m := { m with pmm }) h _ _ _
      have h2 : m2.UserHalfFree := by
        unfold Vmm.storeWindow at hstore
        split at hstore
        next => cases hstore
        next =>
          cases hstore
          exact h1.map _ _ _
      cases hf
      exact h2.map _ _ _
  next => cases hf

theorem Demanded.tidy (h : m.Tidy)
    (hd : Demanded m s t page v a p m') (huser : m'.UserHalfFree) : m'.Tidy := by
  have h1 : ((m.markTable s t).setPte s t (tableIndex page)
      (pageBase a ||| (v.flags ||| pageWrite ||| pagePresent ||| pageUser))).Tidy := by
    apply (h.markTable s t).setPte
    intro _
    exact ⟨by rw [markTable_tableUsed]; simp, by simp, userEntry_ne_zero _ (alloc_ne_zero hd.alloc)⟩
  refine h1.congr ?_ (fun k => by rw [hd.spaces]) (fun k => by rw [hd.spaces]) hd.window huser
  rw [hd.pmm]
  exact (h.clean.alloc hd.alloc).free a

theorem Copied.tidy (h : m.Tidy) (hused : (m.spaces s).tableUsed (dirIndex page - 1) = true)
    (hc : Copied m s page a p m') (huser : m'.UserHalfFree) : m'.Tidy := by
  have h1 :
      (m.setPte s (dirIndex page - 1) (tableIndex page)
        (a ||| pagePresent ||| pageUser ||| pageWrite)).Tidy := by
    apply h.setPte
    intro _
    refine ⟨hused, by simp, ?_⟩
    rw [pageNumber_copyEntry]
    exact alloc_ne_zero hc.alloc
  refine h1.congr ?_ (fun k => by rw [hc.spaces]) (fun k => by rw [hc.spaces]) hc.window huser
  rw [hc.pmm]
  exact (h.clean.alloc hc.alloc).free _

theorem vmmPageFault_tidy {address cr2 : Word} (h : m.Tidy)
    (hf : vmmPageFault m error address cr2 = .ok m') :
    m'.Tidy := by
  obtain ⟨s, t, -, hslot, ⟨vi, -, -, hd⟩ | hc⟩ := vmmPageFault_inv hf
  · obtain ⟨a, p, hdem⟩ := demandFault_inv hslot hd
    exact hdem.tidy h (demandFault_userHalf h.userHalf hd)
  · obtain ⟨hguard, a, p, hcopy⟩ := cowFault_inv hc
    exact hcopy.tidy h hguard.2.2.1 (cowFault_userHalf h.userHalf hc)

end

/-! ## Any sequence of calls -/

inductive MmCall where
  | allocPage
  | retainPage (a : Word)
  | freePage (a : Word)
  | kernelMap (virt phys flags : Word)
  | create
  | retain (s : Nat)
  | destroy (s : Nat)
  | switchTo (s : Option Nat)
  | mapUser (s : Nat) (virt phys flags : Word)
  | unmapUser (s : Nat) (virt : Word)
  | mapRange (s : Nat) (virt pages flags : Word)
  | mapLazyRange (s : Nat) (virt pages flags : Word)
  | unmapRange (s : Nat) (virt pages : Word)
  | cloneCow (s : Nat)
  | clone (s : Nat)
  | fault (error address cr2 : Word)
  | validate (s : Nat) (virt len write : Word)

/-- One call. Nobody maps frame 0 for the user; `none` also stands for a panic. -/
def mmStep (m : Vmm) : MmCall → Option Vmm
  | .allocPage => some ((pmmAllocPage m.pmm).elim m fun r => { m with pmm := r.2 })
  | .retainPage a => some { m with pmm := pmmRetainPage m.pmm a }
  | .freePage a => some { m with pmm := pmmFreePage m.pmm a }
  | .kernelMap virt phys flags => some (vmmMap m virt phys flags)
  | .create => some ((vmmCreateAddressSpace m).elim m Prod.snd)
  | .retain s => some (vmmRetainAddressSpace m s)
  | .destroy s => some (vmmDestroyAddressSpace m s)
  | .switchTo s => some (vmmSwitchAddressSpace m s)
  | .mapUser s virt phys flags =>
    if pageNumber phys = 0 then none else some ((vmmMapUser m s virt phys flags).getD m)
  | .unmapUser s virt => some ((vmmUnmapUser m s virt).getD m)
  | .mapRange s virt pages flags => some (vmmMapRange m s virt pages flags).2
  | .mapLazyRange s virt pages flags => some ((vmmMapLazyRange m s virt pages flags).elim m Prod.snd)
  | .unmapRange s virt pages => some ((vmmUnmapRange m s virt pages).getD m)
  | .cloneCow s => some (vmmCloneAddressSpaceCow m s).2
  | .clone s => some (vmmCloneAddressSpace m s).2
  | .fault error address cr2 => (vmmPageFault m error address cr2).toOption
  | .validate s virt len write => (vmmValidateUserPtr m s virt len write).toOption.map Prod.snd

theorem mmStep_tidy {m m' : Vmm} {call : MmCall} (h : m.Tidy) (hs : mmStep m call = some m') :
    m'.Tidy := by
  cases call with
  | allocPage =>
    cases hs
    cases ha : pmmAllocPage m.pmm with
    | none => exact h
    | some r => exact h.withPmm (h.clean.alloc ha)
  | retainPage a =>
    cases hs
    exact h.withPmm (h.clean.retain a)
  | freePage a =>
    cases hs
    exact h.withPmm (h.clean.free a)
  | kernelMap virt phys flags =>
    cases hs
    refine h.congr ?_ (fun k => ?_) (fun k => ?_) (vmmMap_window h.window)
      (h.userHalf.map virt phys flags)
    · rw [vmmMap_pmm]
      exact h.clean
    · rw [vmmMap_spaces]
    · rw [vmmMap_spaces]
  | create =>
    cases hs
    cases hc : vmmCreateAddressSpace m with
    | none => exact h
    | some r => exact vmmCreateAddressSpace_tidy h hc
  | retain s =>
    cases hs
    exact h.setSpace rfl rfl
  | destroy s =>
    cases hs
    exact vmmDestroyAddressSpace_tidy h s
  | switchTo s =>
    cases hs
    exact h.congr h.clean (fun _ => rfl) (fun _ => rfl) h.window h.userHalf
  | mapUser s virt phys flags =>
    simp only [mmStep, Option.ite_none_left_eq_some, Option.some.injEq] at hs
    obtain ⟨hphys, rfl⟩ := hs
    cases hmap : vmmMapUser m s virt phys flags with
    | none => exact h
    | some m1 => exact h.mapUser hphys hmap
  | unmapUser s virt =>
    cases hs
    exact h.unmapUserD s virt
  | mapRange s virt pages flags =>
    cases hs
    exact vmmMapRange_tidy h s virt pages flags
  | mapLazyRange s virt pages flags =>
    cases hs
    cases hc : vmmMapLazyRange m s virt pages flags with
    | none => exact h
    | some r => exact vmmMapLazyRange_tidy h hc
  | unmapRange s virt pages =>
    cases hs
    cases hc : vmmUnmapRange m s virt pages with
    | none => exact h
    | some m1 => exact vmmUnmapRange_tidy h hc
  | cloneCow s =>
    cases hs
    exact vmmCloneAddressSpaceCow_tidy h s
  | clone s =>
    cases hs
    exact vmmCloneAddressSpace_tidy h s
  | fault error address cr2 => exact vmmPageFault_tidy h (toOption_eq_some hs)
  | validate s virt len write =>
    obtain ⟨⟨r, m1⟩, hv, rfl⟩ := Option.map_eq_some_iff.mp hs
    exact vmmValidateUserPtr_inv Vmm.Tidy (fun _ _ _ _ hm hf => vmmPageFault_tidy hm hf) h
      (toOption_eq_some hv)

theorem vmmInit_userHalfFree (m : Vmm) : (vmmInit m).UserHalfFree := by
  intro di h1 h2
  have hheap : dirIndex 0xd0000000 = 832 := by decide
  have hapic : dirIndex 0xfee00000 = 1019 := by decide
  simp only [vmmInit, bootTables, hheap, hapic]
  rw [if_neg (by omega), if_neg (by omega), if_neg (by omega)]

/-- Paging has just been set up, over an allocator in which no free frame has references. -/
def ColdStart (m : Vmm) : Prop := ∃ m₀, m = vmmInit m₀ ∧ m₀.pmm.Clean ∧ ∀ k t j, m₀.pte k t j = 0

theorem ColdStart.tidy {m : Vmm} (h : ColdStart m) : m.Tidy := by
  obtain ⟨m₀, rfl, hclean, hzero⟩ := h
  refine ⟨hclean, fun k t j hbit => ?_, rfl, vmmInit_userHalfFree m₀⟩
  have hpte : (vmmInit m₀).pte k t j = 0 := hzero k t j
  rw [hpte] at hbit
  simp at hbit

theorem coldMachine_coldStart : ColdStart coldMachine := ⟨_, rfl, fun _ _ => rfl, fun _ _ _ => rfl⟩

theorem tidy_of_calls {m₀ m : Vmm} {calls : List MmCall} (h0 : ColdStart m₀)
    (hrun : runs mmStep m₀ calls = some m) :
    m.Tidy :=
  runs_inv Vmm.Tidy (fun _ _ _ h hs => mmStep_tidy h hs) h0.tidy hrun

end Ceblar
