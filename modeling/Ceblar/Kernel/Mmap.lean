import Ceblar.Mm.Vma

/-! # `SYS_MMAP` and `SYS_MUNMAP` (`kernel/syscall.c`)

The two memory calls, and runs of them with faults, forks and pointer checks in between.
-/

namespace Ceblar

open Function

variable {m m' : Vmm} {k s : Nat} {op : MemOp}

/-- The number of pages that a length takes, `(b + PAGE_SIZE - 1) / PAGE_SIZE` in 32 bits. -/
def pagesOf (b : Word) : Word := (b + 4096 - 1) / 4096

/-- `mm`, the handler of `SYS_MMAP`, for a process with address space `s`; `none` is -1. -/
def Syscall.mm (m : Vmm) (s : Nat) (a b c : Word) : Option (Word × Vmm) :=
  if b = 0 then none
  else if a ≠ 0 ∧ a &&& 0xfff ≠ 0 then none
  else if pagesOf b = 0 ∨ 0x80000 < pagesOf b then none
  else vmmMapLazyRange m s a (pagesOf b) (c ||| pageWrite)

/-- `mu`, the handler of `SYS_MUNMAP`; `none` is -1. -/
def Syscall.mu (m : Vmm) (s : Nat) (a b : Word) : Option Vmm :=
  if b = 0 ∨ a &&& 0xfff ≠ 0 ∨ a < 0x400000 ∨ 0xc0000000 ≤ a then none
  else if pagesOf b = 0 ∨ 0x80000 < pagesOf b then none
  else vmmUnmapRange m s a (pagesOf b)

theorem Syscall.mm_spec {a b c base : Word} (h : Syscall.mm m s a b c = some (base, m')) :
    ∃ slot, LazyMapped m s (pagesOf b) (c ||| pageWrite) base slot m' := by
  simp only [Syscall.mm] at h
  split at h
  · simp at h
  · split at h
    · simp at h
    · split at h
      · simp at h
      · exact vmmMapLazyRange_spec h

theorem Syscall.mu_spec {a b : Word} (h : Syscall.mu m s a b = some m') :
    (pagesOf b).toNat ≤ 0x80000 ∧ ∃ slot, Unmapped m s a (pagesOf b) slot m' := by
  simp only [Syscall.mu] at h
  split at h
  · simp at h
  · split at h
    · simp at h
    · rename_i hpages
      refine ⟨?_, vmmUnmapRange_spec h⟩
      have hp : ¬ (0x80000 : Word) < pagesOf b := fun hp => hpages (Or.inr hp)
      rwa [BitVec.lt_def, show (0x80000 : Word).toNat = 0x80000 from rfl, Nat.not_lt] at hp

inductive MemOp where
  | create
  | destroy (s : Nat)
  | switchTo (s : Option Nat)
  | cloneCow (s : Nat)
  | mmap (s : Nat) (a b c : Word)
  | munmap (s : Nat) (a b : Word)
  | fault (error address cr2 : Word)
  | validate (s : Nat) (virt len write : Word)

def memStep (m : Vmm) : MemOp → Option Vmm
  | .create => some ((vmmCreateAddressSpace m).elim m Prod.snd)
  | .destroy s => if m.spaceUsed s then some (vmmDestroyAddressSpace m s) else none
  | .switchTo s => if s.all m.spaceUsed then some (vmmSwitchAddressSpace m s) else none
  | .cloneCow s => if m.spaceUsed s then some (vmmCloneAddressSpaceCow m s).2 else none
  | .mmap s a b c => if m.spaceUsed s then some ((Syscall.mm m s a b c).elim m Prod.snd) else none
  | .munmap s a b => if m.spaceUsed s then some ((Syscall.mu m s a b).getD m) else none
  | .fault error address cr2 => (vmmPageFault m error address cr2).toOption
  | .validate s virt len write => (vmmValidateUserPtr m s virt len write).toOption.map Prod.snd

theorem vmmValidateUserPtr_sameVmas {virt len write : Word} {r : Int}
    (h : vmmValidateUserPtr m s virt len write = .ok (r, m')) : SameVmas m m' :=
  vmmValidateUserPtr_inv (SameVmas m) (fun _ _ _ _ hm hf => hm.trans (vmmPageFault_sameVmas hf))
    (.refl m) h

/-! ## What one step can do -/

theorem vmmCloneAddressSpaceCow_sameVmas {m1 : Vmm} (s : Nat) {d : Nat}
    (hcreate : vmmCreateAddressSpace m = some (d, m1)) :
    SameVmas (m1.setSpace d { m1.spaces d with vmas := (m1.spaces s).vmas })
      (vmmCloneAddressSpaceCow m s).2 := by
  obtain ⟨m', hloop, h⟩ := cloneCowTables_inv
    (SameVmas (m1.setSpace d { m1.spaces d with vmas := (m1.spaces s).vmas }))
    (fun m i t j w hm => hm.trans (sameVmas_setPte m m.pmm i t j w))
    (fun m i t hm => hm.trans (sameVmas_markTable m i t))
    (fun m _ hm => hm.trans (sameVmas_pmm m _)) s d (.refl _)
  simp only [vmmCloneAddressSpaceCow, hcreate, hloop]
  exact h

/-- What `vmm_destroy_address_space` can do: it counts down, or it ends the space. -/
structure Destroyed (m : Vmm) (s : Nat) (m' : Vmm) : Prop where
  vmas : ∀ k, (m'.spaces k).vmas = (m.spaces k).vmas
  others : ∀ k, k ≠ s → m'.spaceUsed k = m.spaceUsed k
  live : ∀ k, m'.spaceUsed k = true → m.spaceUsed k = true
  kernelTables : m'.kernelTables = m.kernelTables
  current : ∀ k, m'.currentSpace = some k → m.currentSpace = some k ∧
    (k = s → m'.spaceUsed s = m.spaceUsed s)

theorem vmmDestroyAddressSpace_spec (m : Vmm) (s : Nat) : Destroyed m s (vmmDestroyAddressSpace m s) := by
  have hset : ∀ r k, ((m.setSpace s { m.spaces s with refs := r }).spaces k).vmas =
      (m.spaces k).vmas := by
    intro r k
    by_cases hk : k = s
    · subst hk
      simp [Vmm.setSpace]
    · simp [Vmm.setSpace, hk]
  unfold vmmDestroyAddressSpace
  extract_lets sp m1
  split
  · exact ⟨fun _ => rfl, fun _ _ => rfl, fun _ h => h, rfl, fun _ h => ⟨h, fun _ => rfl⟩⟩
  · split
    · exact ⟨hset _, fun _ _ => rfl, fun _ h => h, rfl, fun _ h => ⟨h, fun _ => rfl⟩⟩
    · split
      · refine ⟨hset _, fun k hk => update_of_ne hk _ _, fun k hk => ?_, rfl, fun k hk => ?_⟩
        · by_cases hks : k = s
          · simp [hks] at hk
          · simp only [update_of_ne hks] at hk
            exact hk
        · simp only at hk
          split at hk <;> rename_i hcur
          · simp at hk
          · exact ⟨hk, fun hks => absurd (hks ▸ hk) hcur⟩
      · exact ⟨hset _, fun _ _ => rfl, fun _ h => h, rfl, fun _ h => ⟨h, fun _ => rfl⟩⟩

inductive MemStep (m : Vmm) : MemOp → Vmm → Prop where
  | refused (op : MemOp) : MemStep m op m
  | create {d : Nat} {m' : Vmm} : Created m d m' → MemStep m .create m'
  | destroy {s : Nat} {m' : Vmm} : Destroyed m s m' → MemStep m (.destroy s) m'
  | switchTo {s : Option Nat} : s.all m.spaceUsed = true →
    MemStep m (.switchTo s) (vmmSwitchAddressSpace m s)
  | cloneCow {s d : Nat} {m1 m' : Vmm} : m.spaceUsed s = true → Created m d m1 →
    SameVmas (m1.setSpace d { m1.spaces d with vmas := (m1.spaces s).vmas }) m' →
    MemStep m (.cloneCow s) m'
  | mmap {s slot : Nat} {a b c base : Word} {m' : Vmm} : m.spaceUsed s = true →
    LazyMapped m s (pagesOf b) (c ||| pageWrite) base slot m' → MemStep m (.mmap s a b c) m'
  | munmap {s slot : Nat} {a b : Word} {m' : Vmm} : m.spaceUsed s = true → (pagesOf b).toNat ≤ 0x80000 →
    Unmapped m s a (pagesOf b) slot m' → MemStep m (.munmap s a b) m'
  | fault {error address cr2 : Word} {m' : Vmm} : SameVmas m m' → MemStep m (.fault error address cr2) m'
  | validate {s : Nat} {virt len write : Word} {m' : Vmm} : SameVmas m m' →
    MemStep m (.validate s virt len write) m'

theorem memStep_inv (hstep : memStep m op = some m') : MemStep m op m' := by
  cases op with
  | create =>
    simp only [memStep, Option.some.injEq] at hstep
    subst hstep
    cases hc : vmmCreateAddressSpace m with
    | none => exact .refused _
    | some r => exact .create (vmmCreateAddressSpace_spec hc)
  | destroy s =>
    simp only [memStep, Option.ite_none_right_eq_some, Option.some.injEq] at hstep
    obtain ⟨-, rfl⟩ := hstep
    exact .destroy (vmmDestroyAddressSpace_spec m s)
  | switchTo s =>
    simp only [memStep, Option.ite_none_right_eq_some, Option.some.injEq] at hstep
    obtain ⟨hs, rfl⟩ := hstep
    exact .switchTo hs
  | cloneCow s =>
    simp only [memStep, Option.ite_none_right_eq_some, Option.some.injEq] at hstep
    obtain ⟨hs, rfl⟩ := hstep
    cases hc : vmmCreateAddressSpace m with
    | none =>
      simp only [vmmCloneAddressSpaceCow, hc]
      exact .refused _
    | some r =>
      exact .cloneCow hs (vmmCreateAddressSpace_spec hc) (vmmCloneAddressSpaceCow_sameVmas s hc)
  | mmap s a b c =>
    simp only [memStep, Option.ite_none_right_eq_some, Option.some.injEq] at hstep
    obtain ⟨hs, rfl⟩ := hstep
    cases hm : Syscall.mm m s a b c with
    | none => exact .refused _
    | some r =>
      obtain ⟨slot, hl⟩ := Syscall.mm_spec hm
      exact .mmap hs hl
  | munmap s a b =>
    simp only [memStep, Option.ite_none_right_eq_some, Option.some.injEq] at hstep
    obtain ⟨hs, rfl⟩ := hstep
    cases hm : Syscall.mu m s a b with
    | none => exact .refused _
    | some m1 =>
      obtain ⟨hpages, slot, hu⟩ := Syscall.mu_spec hm
      exact .munmap hs hpages hu
  | fault error address cr2 =>
    simp only [memStep] at hstep
    cases hf : vmmPageFault m error address cr2 with
    | error e => simp [hf, Except.toOption] at hstep
    | ok m1 =>
      simp only [hf, Except.toOption, Option.some.injEq] at hstep
      subst hstep
      exact .fault (vmmPageFault_sameVmas hf)
  | validate s virt len write =>
    simp only [memStep] at hstep
    cases hv : vmmValidateUserPtr m s virt len write with
    | error e => simp [hv, Except.toOption] at hstep
    | ok r =>
      simp only [hv, Except.toOption, Option.map_some, Option.some.injEq] at hstep
      subst hstep
      exact .validate (vmmValidateUserPtr_sameVmas hv)

theorem MemStep.live (h : MemStep m op m')
    (hk : m.spaceUsed k = true) (hop : op ≠ .destroy k) : m'.spaceUsed k = true := by
  have hcreated : ∀ {d m1}, Created m d m1 → m1.spaceUsed k = true := by
    intro d m1 hd
    rw [hd.used, update_of_ne (hd.ne hk)]
    exact hk
  cases h with
  | refused => exact hk
  | create hd => exact hcreated hd
  | destroy hd => rw [hd.others k (by rintro rfl; exact hop rfl)]; exact hk
  | switchTo _ => exact hk
  | cloneCow _ hd hsame =>
    have h1 := hcreated hd
    exact (congrFun hsame.spaceUsed k).trans h1
  | mmap _ hl => rw [hl.onlySpace.spaceUsed]; exact hk
  | munmap _ _ hu => rw [hu.onlySpace.spaceUsed]; exact hk
  | fault hsame => rw [hsame.spaceUsed]; exact hk
  | validate hsame => rw [hsame.spaceUsed]; exact hk

inductive VmaStep (m m' : Vmm) (k : Nat) : MemOp → Prop where
  | same {op : MemOp} : m.spaceUsed k = true → (m'.spaces k).vmas = (m.spaces k).vmas → VmaStep m m' k op
  | mmap {a b c base : Word} {slot : Nat} : m.spaceUsed k = true →
    LazyMapped m k (pagesOf b) (c ||| pageWrite) base slot m' → VmaStep m m' k (.mmap k a b c)
  | munmap {a b : Word} {slot : Nat} : m.spaceUsed k = true → (pagesOf b).toNat ≤ 0x80000 →
    Unmapped m k a (pagesOf b) slot m' → VmaStep m m' k (.munmap k a b)
  | fresh : m.spaceUsed k = false → (∀ v, ((m'.spaces k).vmas v).used = false) → VmaStep m m' k .create
  | copy {s : Nat} : m.spaceUsed k = false → m.spaceUsed s = true →
    (m'.spaces k).vmas = (m.spaces s).vmas → VmaStep m m' k (.cloneCow s)

theorem SameVmas.vmaStep (h : SameVmas m m') (hk : m'.spaceUsed k = true) : VmaStep m m' k op :=
  .same (by rw [← h.spaceUsed]; exact hk) (h.vmas k)

theorem OnlySpace.vmaStep (h : OnlySpace s m m') (hks : k ≠ s)
    (hk : m'.spaceUsed k = true) : VmaStep m m' k op :=
  .same (by rw [← h.spaceUsed]; exact hk) (by rw [h.spaces k hks])

theorem MemStep.vmas (h : MemStep m op m') (hk : m'.spaceUsed k = true) : VmaStep m m' k op := by
  cases h with
  | refused => exact .same hk rfl
  | @create d _ hd =>
    by_cases hkd : k = d
    · subst hkd
      exact .fresh hd.free hd.vmas
    · rw [hd.used, update_of_ne hkd] at hk
      exact .same hk (by rw [hd.spaces k hkd])
  | destroy hd => exact .same (hd.live k hk) (hd.vmas k)
  | switchTo _ => exact .same hk rfl
  | @cloneCow s d _ _ hs hd hsame =>
    rw [hsame.spaceUsed] at hk
    by_cases hkd : k = d
    · subst hkd
      refine .copy hd.free hs ?_
      rw [hsame.vmas]
      simp [Vmm.setSpace, hd.spaces s (hd.ne hs)]
    · refine .same ?_ ?_
      · simpa [Vmm.setSpace, hd.used, hkd] using hk
      · rw [hsame.vmas]
        simp [Vmm.setSpace, hkd, hd.spaces k hkd]
  | @mmap s _ _ _ _ _ _ hs hl =>
    by_cases hks : k = s
    · subst hks
      exact .mmap hs hl
    · exact hl.onlySpace.vmaStep hks hk
  | @munmap s _ _ _ _ hs hpages hu =>
    by_cases hks : k = s
    · subst hks
      exact .munmap hs hpages hu
    · exact hu.onlySpace.vmaStep hks hk
  | fault hsame => exact hsame.vmaStep hk
  | validate hsame => exact hsame.vmaStep hk

/-! ## The flags word and the frame it maps -/

def MemOp.KeepsPage (s : Nat) (page : Word) : MemOp → Prop
  | .destroy s' => s' ≠ s
  | .munmap s' a b => s' = s → page.toNat < a.toNat ∨ a.toNat + 4096 * (pagesOf b).toNat ≤ page.toNat
  | _ => True

theorem LazyMapped.covers {slot : Nat} {pages flags base page : Word}
    (h : LazyMapped m s pages flags base slot m') (hlow : base.toNat ≤ page.toNat)
    (hhigh : page.toNat < base.toNat + 4096 * pages.toNat) : CoveredBy (m'.spaces s) page flags := by
  have hnew : (⟨base, base + pages * 4096, flags, true⟩ : Vma).Covers page :=
    ⟨rfl, hlow, by simp only [h.stop_eq]; exact hhigh⟩
  rw [h.state]
  simp only [Vmm.setSpace, update_self]
  refine coveredBy_insert h.slot_lt hnew fun k hk hcov => ?_
  have := vmaOverlaps_eq_false h.apart hk hcov.1
  have := hcov.2
  have := hnew.2
  simp only at this
  omega

theorem CoveredBy.memStep {page flags : Word} (h : CoveredBy (m.spaces s) page flags)
    (hlive : m.spaceUsed s = true) (hkeep : op.KeepsPage s page) (hstep : memStep m op = some m') :
    m'.spaceUsed s = true ∧ CoveredBy (m'.spaces s) page flags := by
  have hlive' : m'.spaceUsed s = true := by
    refine (memStep_inv hstep).live hlive ?_
    rintro rfl
    exact hkeep rfl
  refine ⟨hlive', ?_⟩
  cases (memStep_inv hstep).vmas hlive' with
  | same _ hvmas => exact h.congr hvmas
  | mmap _ hl =>
    rw [hl.state]
    simp only [Vmm.setSpace, update_self]
    refine h.insert hl.free fun hcov => ?_
    obtain ⟨i, hi, hicov, -⟩ := h
    have := vmaOverlaps_eq_false hl.apart hi hicov.1
    have := hicov.2
    have := hcov.2
    simp only at this
    omega
  | munmap _ hpages hu =>
    obtain ⟨u, hvmas, hspace⟩ := hu.exists_cut
    have hstop := toNat_rangeEnd (by omega) hu.forward
    rw [hspace]
    refine (h.congr hvmas).cut hu.slot_lt ?_ ?_ ?_ (by omega) ?_
    · rw [hvmas]; exact hu.used
    · rw [hvmas]; exact hu.start_le
    · rw [hvmas]; exact hu.le_stop
    · rw [hstop]
      exact hkeep rfl
  | fresh hdead _ => simp [hlive] at hdead
  | copy hdead _ _ => simp [hlive] at hdead

theorem pageNumber_or_pageWrite (c : Word) : pageNumber (c ||| pageWrite) = pageNumber c := by
  rw [pageNumber_or, show pageNumber pageWrite = 0 by decide, Nat.or_zero]

/-- The fault from `m` to `m'` on `page`, mapped with flags word `c`, takes frame `f`. The frame of
the new entry is `f` if the fault copies a shared page, and otherwise exactly if the frame bits of
`c` are among the bits of `f`. -/
structure FaultFrame (m m' : Vmm) (s t : Nat) (page c : Word) (f : Nat) : Prop where
  slot : userSlot page = some t
  taken : m.pmm.firstFree = some f
  handed : m'.pmm.handed = f :: m.pmm.handed
  frame_iff : pageNumber (m'.pte s t (tableIndex page)) = f ↔
    vmmGetUserPhysical (m.spaces s) page ≠ 0 ∨ f ||| pageNumber c = f

/-- Whatever happens between `SYS_MMAP` and a fault on a page that it gave out, the flags word
decides which frame the fault maps. -/
theorem mmap_frame_iff (m m1 m2 m3 : Vmm) (s : Nat) (a b c base : Word) (ops : List MemOp)
    (error address cr2 : Word) (hlive : m.spaceUsed s = true)
    (hmm : Syscall.mm m s a b c = some (base, m1))
    (hlow : base.toNat ≤ (faultPage address cr2).toNat)
    (hhigh : (faultPage address cr2).toNat < base.toNat + 4096 * (pagesOf b).toNat)
    (hkeep : ∀ op ∈ ops, op.KeepsPage s (faultPage address cr2)) (hrun : runs memStep m1 ops = some m2)
    (hcur : m2.currentSpace = some s) (hfault : vmmPageFault m2 error address cr2 = .ok m3) :
    ∃ f t, FaultFrame m2 m3 s t (faultPage address cr2) c f := by
  obtain ⟨slot, hl⟩ := Syscall.mm_spec hmm
  have hlive1 : m1.spaceUsed s = true := by
    rw [hl.onlySpace.spaceUsed]
    exact hlive
  -- The VMA around the page keeps its flags up to the fault.
  obtain ⟨-, hcov⟩ := runs_inv_along
    (fun m => m.spaceUsed s = true ∧ CoveredBy (m.spaces s) (faultPage address cr2) (c ||| pageWrite))
    (fun _ _ _ h hC hstep => h.2.memStep h.1 hC hstep) ⟨hlive1, hl.covers hlow hhigh⟩
    (along_of_forall (C := fun _ op => op.KeepsPage s (faultPage address cr2))
      (fun op hop _ => hkeep op hop) m1) hrun
  obtain ⟨vi, hvi, hflags⟩ := hcov.vmaAt
  obtain ⟨s', t, hcur', hslot, hbranch⟩ := vmmPageFault_inv hfault
  rw [hcur, Option.some.injEq] at hcur'
  subst hcur'
  by_cases hphys : vmmGetUserPhysical (m2.spaces s) (faultPage address cr2) = 0
  · rw [vmmPageFault_demand hcur hslot hvi hphys] at hfault
    obtain ⟨a', p, hd⟩ := demandFault_inv hslot hfault
    obtain ⟨f, hf, rfl, -, hp⟩ := pmmAllocPage_spec hd.alloc
    refine ⟨pageNumber a', t, hslot, hf, ?_, ?_⟩
    · rw [hd.pmm, pmmFreePage_handed, hp]
    · rw [hd.frame, hflags, pageNumber_or_pageWrite]
      simp [hphys]
  · have hc : cowFault m2 s error (faultPage address cr2) = .ok m3 := by
      rcases hbranch with ⟨vi', -, hz, -⟩ | hc
      · exact absurd hz hphys
      · exact hc
    obtain ⟨-, a', p, hcopy⟩ := cowFault_inv hc
    obtain ⟨f, hf, rfl, -, hp⟩ := pmmAllocPage_spec hcopy.alloc
    refine ⟨pageNumber a', t, hslot, hf, ?_, ?_⟩
    · rw [hcopy.pmm, pmmFreePage_handed, hp]
    · rw [hcopy.frame hslot]
      exact ⟨fun _ => Or.inl hphys, fun _ => rfl⟩

/-- One page at 4 MiB with plain flags, faulted in at once. -/
theorem mmap_frame_iff_user :
    ∃ m1 m3 f t, Syscall.mm userMachine 0 0x400000 4096 0 = some (0x400000, m1) ∧
    vmmPageFault m1 4 0x400000 0 = .ok m3 ∧ FaultFrame m1 m3 0 t (faultPage 0x400000 0) 0 f := by
  have hbase : (Syscall.mm userMachine 0 0x400000 4096 0).map Prod.fst = some 0x400000 := by
    decide +kernel
  have hcur : (Syscall.mm userMachine 0 0x400000 4096 0).map (fun r => r.2.currentSpace) =
      some (some 0) := by
    decide +kernel
  have hok : ((Syscall.mm userMachine 0 0x400000 4096 0).bind fun r =>
      (vmmPageFault r.2 4 0x400000 0).toOption).isSome = true := by decide +kernel
  cases hmm : Syscall.mm userMachine 0 0x400000 4096 0 with
  | none =>
    rw [hmm] at hbase
    simp at hbase
  | some r =>
    obtain ⟨base, m1⟩ := r
    rw [hmm] at hbase hcur hok
    simp only [Option.map_some, Option.some.injEq] at hbase hcur
    subst hbase
    cases hf : vmmPageFault m1 4 0x400000 0 with
    | error e =>
      simp only [Option.bind_some] at hok
      rw [hf] at hok
      simp [Except.toOption] at hok
    | ok m3 =>
      obtain ⟨f, t, h⟩ := mmap_frame_iff userMachine m1 m1 m3 0 0x400000 4096 0 0x400000 [] 4 0x400000 0
        (by decide +kernel) hmm (by decide) (by decide) (by simp) rfl hcur hf
      exact ⟨m1, m3, f, t, rfl, hf, h⟩

/-- With `c = 0x100000` the fault is given frame 1 and maps frame 0x101, which is the kernel's. -/
theorem mmap_maps_chosen_frame :
    (do let (base, m1) ← Syscall.mm userMachine 0 0x400000 4096 0x100000
        let m3 ← (vmmPageFault m1 4 base 0).toOption
        pure (m1.pmm.firstFree, pageNumber (m3.pte 0 0 0))) = some (some 1, 0x101) := by
  decide +kernel

end Ceblar
