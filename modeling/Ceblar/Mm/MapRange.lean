import Ceblar.Mm.Tidy

/-! # Mapping a range: all of it or nothing

When `vmm_map_range` runs out of frames or of tables, each step of its roll-back undoes one of its
own.
-/

namespace Ceblar

open Function

structure SameMemory (m m' : Vmm) : Prop where
  translation : ∀ k a, vmmGetUserPhysical (m'.spaces k) a = vmmGetUserPhysical (m.spaces k) a
  vmas : ∀ k, (m'.spaces k).vmas = (m.spaces k).vmas
  bitmap : m'.pmm.bitmap = m.pmm.bitmap
  refs : m'.pmm.refs = m.pmm.refs
  used : m'.pmm.used = m.pmm.used

def Vmm.frameOf (m : Vmm) (i : Nat) (a : Word) : Nat := pageNumber (vmmGetUserPhysical (m.spaces i) a)

/-- The pages from `base` on, and nothing else, became present, each on a frame of its own that was
free, and one VMA was added for them. -/
structure RangeMapped (m : Vmm) (i : Nat) (base pages flags : Word) (m' : Vmm) : Prop where
  fits : base.toNat % 4096 = 0 ∧ 0x400000 ≤ base.toNat ∧ base.toNat + 4096 * pages.toNat ≤ 0xc0000000
  absent : ∀ a, InRange base pages a → vmmGetUserPhysical (m.spaces i) a = 0
  present : ∀ a, InRange base pages a → vmmGetUserPhysical (m'.spaces i) a ≠ 0
  free : ∀ a, InRange base pages a → m.pmm.bitmap (m'.frameOf i a) = false
  distinct : ∀ a b, InRange base pages a → InRange base pages b →
    (m'.frameOf i a = m'.frameOf i b ↔ pageNumber a = pageNumber b)
  others : ∀ k a, (k = i → ¬ InRange base pages a) →
    vmmGetUserPhysical (m'.spaces k) a = vmmGetUserPhysical (m.spaces k) a
  vma : ∃ slot < 64, ((m.spaces i).vmas slot).used = false ∧
    (m'.spaces i).vmas = update (m.spaces i).vmas slot
      { start := base, stop := base + pages * 4096, flags := flags, used := true }
  otherVmas : ∀ k, k ≠ i → (m'.spaces k).vmas = (m.spaces k).vmas

/-! ## The entry of an address -/

def Vmm.lookup (m : Vmm) (k : Nat) (a : Word) : Option Word :=
  (userSlot a).bind fun t =>
    if bit (m.pte k t (tableIndex a)) 0 then some (m.pte k t (tableIndex a)) else none

section

variable {m m' m₀ : Vmm} {i k : Nat} {a b base flags w : Word} {pages phys virt : Word}

theorem lookup_eq_some : m.lookup k a = some w ↔
    ∃ t, userSlot a = some t ∧ m.pte k t (tableIndex a) = w ∧ bit w 0 = true := by
  unfold Vmm.lookup
  rw [Option.bind_eq_some_iff]
  refine exists_congr fun t => and_congr_right fun _ => ?_
  split
  next h =>
    rw [Option.some.injEq]
    exact ⟨fun hw => ⟨hw, hw ▸ h⟩, fun hw => hw.1⟩
  next h => exact ⟨nofun, fun hw => absurd (hw.1 ▸ hw.2) h⟩

theorem lookup_page (h : pageNumber a = pageNumber b) : m.lookup k a = m.lookup k b := by
  obtain ⟨hslot, hindex⟩ := userSlot_page h
  unfold Vmm.lookup
  rw [hslot, hindex]

theorem Absent.lookup (h : Absent m i a) : m.lookup i a = none := by
  rw [Option.eq_none_iff_forall_ne_some]
  intro w hw
  obtain ⟨t, hslot, rfl, hbit⟩ := lookup_eq_some.mp hw
  rw [h t hslot] at hbit
  cases hbit

theorem lookup_setPte {t : Nat} (hb : userSlot b = some t) (p : Pmm) (i : Nat) (w : Word) (k : Nat)
    (a : Word) :
    ({ m with pmm := p }.setPte i t (tableIndex b) w).lookup k a =
      if k = i ∧ pageNumber a = pageNumber b then (if bit w 0 then some w else none)
      else m.lookup k a := by
  unfold Vmm.lookup
  cases ha : userSlot a with
  | none =>
    rw [if_neg]
    · rfl
    · rintro ⟨-, hp⟩
      rw [(userSlot_page hp).1, hb] at ha
      cases ha
  | some u =>
    simp only [Option.bind_some, pte_setPte]
    by_cases hc : k = i ∧ pageNumber a = pageNumber b
    · obtain ⟨hslot, hindex⟩ := userSlot_page hc.2
      rw [ha, hb, Option.some.injEq] at hslot
      simp only [hslot, hindex, hc.1, hc.2, and_self, if_true]
    · have hne : ¬ (k = i ∧ u = t ∧ tableIndex a = tableIndex b) := by
        rintro ⟨hk, rfl, hindex⟩
        exact hc ⟨hk, page_of_slot ha hb hindex⟩
      simp only [if_neg hc, if_neg hne]
      rfl

theorem lookup_mapUser (h : vmmMapUser m i virt phys flags = some m') (k : Nat) (a : Word) :
    m'.lookup k a = if k = i ∧ pageNumber a = pageNumber virt
      then some (pageBase phys ||| (flags ||| pagePresent ||| pageUser)) else m.lookup k a := by
  unfold vmmMapUser at h
  obtain ⟨t, ht, rfl⟩ := Option.map_eq_some_iff.mp h
  have hset := lookup_setPte (m := m.markTable i t) ht m.pmm i
    (pageBase phys ||| (flags ||| pagePresent ||| pageUser)) k a
  have hmark : (m.markTable i t).lookup k a = m.lookup k a := by
    unfold Vmm.lookup
    simp only [pte_markTable]
  rw [hmark] at hset
  refine hset.trans ?_
  simp

theorem physical_eq (h : m.Tidy) (k : Nat) (a : Word) :
    vmmGetUserPhysical (m.spaces k) a =
      (m.lookup k a).elim 0 fun pte => pageBase pte ||| (a &&& 0xfff) := by
  unfold vmmGetUserPhysical Vmm.lookup
  cases hslot : userSlot a with
  | none => rfl
  | some t =>
    rw [Option.bind_some]
    by_cases hbit : bit (m.pte k t (tableIndex a)) 0 = true
    · obtain ⟨hused, hpresent, huser, -⟩ := h.entries k t (tableIndex a) hbit
      rw [if_pos hbit]
      simp only [hused, if_true]
      rw [if_neg (by simp [hpresent, huser])]
      rfl
    · have hbit' : bit ((m.spaces k).userTables t (tableIndex a)) 0 = false :=
        (Bool.not_eq_true _).mp hbit
      rw [if_neg hbit]
      simp [hbit']

theorem frameOf_eq (h : m.Tidy) (hl : m.lookup k a = some w) :
    m.frameOf k a = pageNumber w ∧ pageNumber w ≠ 0 := by
  obtain ⟨t, -, rfl, hbit⟩ := lookup_eq_some.mp hl
  refine ⟨?_, (h.entries k t (tableIndex a) hbit).frame⟩
  rw [Vmm.frameOf, physical_eq h, hl]
  exact pageNumber_base_or _ _ (offset_lt a)

theorem physical_eq_zero (h : m.Tidy) : vmmGetUserPhysical (m.spaces k) a = 0 ↔ m.lookup k a = none := by
  constructor
  · intro hz
    rw [Option.eq_none_iff_forall_ne_some]
    intro w hw
    obtain ⟨hframe, hne⟩ := frameOf_eq h hw
    rw [Vmm.frameOf, hz] at hframe
    exact hne hframe.symm
  · intro hn
    rw [physical_eq h, hn]
    rfl

/-! ## A page taken and given back -/

theorem alloc_free {p p' : Pmm} (h : p.Clean) (ha : pmmAllocPage p = some (a, p')) :
    pmmFreePage p' a = { p with handed := p'.handed } := by
  obtain ⟨f, hf, hnum, -, rfl⟩ := pmmAllocPage_spec ha
  obtain ⟨h0, ht, hfree, -⟩ := (firstFree_eq_some p f).mp hf
  have hbit : update p.bitmap f false = p.bitmap := by
    rw [← hfree]
    exact update_eq_self _ _
  have hrefs : p.refs f = 0#16 := h f hfree
  simp [pmmFreePage, hnum, Pmm.inUse, h0, ht, hbit, hrefs]

theorem free_handed (p : Pmm) (log : List Nat) (a : Word) :
    pmmFreePage { p with handed := log } a = { pmmFreePage p a with handed := log } := by
  have hin : ({ p with handed := log } : Pmm).inUse (pageNumber a) = p.inUse (pageNumber a) := rfl
  unfold pmmFreePage
  simp only [hin]
  by_cases huse : p.inUse (pageNumber a) = true
  · by_cases hrefs : 1 < p.refs (pageNumber a)
    · simp only [if_pos huse, if_pos hrefs]
    · simp only [if_pos huse, if_neg hrefs]
  · simp only [if_neg huse]

structure Alike (m m' : Vmm) : Prop where
  lookup : ∀ k a, m'.lookup k a = m.lookup k a
  vmas : ∀ k, (m'.spaces k).vmas = (m.spaces k).vmas
  pmm : m'.pmm = { m.pmm with handed := m'.pmm.handed }

theorem Alike.refl (m : Vmm) : Alike m m := ⟨fun _ _ => rfl, fun _ => rfl, rfl⟩

theorem Alike.trans {m1 m2 m3 : Vmm} (h : Alike m1 m2) (h' : Alike m2 m3) : Alike m1 m3 where
  lookup k a := (h'.lookup k a).trans (h.lookup k a)
  vmas k := (h'.vmas k).trans (h.vmas k)
  pmm := by
    have h2 := h'.pmm
    rw [h.pmm] at h2
    exact h2

theorem Alike.sameMemory (h : Alike m m') (hm : m.Tidy) (hm' : m'.Tidy) : SameMemory m m' where
  translation k a := by rw [physical_eq hm, physical_eq hm', h.lookup]
  vmas := h.vmas
  bitmap := by rw [h.pmm]
  refs := by rw [h.pmm]
  used := by rw [h.pmm]

def unmapEntry (m : Vmm) (i : Nat) (a pte : Word) : Vmm :=
  { m with pmm := pmmFreePage m.pmm (pageBase pte) }.setPte i (dirIndex a - 1) (tableIndex a) 0

theorem unmapEntry_pmm (m : Vmm) (i : Nat) (a pte : Word) :
    (unmapEntry m i a pte).pmm = pmmFreePage m.pmm (pageBase pte) := rfl

theorem vmmUnmapUser_eq (h : m.Tidy) (i : Nat) (a : Word) :
    vmmUnmapUser m i a = (m.lookup i a).map (unmapEntry m i a) := by
  unfold vmmUnmapUser Vmm.lookup
  cases hslot : userSlot a with
  | none => rfl
  | some t =>
    rw [Option.bind_some]
    unfold unmapEntry
    rw [dirIndex_of_slot hslot, Nat.add_sub_cancel]
    by_cases hbit : bit (m.pte i t (tableIndex a)) 0 = true
    · have hused := (h.entries i t (tableIndex a) hbit).used
      simp [hbit, hused]
    · have hbit' : bit (m.pte i t (tableIndex a)) 0 = false := (Bool.not_eq_true _).mp hbit
      simp [hbit']

theorem lookup_unmapEntry {pte : Word} (hl : m.lookup i b = some pte) (k : Nat) (a : Word) :
    (unmapEntry m i b w).lookup k a = if k = i ∧ pageNumber a = pageNumber b then none
      else m.lookup k a := by
  obtain ⟨t, hslot, -, -⟩ := lookup_eq_some.mp hl
  unfold unmapEntry
  rw [dirIndex_of_slot hslot, Nat.add_sub_cancel, lookup_setPte hslot]
  simp

theorem Alike.unmapUser (h : Alike m m') (hm : m.Tidy) (hm' : m'.Tidy) (i : Nat) (a : Word) :
    Alike ((vmmUnmapUser m i a).getD m) ((vmmUnmapUser m' i a).getD m') := by
  rw [vmmUnmapUser_eq hm, vmmUnmapUser_eq hm', h.lookup]
  cases hl : m.lookup i a with
  | none => exact h
  | some pte =>
    have hl' : m'.lookup i a = some pte := (h.lookup i a).trans hl
    refine ⟨fun k b => ?_, fun k => ?_, ?_⟩
    · refine (lookup_unmapEntry hl' k b).trans ?_
      rw [h.lookup]
      exact (lookup_unmapEntry hl k b).symm
    · refine (setPte_vmas _ _ _ _ _ _).trans ?_
      exact (h.vmas k).trans (setPte_vmas _ _ _ _ _ _).symm
    · simp only [Option.map_some, Option.getD_some, unmapEntry_pmm, pmmFreePage_handed]
      rw [← free_handed, ← h.pmm]

theorem Alike.unmapBack (h : Alike m m') (hm : m.Tidy) (hm' : m'.Tidy) (i : Nat) (base : Word) (n : Nat) :
    Alike (unmapBack i base n m) (unmapBack i base n m') := by
  induction n generalizing m m' with
  | zero => exact h
  | succ n ih => exact ih (h.unmapUser hm hm' i _) (hm.unmapUserD i _) (hm'.unmapUserD i _)

theorem mapUser_pmm (hmap : vmmMapUser m i virt phys flags = some m') : m'.pmm = m.pmm := by
  unfold vmmMapUser at hmap
  obtain ⟨t, -, rfl⟩ := Option.map_eq_some_iff.mp hmap
  rfl

theorem unmap_map {p : Pmm} (hm : m.Tidy) (hflags : flags.toNat < 4096) (habs : Absent m i virt)
    (ha : pmmAllocPage m.pmm = some (a, p))
    (hmap : vmmMapUser { m with pmm := p } i virt a flags = some m') :
    Alike m ((vmmUnmapUser m' i virt).getD m') := by
  have hm' : m'.Tidy := (hm.withPmm (hm.clean.alloc ha)).mapUser (alloc_ne_zero ha) hmap
  have hot := (onlyTables_pmm m i p).trans (onlyTables_mapUser hmap)
  have hlookup := lookup_mapUser hmap
  have hpmm : m'.pmm = p := mapUser_pmm hmap
  obtain ⟨-, -, -, hbase, -⟩ := pmmAllocPage_spec ha
  -- the entry names the frame that was taken
  have hentry : pageBase (pageBase a ||| (flags ||| pagePresent ||| pageUser)) = a := by
    apply BitVec.eq_of_toNat_eq
    rw [toNat_pageBase, pageNumber_userEntry a flags hflags, ← toNat_pageBase, hbase]
  have hvirt := hlookup i virt
  rw [if_pos ⟨rfl, rfl⟩] at hvirt
  rw [vmmUnmapUser_eq hm', hvirt, Option.map_some, Option.getD_some]
  refine ⟨fun k b => ?_, fun k => ?_, ?_⟩
  · rw [lookup_unmapEntry hvirt, hlookup]
    by_cases hc : k = i ∧ pageNumber b = pageNumber virt
    · rw [if_pos hc, hc.1, lookup_page hc.2, habs.lookup]
    · rw [if_neg hc, if_neg hc]
      rfl
  · refine (setPte_vmas _ _ _ _ _ _).trans ?_
    exact hot.sameVmas.vmas k
  · simp only [unmapEntry_pmm, pmmFreePage_handed]
    rw [hentry, hpmm]
    exact alloc_free hm.clean ha

theorem pageNumber_pageAt {n l : Nat} (hal : base.toNat % 4096 = 0)
    (hfit : base.toNat + 4096 * n < 4294967296) (hl : l < n) :
    pageNumber (pageAt base l) = pageNumber base + l := by
  rw [pageNumber_eq, pageNumber_eq, toNat_pageAt (by omega)]
  omega

def AbsentFrom (m : Vmm) (i : Nat) (base : Word) (done left : Nat) : Prop :=
  ∀ l, done ≤ l → l < done + left → Absent m i (pageAt base l)

theorem AbsentFrom.next {done left : Nat} (h : AbsentFrom m i base done (left + 1))
    (hal : base.toNat % 4096 = 0) (hfit : base.toNat + 4096 * (done + (left + 1)) < 4294967296)
    (hmap : vmmMapUser m i (pageAt base done) phys flags = some m') :
    AbsentFrom m' i base (done + 1) left := by
  intro l hl hlt
  refine Absent.mapUser hmap ?_ (h l (by omega) (by omega))
  rw [pageNumber_pageAt hal hfit (by omega), pageNumber_pageAt hal hfit (by omega)]
  omega

theorem mapPages_undone (hflags : flags.toNat < 4096) (hal : base.toNat % 4096 = 0) (left : Nat) :
    ∀ (done : Nat) {m m' : Vmm}, m.Tidy → AbsentFrom m i base done left →
      base.toNat + 4096 * (done + left) < 4294967296 → Alike m₀ (unmapBack i base done m) →
      mapPages i base flags done left m = (false, m') → Alike m₀ m' := by
  induction left with
  | zero => intro done m m' _ _ _ _ h; cases h
  | succ left ih =>
    intro done m m' hm habs hfit hback h
    rw [mapPages] at h
    split at h
    next =>
      cases h
      exact hback
    next page pmm ha =>
      split at h
      next =>
        -- the frame goes back at once, and then the pages
        cases h
        have hsame : Alike m { m with pmm := pmmFreePage pmm page } := by
          refine ⟨fun _ _ => rfl, fun _ => rfl, ?_⟩
          rw [pmmFreePage_handed]
          exact alloc_free hm.clean ha
        exact hback.trans (hsame.unmapBack hm (hm.withPmm ((hm.clean.alloc ha).free page)) i base done)
      next m1 hmap =>
        have hm1 := (hm.withPmm (hm.clean.alloc ha)).mapUser (alloc_ne_zero ha) hmap
        have habs1 : AbsentFrom m1 i base (done + 1) left :=
          AbsentFrom.next (m := { m with pmm }) habs hal hfit hmap
        refine ih (done + 1) hm1 habs1 (by omega) ?_ h
        have hone := unmap_map hm (or_lt _ _ hflags (by decide)) (habs done (by omega) (by omega)) ha hmap
        exact hback.trans (hone.unmapBack hm (hm1.unmapUserD i _) i base done)

structure PagesTaken (m₀ : Vmm) (i : Nat) (base : Word) (n : Nat) (m : Vmm) : Prop where
  entry : ∀ l < n, ∃ w, m.lookup i (pageAt base l) = some w ∧ m₀.pmm.bitmap (pageNumber w) = false ∧
    m.pmm.bitmap (pageNumber w) = true
  distinct : ∀ l < n, ∀ r < n, ∀ w v, m.lookup i (pageAt base l) = some w →
    m.lookup i (pageAt base r) = some v → pageNumber w = pageNumber v → l = r
  kept : ∀ k a, (k = i → ∀ l < n, pageNumber a ≠ pageNumber (pageAt base l)) →
    m.lookup k a = m₀.lookup k a
  taken : ∀ f, m₀.pmm.bitmap f = true → m.pmm.bitmap f = true

theorem PagesTaken.next {n : Nat} {page : Word} {pmm : Pmm} (h : PagesTaken m₀ i base n m)
    (hflags : flags.toNat < 4096) (hal : base.toNat % 4096 = 0)
    (hfit : base.toNat + 4096 * (n + 1) < 4294967296) (ha : pmmAllocPage m.pmm = some (page, pmm))
    (hmap : vmmMapUser { m with pmm } i (pageAt base n) page flags = some m') :
    PagesTaken m₀ i base (n + 1) m' := by
  have hnum : ∀ l, l < n + 1 → pageNumber (pageAt base l) = pageNumber base + l := fun l hl =>
    pageNumber_pageAt hal hfit hl
  have hpmm : m'.pmm = pmm := mapUser_pmm hmap
  have hframe := pageNumber_userEntry page flags hflags
  have hlast : m'.lookup i (pageAt base n) =
      some (pageBase page ||| (flags ||| pagePresent ||| pageUser)) := by
    rw [lookup_mapUser hmap, if_pos ⟨rfl, rfl⟩]
  have hold : ∀ l < n, m'.lookup i (pageAt base l) = m.lookup i (pageAt base l) := by
    intro l hl
    rw [lookup_mapUser hmap, if_neg]
    · rfl
    · rintro ⟨-, hp⟩
      rw [hnum l (by omega), hnum n (by omega)] at hp
      omega
  have hother : ∀ f, m.pmm.bitmap f = true → pageNumber page ≠ f ∧ m'.pmm.bitmap f = true := by
    intro f hf
    rw [hpmm]
    exact ⟨(pmmAllocPage_other ha hf).1, (pmmAllocPage_other ha hf).2.1⟩
  -- an earlier page is on a frame in use, and the new frame was not
  have hapart : ∀ l < n, ∀ w, m'.lookup i (pageAt base l) = some w → pageNumber page ≠ pageNumber w := by
    intro l hl w hw
    obtain ⟨v, hv, -, hused⟩ := h.entry l hl
    rw [hold l hl, hv, Option.some.injEq] at hw
    subst hw
    exact (hother _ hused).1
  refine ⟨fun l hl => ?_, fun l hl r hr w v hw hv he => ?_, fun k a hka => ?_,
    fun f hf => (hother f (h.taken f hf)).2⟩
  · rcases Nat.lt_succ_iff_lt_or_eq.mp hl with hlt | rfl
    · obtain ⟨w, hw, hfree, hused⟩ := h.entry l hlt
      exact ⟨w, (hold l hlt).trans hw, hfree, (hother _ hused).2⟩
    · refine ⟨_, hlast, ?_, ?_⟩
      · rw [hframe]
        by_contra hused
        exact (hother _ (h.taken _ ((Bool.not_eq_false _).mp hused))).1 rfl
      · rw [hframe, hpmm]
        obtain ⟨f, -, hf, -, rfl⟩ := pmmAllocPage_spec ha
        rw [hf]
        simp
  · rcases Nat.lt_succ_iff_lt_or_eq.mp hl with hl | rfl
    · rcases Nat.lt_succ_iff_lt_or_eq.mp hr with hr | rfl
      · rw [hold l hl] at hw
        rw [hold r hr] at hv
        exact h.distinct l hl r hr w v hw hv he
      · rw [hlast, Option.some.injEq] at hv
        rw [← hv, hframe] at he
        exact absurd he.symm (hapart l hl w hw)
    · rcases Nat.lt_succ_iff_lt_or_eq.mp hr with hr | rfl
      · rw [hlast, Option.some.injEq] at hw
        rw [← hw, hframe] at he
        exact absurd he (hapart r hr v hv)
      · rfl
  · rw [lookup_mapUser hmap, if_neg]
    · exact h.kept k a fun hk l hl => hka hk l (by omega)
    · rintro ⟨hk, hp⟩
      exact hka hk n (by omega) hp

theorem mapPages_taken (hflags : flags.toNat < 4096) (hal : base.toNat % 4096 = 0) (left : Nat) :
    ∀ (done : Nat) {m m' : Vmm}, base.toNat + 4096 * (done + left) < 4294967296 →
    PagesTaken m₀ i base done m →
      mapPages i base flags done left m = (true, m') → PagesTaken m₀ i base (done + left) m' := by
  induction left with
  | zero =>
    intro done m m' _ h hrun
    cases hrun
    exact h
  | succ left ih =>
    intro done m m' hfit h hrun
    rw [mapPages] at hrun
    split at hrun
    next => cases hrun
    next page pmm ha =>
      split at hrun
      next => cases hrun
      next m1 hmap =>
        have hfit1 : base.toNat + 4096 * (done + 1) < 4294967296 :=
          Nat.lt_of_le_of_lt (Nat.add_le_add_left (Nat.mul_le_mul_left _ (by omega)) _) hfit
        have h1 := h.next (or_lt _ _ hflags (by decide)) hal hfit1 ha hmap
        have hend := ih (done + 1) (by omega) h1 hrun
        rw [show done + (left + 1) = done + 1 + left by omega]
        exact hend

/-! ## The call -/

structure RangeChosen (m : Vmm) (i : Nat) (pages base : Word) (slot : Nat) : Prop where
  aligned : base.toNat % 4096 = 0
  low : 0x400000 ≤ base.toNat
  fits : base.toNat + 4096 * pages.toNat ≤ 0xc0000000
  clear : ∀ l < pages.toNat, vmmGetUserPhysical (m.spaces i) (pageAt base l) = 0
  slot_lt : slot < 64
  unused : ((m.spaces i).vmas slot).used = false

def Vmm.addVma (m : Vmm) (i slot : Nat) (base pages flags : Word) : Vmm :=
  m.setSpace i
    ((m.spaces i).setVma slot
      { start := base, stop := base + pages * 4096, flags := flags, used := true })

theorem vmmMapRange_inv {r : Option Word} (h : vmmMapRange m i virt pages flags = (r, m')) :
    r = none ∧ m' = m ∨ ∃ base slot, RangeChosen m i pages base slot ∧
      (r = none ∧ mapPages i base flags 0 pages.toNat m = (false, m') ∨
        ∃ m1, r = some base ∧ mapPages i base flags 0 pages.toNat m = (true, m1) ∧
          m' = m1.addVma i slot base pages flags) := by
  unfold vmmMapRange at h
  extract_lets s base stop at h
  split at h
  next =>
    cases h
    exact .inl ⟨rfl, rfl⟩
  next hpages =>
    split at h
    next =>
      cases h
      exact .inl ⟨rfl, rfl⟩
    next hargs =>
      split at h
      next =>
        cases h
        exact .inl ⟨rfl, rfl⟩
      next hclear =>
        cases hslot : s.freeVma with
        | none =>
          rw [hslot] at h
          cases h
          exact .inl ⟨rfl, rfl⟩
        | some slot =>
          rw [hslot] at h
          push Not at hpages hargs
          obtain ⟨halign, hlow, -, hwrap, hhigh, -⟩ := hargs
          have h4 : (0x400000 : Word).toNat = 0x400000 := rfl
          rw [BitVec.lt_def, h4, Nat.not_lt] at hlow
          rw [Bool.not_eq_true, Bool.not_eq_false', rangeClear_iff] at hclear
          obtain ⟨hlt, hunused⟩ := freeVma_eq_some hslot
          refine .inr ⟨base, slot,
            ⟨(aligned_iff base).mp halign, hlow, range_fits hpages.2 hwrap hhigh, hclear, hlt,
            hunused⟩, ?_⟩
          dsimp only at h
          split at h
          next m1 hloop =>
            cases h
            exact .inl ⟨rfl, hloop⟩
          next m1 hloop =>
            cases h
            exact .inr ⟨m1, rfl, hloop, rfl⟩

theorem RangeChosen.absentFrom {slot : Nat} (h : RangeChosen m i pages base slot) (hm : m.Tidy) :
    AbsentFrom m i base 0 pages.toNat := by
  intro l _ hl t ht
  by_contra hbit
  have hnone := (physical_eq_zero hm).mp (h.clear l (by omega))
  have hsome : m.lookup i (pageAt base l) = some (m.pte i t (tableIndex (pageAt base l))) :=
    lookup_eq_some.mpr ⟨t, ht, rfl, (Bool.not_eq_false _).mp hbit⟩
  rw [hnone] at hsome
  cases hsome

theorem InRange.page (hal : base.toNat % 4096 = 0)
    (hfit : base.toNat + 4096 * pages.toNat ≤ 0xc0000000) :
    InRange base pages a ↔ ∃ l < pages.toNat, pageNumber a = pageNumber (pageAt base l) := by
  have hlt : base.toNat + 4096 * pages.toNat < 4294967296 := by omega
  constructor
  · rintro ⟨hlo, hhi⟩
    refine ⟨pageNumber a - pageNumber base, ?_, ?_⟩
    · rw [pageNumber_eq, pageNumber_eq]
      omega
    · rw [pageNumber_pageAt hal hlt]
      · rw [pageNumber_eq, pageNumber_eq]
        omega
      · rw [pageNumber_eq, pageNumber_eq]
        omega
  · rintro ⟨l, hl, hp⟩
    rw [pageNumber_pageAt hal hlt hl, pageNumber_eq, pageNumber_eq] at hp
    unfold InRange
    omega

theorem PagesTaken.rangeMapped {m1 : Vmm} {slot : Nat} (hc : RangeChosen m i pages base slot)
    (hm : m.Tidy) (hm1 : m1.Tidy) (hsame : SameVmas m m1) (h : PagesTaken m i base pages.toNat m1) :
    RangeMapped m i base pages flags (m1.addVma i slot base pages flags) := by
  have hpage : ∀ a, InRange base pages a ↔ ∃ l < pages.toNat, pageNumber a = pageNumber (pageAt base l) :=
    fun a => InRange.page hc.aligned hc.fits
  -- the new VMA is not an entry
  have htidy : (m1.addVma i slot base pages flags).Tidy := hm1.setSpace rfl rfl
  have hspaces : ∀ k, k ≠ i → (m1.addVma i slot base pages flags).spaces k = m1.spaces k := fun k hk =>
    update_of_ne hk _ _
  have hlook : ∀ k a, (m1.addVma i slot base pages flags).lookup k a = m1.lookup k a := by
    intro k a
    unfold Vmm.lookup Vmm.pte
    by_cases hk : k = i
    · subst hk
      simp [Vmm.addVma, Vmm.setSpace, AddressSpace.setVma]
    · rw [hspaces k hk]
  have hentry : ∀ a, InRange base pages a →
      ∃ l < pages.toNat, ∃ w, pageNumber a = pageNumber (pageAt base l) ∧
      m1.lookup i (pageAt base l) = some w ∧ (m1.addVma i slot base pages flags).lookup i a = some w ∧
      m.pmm.bitmap (pageNumber w) = false := by
    intro a ha
    obtain ⟨l, hl, hp⟩ := (hpage a).mp ha
    obtain ⟨w, hw, hfree, -⟩ := h.entry l hl
    exact ⟨l, hl, w, hp, hw, by rw [hlook, lookup_page hp]; exact hw, hfree⟩
  refine ⟨⟨hc.aligned, hc.low, hc.fits⟩, fun a ha => ?_, fun a ha => ?_, fun a ha => ?_,
    fun a b ha hb => ?_, fun k a hka => ?_, ⟨slot, hc.slot_lt, hc.unused, ?_⟩, fun k hk => ?_⟩
  · obtain ⟨l, hl, hp⟩ := (hpage a).mp ha
    rw [physical_eq_zero hm, lookup_page hp]
    exact (physical_eq_zero hm).mp (hc.clear l hl)
  · obtain ⟨l, -, w, -, -, hw, -⟩ := hentry a ha
    rw [Ne, physical_eq_zero htidy, hw]
    exact Option.some_ne_none w
  · obtain ⟨l, -, w, -, -, hw, hfree⟩ := hentry a ha
    rw [(frameOf_eq htidy hw).1]
    exact hfree
  · obtain ⟨l, hl, w, hpa, hlw, hw, -⟩ := hentry a ha
    obtain ⟨r, hr, v, hpb, hrv, hv, -⟩ := hentry b hb
    rw [(frameOf_eq htidy hw).1, (frameOf_eq htidy hv).1]
    constructor
    · intro he
      rw [hpa, hpb, h.distinct l hl r hr w v hlw hrv he]
    · intro hp
      rw [lookup_page hp, hv, Option.some.injEq] at hw
      rw [hw]
  · rw [physical_eq htidy, physical_eq hm, hlook, h.kept k a]
    exact fun hk l hl hp => hka hk ((hpage a).mpr ⟨l, hl, hp⟩)
  · rw [← hsame.vmas i]
    simp [Vmm.addVma, Vmm.setSpace, AddressSpace.setVma]
  · rw [hspaces k hk]
    exact hsame.vmas k

end

/-- Whatever was called before, `vmm_map_range` fails and changes nothing, or it maps the whole range. -/
theorem map_range_all_or_nothing {m₀ m : Vmm} {calls : List MmCall} (h0 : ColdStart m₀)
    (hrun : runs mmStep m₀ calls = some m) (i : Nat) (virt pages : Word) {flags : Word}
    (hflags : flags < 0x1000) (m' : Vmm) :
    (vmmMapRange m i virt pages flags = (none, m') → SameMemory m m') ∧
      ∀ base, vmmMapRange m i virt pages flags = (some base, m') →
      RangeMapped m i base pages flags m' := by
  have hm := tidy_of_calls h0 hrun
  have hlt : flags.toNat < 4096 := hflags
  have htidy := vmmMapRange_tidy hm i virt pages flags
  refine ⟨fun h => ?_, fun base h => ?_⟩
  · rw [h] at htidy
    obtain ⟨-, rfl⟩ | ⟨b, slot, hc, ⟨-, hloop⟩ | ⟨m1, hr, -⟩⟩ := vmmMapRange_inv h
    · exact (Alike.refl _).sameMemory hm hm
    · have hfit : b.toNat + 4096 * (0 + pages.toNat) < 4294967296 := by
        have := hc.fits
        omega
      exact (mapPages_undone hlt hc.aligned _ 0 hm (hc.absentFrom hm) hfit
        (.refl m) hloop).sameMemory hm htidy
    · cases hr
  · obtain ⟨hr, -⟩ | ⟨b, slot, hc, ⟨hr, -⟩ | ⟨m1, hr, hloop, rfl⟩⟩ := vmmMapRange_inv h
    · cases hr
    · cases hr
    · cases hr
      have hfit : base.toNat + 4096 * (0 + pages.toNat) < 4294967296 := by
        have := hc.fits
        omega
      have hbegin : PagesTaken m i base 0 m :=
        ⟨fun l hl => absurd hl l.not_lt_zero, fun l hl => absurd hl l.not_lt_zero, fun _ _ _ => rfl,
          fun _ hf => hf⟩
      have htaken := mapPages_taken hlt hc.aligned _ 0 hfit hbegin hloop
      rw [Nat.zero_add] at htaken
      have hm1 := mapPages_tidy i base flags pages.toNat 0 hm
      have hsame := (mapPages_only i base flags pages.toNat 0 m).sameVmas
      rw [hloop] at hm1 hsame
      exact htaken.rangeMapped hc hm hm1 hsame

theorem map_range_all_or_nothing_cold : ∃ m m₁ m₂ base, runs mmStep coldMachine [.create] = some m ∧
    vmmMapRange m 0 0 100 0 = (none, m₁) ∧ SameMemory m m₁ ∧
    vmmMapRange m 0 0 2 0 = (some base, m₂) ∧ RangeMapped m 0 base 2 0 m₂ := by
  have hfail : ((runs mmStep coldMachine [.create]).map fun m => (vmmMapRange m 0 0 100 0).1) =
      some none := by
    decide +kernel
  have hok : ((runs mmStep coldMachine [.create]).map fun m => (vmmMapRange m 0 0 2 0).1) =
      some (some 0x1000000) := by
    decide +kernel
  obtain ⟨m, hm, hnone⟩ := Option.map_eq_some_iff.mp hfail
  rw [hm, Option.map_some, Option.some.injEq] at hok
  generalize h1 : vmmMapRange m 0 0 100 0 = r1 at hnone
  generalize h2 : vmmMapRange m 0 0 2 0 = r2 at hok
  obtain ⟨o1, m₁⟩ := r1
  obtain ⟨o2, m₂⟩ := r2
  cases hnone
  cases hok
  have hstart := coldMachine_coldStart
  exact ⟨m, m₁, m₂, 0x1000000, hm, h1, (map_range_all_or_nothing hstart hm 0 0 100 (by decide) m₁).1 h1,
    h2, (map_range_all_or_nothing hstart hm 0 0 2 (by decide) m₂).2 _ h2⟩

end Ceblar
