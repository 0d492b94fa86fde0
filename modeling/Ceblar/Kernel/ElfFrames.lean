import Ceblar.Kernel.ElfPages
import Ceblar.Kernel.Process
import Ceblar.Mm.Lent

/-! # The frames of a load

The frames of a space are found again through its page tables only, so a page that was taken twice
has lost its first frame.
-/

namespace Ceblar

/-! ## A space and its frames -/

structure Stocked (p₀ : Pmm) (space : Nat) (held : List (Nat × Nat)) (m : Vmm) : Prop where
  lent : Lent p₀ (held.map Prod.snd) m.pmm
  live : m.spaceUsed space = true
  refs : (m.spaces space).refs = 1
  pages : ∀ x ∈ held, 1024 ≤ x.1 ∧ x.1 < 9216
  blank : ∀ t < 8, ∀ j < 1024, held.lookup ((t + 1) * 1024 + j) = none → bit (m.pte space t j) 0 = false
  entry : ∀ t < 8, ∀ j < 1024, ∀ f, held.lookup ((t + 1) * 1024 + j) = some f →
    (m.spaces space).tableUsed t = true ∧ bit (m.pte space t j) 0 = true ∧
    pageNumber (m.pte space t j) = f

section

variable {p₀ : Pmm} {space : Nat} {held : List (Nat × Nat)} {m m' : Vmm}

theorem stocked_fresh {m0 : Vmm} (hc : vmmCreateAddressSpace m0 = some (space, m)) :
    Stocked m0.pmm space [] m := by
  have hd := vmmCreateAddressSpace_spec hc
  refine ⟨hd.pmm ▸ lent_nil
    _, by rw [hd.used]; simp, ?_, nofun, fun t _ j _ _ => by rw [hd.zero]; simp, nofun⟩
  unfold vmmCreateAddressSpace at hc
  obtain ⟨i, -, hi⟩ := Option.map_eq_some_iff.mp hc
  cases hi
  simp

theorem Stocked.congr (h : Stocked p₀ space held m) (hpmm : m'.pmm = m.pmm)
    (hspaces : m'.spaces = m.spaces) (hused : m'.spaceUsed = m.spaceUsed) :
    Stocked p₀ space held m' := by
  refine ⟨hpmm ▸ h.lent, hused ▸ h.live, hspaces ▸ h.refs, h.pages, ?_, ?_⟩
  · unfold Vmm.pte
    rw [hspaces]
    exact h.blank
  · unfold Vmm.pte
    rw [hspaces]
    exact h.entry

theorem Stocked.take {t : Nat} {page : Word} {pmm : Pmm} {r : PageRequest}
    (h : Stocked p₀ space held m) (ha : pmmAllocPage m.pmm = some (page, pmm))
    (hs : userSlot r.va = some t) (hflags : r.flags.toNat < 4096) :
    Stocked p₀ space ((pageNumber r.va, pageNumber page) :: held)
      (({ m with pmm }.markTable space t).setPte space t (tableIndex r.va)
        (pageBase page ||| (r.flags ||| pagePresent ||| pageUser))) := by
  have hset := entrySet_mark { m with pmm } space t (tableIndex r.va)
    (pageBase page ||| (r.flags ||| pagePresent ||| pageUser))
  have hnum := pageNumber_of_slot hs
  have hlt := userSlot_lt hs
  have hti := tableIndex_lt r.va
  -- a slot is the one of the request exactly if it has its page number
  have hslot : ∀ u j, j < 1024 →
      ((u + 1) * 1024 + j = pageNumber r.va ↔ u = t ∧ j = tableIndex r.va) := by
    intro u j hj
    rw [hnum]
    omega
  refine ⟨h.lent.alloc ha, h.live, ?_, ?_, fun u hu j hj hnone => ?_, fun u hu j hj f hf => ?_⟩
  · simp [Vmm.setPte, Vmm.markTable, Vmm.setSpace, h.refs]
  · rw [List.forall_mem_cons]
    exact ⟨⟨by omega, by omega⟩, h.pages⟩
  · rw [List.lookup_cons] at hnone
    split at hnone
    next => cases hnone
    next hne =>
      rw [hset.pte, if_neg]
      · exact h.blank u hu j hj hnone
      · rintro ⟨-, hc⟩
        simp [(hslot u j hj).mpr hc] at hne
  · rw [List.lookup_cons] at hf
    split at hf
    next heq =>
      cases hf
      obtain ⟨rfl, rfl⟩ := (hslot u j hj).mp (eq_of_beq heq)
      rw [hset.pte, if_pos ⟨rfl, rfl, rfl⟩]
      exact ⟨hset.table, by simp, pageNumber_userEntry page r.flags hflags⟩
    next hne =>
      obtain ⟨h1, h2, h3⟩ := h.entry u hu j hj f hf
      have hc : ¬ (space = space ∧ u = t ∧ j = tableIndex r.va) := by
        rintro ⟨-, hc⟩
        simp [(hslot u j hj).mpr hc] at hne
      rw [hset.pte, if_neg hc]
      exact ⟨hset.used space u h1, h2, h3⟩

/-- The requests that are served: those before the first page outside the tables, as far as the
frames go. -/
def served (rs : List PageRequest) (p : Pmm) : List Nat :=
  ((rs.takeWhile fun r => (userSlot r.va).isSome).map fun r => pageNumber r.va).take (freeFrames p)

theorem served_cons (space : Nat) (rs : List PageRequest) (r : PageRequest) (m : Vmm) :
    served (r :: rs) m.pmm =
    match takePage space m r with
    | .ok m' => pageNumber r.va :: served rs m'.pmm
    | .error _ => [] := by
  unfold served
  rw [takePage_eq, List.takeWhile_cons]
  cases ha : pmmAllocPage m.pmm with
  | none => simp [freeFrames_eq_zero.mp ha]
  | some x =>
    obtain ⟨page, pmm⟩ := x
    have hfree := freeFrames_alloc ha
    cases hs : userSlot r.va with
    | none => simp
    | some t => simp [← hfree]

theorem Stocked.page (hclean : p₀.Clean) (h : Stocked p₀ space held m) {r : PageRequest}
    (hflags : r.flags.toNat < 4096) :
    match takePage space m r with
    | .ok m' => ∃ f, Stocked p₀ space ((pageNumber r.va, f) :: held) m'
    | .error m' => Stocked p₀ space held m' := by
  rw [takePage_eq]
  cases ha : pmmAllocPage m.pmm with
  | none => exact h
  | some x =>
    obtain ⟨page, pmm⟩ := x
    cases hs : userSlot r.va with
    | none =>
      have hback := (h.lent.alloc ha).give hclean (a := page) (by simp)
      rw [List.erase_cons_head] at hback
      exact ⟨hback, h.live, h.refs, h.pages, h.blank, h.entry⟩
    | some t => exact ⟨_, h.take ha hs hflags⟩

theorem takePages_stocked (hclean : p₀.Clean) {rs : List PageRequest}
    (hflags : ∀ r ∈ rs, r.flags.toNat < 4096) (h : Stocked p₀ space held m) :
    ∃ got, Stocked p₀ space (got ++ held) (endState (takePages space m rs)) ∧
      (got.map Prod.fst).reverse = served rs m.pmm := by
  induction rs generalizing m held with
  | nil => exact ⟨[], h, by simp [served]⟩
  | cons r rs ih =>
    rw [List.forall_mem_cons] at hflags
    have hcons : takePages space m (r :: rs) = takePage space m r >>= fun m => takePages space m rs := rfl
    have hpage := h.page hclean hflags.1
    have hserved := served_cons space rs r m
    rw [hcons]
    cases htake : takePage space m r with
    | error m1 =>
      rw [htake] at hpage hserved
      exact ⟨[], hpage, hserved.symm⟩
    | ok m1 =>
      rw [htake] at hpage hserved
      obtain ⟨f, h1⟩ := hpage
      obtain ⟨got, hgot, hpages⟩ := ih hflags.2 h1
      refine ⟨got ++ [(pageNumber r.va, f)], ?_, ?_⟩
      · rw [List.append_assoc]
        exact hgot
      · rw [hserved]
        dsimp only
        rw [← hpages]
        simp

/-! ## Destruction -/

def Unfound (held : List (Nat × Nat)) (n f : Nat) : Prop :=
  f ∈ held.map Prod.snd ∧ ∀ pg < n, held.lookup pg ≠ some f

theorem mem_of_lookup {pg f : Nat} (h : held.lookup pg = some f) : (pg, f) ∈ held := by
  obtain ⟨l₁, l₂, heq, -⟩ := List.lookup_eq_some_iff.mp h
  rw [heq]
  simp

theorem Stocked.lookup_inj (h : Stocked p₀ space held m) {pg pg' f : Nat} (h1 : held.lookup pg = some f)
    (h2 : held.lookup pg' = some f) : pg = pg' := by
  have hinj := List.inj_on_of_nodup_map h.lent.nodup (mem_of_lookup h1) (mem_of_lookup h2) rfl
  exact congrArg Prod.fst hinj

theorem unfound_succ {n f : Nat} :
    Unfound held (n + 1) f ↔ Unfound held n f ∧ held.lookup n ≠ some f := by
  unfold Unfound
  constructor
  · rintro ⟨hf, hno⟩
    exact ⟨⟨hf, fun pg hpg => hno pg (by omega)⟩, hno n (by omega)⟩
  · rintro ⟨⟨hf, hno⟩, hn⟩
    refine ⟨hf, fun pg hpg => ?_⟩
    rcases Nat.lt_succ_iff_lt_or_eq.mp hpg with hlt | rfl
    · exact hno pg hlt
    · exact hn

theorem Stocked.freeEntry (hclean : p₀.Clean) (h : Stocked p₀ space held m) {t j : Nat} (ht : t < 8)
    (hj : j < 1024) {p : Pmm} {rest : List Nat} (hl : Lent p₀ rest p)
    (hrest : ∀ f, f ∈ rest ↔ Unfound held ((t + 1) * 1024 + j) f) :
    ∃ rest', Lent p₀ rest' (if m.pte space t j &&& pagePresent = 0 then p
      else pmmFreePage p (pageBase (m.pte space t j))) ∧
      ∀ f, f ∈ rest' ↔ Unfound held ((t + 1) * 1024 + (j + 1)) f := by
  cases hlook : held.lookup ((t + 1) * 1024 + j) with
  | none =>
    have habsent : m.pte space t j &&& pagePresent = 0 :=
      (and_pagePresent_eq_zero _).mpr (h.blank t ht j hj hlook)
    rw [if_pos habsent]
    refine ⟨rest, hl, fun f => ?_⟩
    rw [hrest, ← Nat.add_assoc, unfound_succ, hlook]
    simp
  | some f0 =>
    obtain ⟨-, hbit, hnum⟩ := h.entry t ht j hj f0 hlook
    have hbase : pageNumber (pageBase (m.pte space t j)) = f0 := by rw [pageNumber_pageBase, hnum]
    have hmem : f0 ∈ rest := by
      refine (hrest f0).mpr ⟨List.mem_map.mpr ⟨_, mem_of_lookup hlook, rfl⟩, fun pg hpg hc => ?_⟩
      have := h.lookup_inj hc hlook
      omega
    rw [if_neg ((and_pagePresent _).mpr hbit)]
    refine ⟨rest.erase f0, hbase ▸ hl.give hclean (hbase.symm ▸ hmem), fun f => ?_⟩
    rw [hl.nodup.mem_erase_iff, hrest, ← Nat.add_assoc, unfound_succ, hlook, ne_comm, Ne, Ne,
      Option.some.injEq, and_comm]

theorem Stocked.freeTables (hclean : p₀.Clean) (h : Stocked p₀ space held m) :
    ∃ rest, Lent p₀ rest (freeTables (m.spaces space) m.pmm) ∧ ∀ f, f ∈ rest ↔ Unfound held 9216 f := by
  refine forRange_inv
    (fun t p => ∃ rest, Lent p₀ rest p ∧ ∀ f, f ∈ rest ↔ Unfound held ((t + 1) * 1024) f) 8
    ⟨_, h.lent, fun f => ?_⟩ ?_
  · refine ⟨fun hf => ⟨hf, fun pg hpg hc => ?_⟩, fun hf => hf.1⟩
    have := (h.pages _ (mem_of_lookup hc)).1
    omega
  · rintro t ht p ⟨rest, hl, hrest⟩
    have hnext : (t + 1 + 1) * 1024 = (t + 1) * 1024 + 1024 := by omega
    rw [hnext]
    split
    next =>
      refine forRange_inv (fun j p => ∃ rest, Lent p₀ rest p ∧ ∀ f, f ∈ rest ↔
        Unfound held ((t + 1) * 1024 + j) f) 1024 ⟨rest, hl, by rwa [Nat.add_zero]⟩ ?_
      rintro j hj p ⟨rest, hl, hrest⟩
      exact h.freeEntry hclean ht hj hl hrest
    next hunused =>
      refine ⟨rest, hl, fun f => (hrest f).trans ?_⟩
      -- no page of a table that is not used is held
      constructor
      · rintro ⟨hf, hno⟩
        refine ⟨hf, fun pg hpg hc => ?_⟩
        by_cases hlow : pg < (t + 1) * 1024
        · exact hno pg hlow hc
        · obtain ⟨j, rfl⟩ := Nat.exists_eq_add_of_le (Nat.not_lt.mp hlow)
          exact hunused (h.entry t ht j (by omega) f hc).1
      · rintro ⟨hf, hno⟩
        exact ⟨hf, fun pg hpg => hno pg (Nat.lt_of_lt_of_le hpg (Nat.le_add_right _ _))⟩

theorem found_iff_nodup {l : List (Nat × Nat)} (hl : (l.map Prod.snd).Nodup) :
    (∀ f ∈ l.map Prod.snd, ∃ pg, l.lookup pg = some f) ↔ (l.map Prod.fst).Nodup := by
  induction l with
  | nil => simp
  | cons x l ih =>
    obtain ⟨pg, f⟩ := x
    rw [List.map_cons, List.nodup_cons] at hl
    have hother : ∀ g ∈ l.map Prod.snd, ∀ q, ((pg, f) :: l).lookup q = some g ↔ q ≠ pg ∧
        l.lookup q = some g := by
      intro g hg q
      have hne : f ≠ g := fun he => hl.1 (he ▸ hg)
      rw [List.lookup_cons]
      by_cases hq : q = pg
      · simp [hq, hne]
      · rw [beq_false_of_ne hq]
        simp [hq]
    rw [List.map_cons, List.map_cons, List.forall_mem_cons, List.nodup_cons, ← ih hl.2]
    constructor
    · rintro ⟨-, hfound⟩
      refine ⟨fun hpg => ?_, fun g hg => ?_⟩
      · obtain ⟨⟨q, g⟩, hmem, rfl⟩ := List.mem_map.mp hpg
        have hg : g ∈ l.map Prod.snd := List.mem_map.mpr ⟨_, hmem, rfl⟩
        obtain ⟨q', hq'⟩ := hfound g hg
        obtain ⟨hne, hlook⟩ := (hother g hg q').mp hq'
        exact hne (congrArg Prod.fst (List.inj_on_of_nodup_map hl.2 (mem_of_lookup hlook) hmem rfl))
      · obtain ⟨q, hq⟩ := hfound g hg
        exact ⟨q, ((hother g hg q).mp hq).2⟩
    · rintro ⟨hpg, hfound⟩
      refine ⟨⟨pg, by simp⟩, fun g hg => ?_⟩
      obtain ⟨q, hq⟩ := hfound g hg
      refine ⟨q, (hother g hg q).mpr ⟨?_, hq⟩⟩
      rintro rfl
      exact hpg (List.mem_map.mpr ⟨_, mem_of_lookup hq, rfl⟩)

theorem Stocked.destroy (hclean : p₀.Clean) (h : Stocked p₀ space held m) :
    SameFrames p₀ (vmmDestroyAddressSpace m space).pmm ↔ (held.map Prod.fst).Nodup := by
  obtain ⟨rest, hl, hrest⟩ := h.freeTables hclean
  have hpmm : (vmmDestroyAddressSpace m space).pmm = Ceblar.freeTables (m.spaces space) m.pmm := by
    unfold vmmDestroyAddressSpace
    dsimp only
    have hlive :
        (m.setSpace space { m.spaces space with refs := (m.spaces space).refs - 1 }).spaceUsed
          space = true := h.live
    rw [if_neg (by rw [h.refs]; decide), if_neg (by rw [h.refs]; decide), if_pos hlive]
    rfl
  rw [hpmm, hl.same_iff, ← found_iff_nodup h.lent.nodup, List.eq_nil_iff_forall_not_mem]
  constructor
  · intro hnone f hf
    by_contra hno
    push Not at hno
    exact hnone f ((hrest f).mpr ⟨hf, fun pg _ => hno pg⟩)
  · intro hfound f hf
    obtain ⟨hmem, hno⟩ := (hrest f).mp hf
    obtain ⟨pg, hpg⟩ := hfound f hmem
    exact hno pg (h.pages _ (mem_of_lookup hpg)).2 hpg

end

/-! ## A load and its end -/

def stackRequest : PageRequest := ⟨userStackTop - 4096, pageWrite⟩

def Image.asks (image : Image) (size : Word) : List PageRequest :=
  if 52 ≤ size ∧ image.header.valid size = true then image.requests size image.header.phnum.toNat else []

def loadAndDestroy (image : Image) (size : Word) (m : Vmm) : Except Halt Vmm :=
  match vmmCreateAddressSpace m with
  | none => .ok m
  | some (space, m) =>
    match vmmUserAllocPage m space (userStackTop - 4096) pageWrite with
    | (none, m) => .ok (vmmDestroyAddressSpace m space)
    | (some m, _) => do
      let (_, m) ← elf32Load image size space m
      return vmmDestroyAddressSpace m space

section

variable {image : Image} {size : Word} {m m' : Vmm} {space : Nat}

theorem asks_flags (image : Image) (size : Word) : ∀ r ∈ image.asks size, r.flags.toNat < 4096 := by
  have hall : ∀ n, ∀ r ∈ image.requests size n, r.flags.toNat < 4096 := by
    intro n
    induction n with
    | zero =>
      intro r hr
      cases hr
    | succ n ih =>
      intro r hr
      rw [Image.requests, List.mem_append] at hr
      rcases hr with hr | hr
      · exact ih r hr
      · split at hr
        next =>
          obtain ⟨j, -, rfl⟩ := List.mem_map.mp hr
          unfold ElfProgram.request
          dsimp only
          split <;> decide
        next => cases hr
  unfold Image.asks
  split
  · exact hall _
  · intro r hr
    cases hr

theorem vmmUserAllocPage_eq (r : PageRequest) : vmmUserAllocPage m space r.va r.flags =
    match takePage space m r with
    | .ok m' => (some m', m')
    | .error m' => (none, m') := by
  unfold vmmUserAllocPage takePage
  cases pmmAllocPage m.pmm with
  | none => rfl
  | some x =>
    dsimp only
    cases vmmMapUser { m with pmm := x.2 } space r.va x.1 r.flags <;> rfl

theorem takePage_userHalf {r : PageRequest} (h : m.UserHalfFree)
    (ht : takePage space m r = .ok m') : m'.UserHalfFree := by
  rw [takePage_eq] at ht
  split at ht
  next => cases ht
  next => cases ht
  next =>
    cases ht
    exact h

theorem elf32Load_stocked {p₀ : Pmm} {held : List (Nat × Nat)} (hclean : p₀.Clean) (hm : m.UserHalfFree)
    (h : Stocked p₀ space held m) (image : Image) (size : Word) : ∃ entry m' got,
      elf32Load image size space m = .ok (entry, m') ∧ Stocked p₀ space (got ++ held) m' ∧
        (got.map Prod.fst).reverse = served (image.asks size) m.pmm := by
  by_cases hhead : 52 ≤ size ∧ image.header.valid size = true
  · obtain ⟨phys, hplan⟩ := elf32Load_plan space hm hhead.1 hhead.2
    have hflags := asks_flags image size
    unfold Image.asks at hflags ⊢
    rw [if_pos hhead] at hflags ⊢
    obtain ⟨got, hgot, hpages⟩ := takePages_stocked hclean hflags
      (h.congr rfl rfl rfl : Stocked p₀ space held (vmmSwitchAddressSpace m (some space)))
    exact ⟨_, _, got, hplan, hgot.congr rfl rfl rfl, hpages⟩
  · refine ⟨none, m, [], ?_, h, ?_⟩
    · unfold elf32Load
      rw [if_pos]
      rw [not_and_or, Bool.not_eq_true] at hhead
      exact hhead.imp_left BitVec.not_le.mp
    · unfold Image.asks
      rw [if_neg hhead]
      simp [served]

theorem loadAndDestroy_frames (hm : m.UserHalfFree) (hclean : m.pmm.Clean) (image : Image) (size : Word) :
    ∃ m', loadAndDestroy image size m = .ok m' ∧ (SameFrames m.pmm m'.pmm ↔
      vmmCreateAddressSpace m = none ∨ (served (stackRequest :: image.asks size) m.pmm).Nodup) := by
  unfold loadAndDestroy
  cases hc : vmmCreateAddressSpace m with
  | none => exact ⟨m, rfl, ⟨fun _ => .inl rfl, fun _ => ⟨rfl, rfl, rfl⟩⟩⟩
  | some x =>
    obtain ⟨space, m1⟩ := x
    have hd := vmmCreateAddressSpace_spec hc
    have h1 := stocked_fresh hc
    have hpage := h1.page hclean (r := stackRequest) (by decide)
    have hserved := served_cons space (image.asks size) stackRequest m1
    have halloc : vmmUserAllocPage m1 space (userStackTop - 4096) pageWrite = _ :=
      vmmUserAllocPage_eq stackRequest
    rw [hd.pmm] at hserved
    dsimp only
    rw [halloc, hserved]
    cases htake : takePage space m1 stackRequest with
    | error m2 =>
      rw [htake] at hpage
      exact ⟨_, rfl, (hpage.destroy hclean).trans (by simp)⟩
    | ok m2 =>
      rw [htake] at hpage
      obtain ⟨f, h2⟩ := hpage
      have hm1 : m1.UserHalfFree := by
        unfold Vmm.UserHalfFree
        rw [hd.kernelTables]
        exact hm
      obtain ⟨entry, m3, got, hload, h3, hpages⟩ :=
        elf32Load_stocked hclean (takePage_userHalf hm1 htake) h2 image size
      dsimp only
      rw [hload]
      refine ⟨_, rfl, (h3.destroy hclean).trans ?_⟩
      rw [← hpages, List.map_append, ← List.nodup_reverse]
      simp

end

/-- Nothing is lost exactly if the stack page and the pages of the segments that get a frame are all
different. -/
theorem load_keeps_frames_iff {m₀ m : Vmm} {calls : List MmCall} (hstart : ColdStart m₀)
    (hrun : runs mmStep m₀ calls = some m) (image : Image) (size : Word) :
    ∃ m', loadAndDestroy image size m = .ok m' ∧ (SameFrames m.pmm m'.pmm ↔
      vmmCreateAddressSpace m = none ∨ (served (stackRequest :: image.asks size) m.pmm).Nodup) :=
  have htidy := tidy_of_calls hstart hrun
  loadAndDestroy_frames htidy.userHalf htidy.clean image size

theorem load_keeps_frames_apart :
    ∃ m', loadAndDestroy (twoSegments 0x400000 0x401000) 116 coldMachine = .ok m' ∧
    SameFrames coldMachine.pmm m'.pmm := by
  obtain ⟨m', hload, hiff⟩ := load_keeps_frames_iff coldMachine_coldStart (runs_nil coldMachine)
    (twoSegments 0x400000 0x401000) 116
  exact ⟨m', hload, hiff.mpr (.inr (by decide +kernel))⟩

/-- Two segments on one page: the frame of the first is lost. -/
theorem shared_page_leaks :
    ∃ m', loadAndDestroy (twoSegments 0x400000 0x400800) 116 coldMachine = .ok m' ∧
    ¬SameFrames coldMachine.pmm m'.pmm := by
  have htidy := coldMachine_coldStart.tidy
  obtain ⟨m', hload, hiff⟩ :=
    loadAndDestroy_frames htidy.userHalf htidy.clean (twoSegments 0x400000 0x400800) 116
  refine ⟨m', hload, fun hsame => ?_⟩
  rcases hiff.mp hsame with hnone | hnodup
  · cases hnone
  · revert hnodup
    decide +kernel

end Ceblar
