import Ceblar.Kernel.ElfBounds
import Ceblar.Mm.Validate

/-! # The pages a load asks for

Up to the bytes it stores, the loader takes a frame for one page after the other, until a header
fails its tests or a page cannot be had.
-/

namespace Ceblar

/-! ## Requests -/

structure PageRequest where
  va : Word
  flags : Word

def takePage (space : Nat) (m : Vmm) (r : PageRequest) : Except Vmm Vmm :=
  match pmmAllocPage m.pmm with
  | none => .error m
  | some (page, pmm) =>
    match vmmMapUser { m with pmm } space r.va page r.flags with
    | none => .error { m with pmm := pmmFreePage pmm page }
    | some m => .ok m

def takePages (space : Nat) (m : Vmm) (rs : List PageRequest) : Except Vmm Vmm :=
  rs.foldlM (takePage space) m

def ElfProgram.request (p : ElfProgram) (j : Nat) : PageRequest :=
  ⟨p.first + BitVec.ofNat 32 (j * 4096), if p.flags &&& 2 ≠ 0 then pageWrite else 0⟩

def ElfProgram.requests (p : ElfProgram) : List PageRequest := (List.range p.pages).map p.request

/-- The tests on a header; those on a `PT_LOAD` header count. -/
def ElfProgram.passes (p : ElfProgram) (size : Word) : Bool :=
  !p.isLoad || (decide (p.flags &&& 6 ≠ 6) && p.inBounds size)

def Image.passes (image : Image) (size : Word) (n : Nat) : Bool :=
  (List.range n).all fun i => (image.program i).passes size

def Image.requests (image : Image) (size : Word) : Nat → List PageRequest
  | 0 => []
  | n + 1 => image.requests size n ++
      if image.passes size (n + 1) && (image.program n).isLoad then (image.program n).requests else []

def taken (image : Image) (size : Word) (space : Nat) (m : Vmm) : Except Vmm Vmm :=
  takePages space (vmmSwitchAddressSpace m (some space)) (image.requests size image.header.phnum.toNat)

def endState : Except Vmm Vmm → Vmm
  | .ok m => m
  | .error m => m

def planProgram (size : Word) (space : Nat) (p : ElfProgram) (m : Vmm) : Except Vmm Vmm :=
  if !p.isLoad then .ok m
  else if !p.passes size then .error m
  else takePages space m p.requests

section

variable {space : Nat} {m m1 : Vmm} {image : Image} {size : Word} {p : ElfProgram} {n : Nat}

theorem takePages_append (rs rs' : List PageRequest) :
    takePages space m (rs ++ rs') = takePages space m rs >>= fun m => takePages space m rs' :=
  List.foldlM_append

theorem takePages_requests :
    takePages space m p.requests = forRangeE p.pages (fun j m => takePage space m (p.request j)) m := by
  unfold takePages ElfProgram.requests
  rw [List.foldlM_map, forRangeE_eq_foldlM]

theorem passes_iff :
    p.passes size = true ↔ (p.isLoad = true → p.flags &&& 6 ≠ 6 ∧ p.inBounds size = true) := by
  unfold ElfProgram.passes
  rw [Bool.or_eq_true, Bool.and_eq_true, decide_eq_true_eq]
  cases p.isLoad <;> simp

theorem passes_succ :
    image.passes size (n + 1) = (image.passes size n && (image.program n).passes size) := by
  simp [Image.passes, List.range_succ]

theorem plan_eq (n : Nat) : forRangeE n (fun i => planProgram size space (image.program i)) m =
    (takePages space m (image.requests size n) >>=
      fun m => if image.passes size n then .ok m else .error m) := by
  induction n with
  | zero => rfl
  | succ n ih =>
    rw [forRangeE, ih, Image.requests, takePages_append, passes_succ]
    cases takePages space m (image.requests size n) with
    | error m1 => rfl
    | ok m1 =>
      change ((if image.passes size n then .ok m1 else .error m1 : Except Vmm Vmm) >>=
        planProgram size space (image.program n)) = takePages space m1 _ >>= _
      cases hpass : image.passes size n with
      | false => rfl
      | true =>
        unfold planProgram
        cases hload : (image.program n).isLoad with
        | false =>
          have hskip : (image.program n).passes size = true := by simp [ElfProgram.passes, hload]
          rw [hskip]
          rfl
        | true =>
          cases hp : (image.program n).passes size with
          | false => rfl
          | true =>
            change takePages space m1 (image.program n).requests =
              takePages space m1 (image.program n).requests >>= Except.ok
            cases takePages space m1 (image.program n).requests <;> rfl

/-! ## The loader follows its requests -/

structure Follows (space : Nat) (m m1 : Vmm) : Prop where
  same : m = { m1 with phys := m.phys }
  current : m1.currentSpace = some space
  kernel : m1.UserHalfFree

def StopsAt (e : ElfStop) (m1 : Vmm) : Prop := ∃ m, e = .reject m ∧ m = { m1 with phys := m.phys }

theorem fill_phys {a : Word} {f : Nat → Byte} (hc : m.currentSpace = some space)
    (hwrap : a.toNat + n ≤ 2 ^ 32)
    (hmapped : ∀ b : Word, a.toNat ≤ b.toNat → b.toNat < a.toNat + n →
      ∃ pte, userPte (m.spaces space) b = some pte) :
    ∃ m', fill a n f m = .ok m' ∧ m' = { m with phys := m'.phys } := by
  refine forRangeE_inv (fun _ (m' : Vmm) => m' = { m with phys := m'.phys }) n rfl ?_
  intro k hk m' hm'
  have hto : (a + BitVec.ofNat 32 k).toNat = a.toNat + k := by
    rw [BitVec.toNat_add, BitVec.toNat_ofNat]
    omega
  obtain ⟨pte, hpte⟩ := hmapped (a + BitVec.ofNat 32 k) (by omega) (by omega)
  have hspaces : m'.spaces = m.spaces := by rw [hm']
  have hcurrent : m'.currentSpace = some space := by
    rw [hm']
    exact hc
  rw [kernelStore_eq hcurrent (hspaces.symm ▸ hpte)]
  refine ⟨_, rfl, ?_⟩
  rw [hm']

theorem request_va {j : Nat} (hp : p.inBounds size = true) (hj : j < p.pages) :
    (p.request j).va.toNat = p.first.toNat + j * 4096 := by
  obtain ⟨h1, h2, h3, h4⟩ := inBounds_spec hp
  obtain ⟨hfirst, hlast⟩ := first_last hp
  unfold ElfProgram.pages at hj
  unfold ElfProgram.request
  rw [BitVec.toNat_add, BitVec.toNat_ofNat]
  omega

theorem loadPage_follows {j : Nat} (h : Follows space m m1) (hp : p.inBounds size = true)
    (hj : j < p.pages) :
    Simulates StopsAt (fun m' m1' => Follows space m' m1' ∧ ∀ b : Word,
      (pageNumber b = pageNumber (p.request j).va ∨
        ∃ pte, userPte (m1.spaces space) b = some pte) → ∃ pte, userPte (m1'.spaces space) b = some pte)
      (loadPage space p j m) (takePage space m1 (p.request j)) := by
  obtain ⟨h1, h2, h3, h4⟩ := inBounds_spec hp
  obtain ⟨hfirst, hlast⟩ := first_last hp
  have hva := request_va hp hj
  unfold ElfProgram.pages at hj
  obtain ⟨phys, rfl⟩ : ∃ phys, m = { m1 with phys } := ⟨_, h.same⟩
  have hload : loadPage space p j { m1 with phys } =
      match pmmAllocPage m1.pmm with
      | none => .error (.reject { m1 with phys })
      | some (page, pmm) =>
        match vmmMapUser { m1 with phys, pmm } space (p.request j).va page (p.request j).flags with
        | none => .error (.reject { m1 with phys, pmm := pmmFreePage pmm page })
        | some m => fill (p.request j).va 4096 (fun _ => 0) m :=
    if_neg (not_not_intro (getPhysical_user (a := (p.request j).va) h.kernel (by omega) (by omega)))
  rw [hload]
  unfold takePage
  cases pmmAllocPage m1.pmm with
  | none => exact .error ⟨_, rfl, rfl⟩
  | some r =>
    obtain ⟨page, pmm⟩ := r
    dsimp only
    cases hmap : vmmMapUser { m1 with pmm } space (p.request j).va page (p.request j).flags with
    | none =>
      have hmap' : vmmMapUser { m1 with phys, pmm } space (p.request j).va page
          (p.request j).flags = none := by
        unfold vmmMapUser at hmap ⊢
        rw [Option.map_eq_none_iff] at hmap ⊢
        exact hmap
      rw [hmap']
      exact .error ⟨_, rfl, rfl⟩
    | some m2 =>
      have hmap' : vmmMapUser { m1 with phys, pmm } space (p.request j).va page (p.request j).flags =
          some { m2 with phys } := by
        unfold vmmMapUser at hmap ⊢
        obtain ⟨t, ht, rfl⟩ := Option.map_eq_some_iff.mp hmap
        rw [ht]
        rfl
      obtain ⟨-, -, hkernel, hcurrent⟩ := mapUser_frame hmap
      have hmapped : ∀ b : Word, (pageNumber b = pageNumber (p.request j).va ∨
          ∃ pte, userPte (m1.spaces space) b = some pte) →
          ∃ pte, userPte (m2.spaces space) b = some pte :=
        fun b hb => mapUser_mapped hmap hb
      obtain ⟨m3, hfill, hsame⟩ := fill_phys (m := { m2 with phys }) (f := fun _ => 0) (n := 4096)
        (hcurrent.trans h.current) (a := (p.request j).va) (by omega) fun b hb1 hb2 =>
          hmapped b (.inl (by rw [pageNumber_eq, pageNumber_eq]; omega))
      rw [hmap']
      dsimp only
      rw [hfill]
      refine .ok ⟨⟨hsame, hcurrent.trans h.current, ?_⟩, hmapped⟩
      unfold Vmm.UserHalfFree
      rw [hkernel]
      exact h.kernel

theorem loadPages_follow (h : Follows space m m1) (hp : p.inBounds size = true) :
    Simulates StopsAt (fun m' m1' => Follows space m' m1' ∧ ∀ b, p.covers b →
      ∃ pte, userPte (m1'.spaces space) b = some pte)
      (forRangeE p.pages (loadPage space p) m) (takePages space m1 p.requests) := by
  obtain ⟨hfirst, hlast⟩ := first_last hp
  rw [takePages_requests]
  refine Simulates.mono (forRangeE_simulates (fun j m' m1' => Follows space m' m1' ∧ ∀ b : Word,
    p.first.toNat ≤ b.toNat → b.toNat < p.first.toNat + j * 4096 →
    ∃ pte, userPte (m1'.spaces space) b = some pte) ⟨h, fun b _ _ => by omega⟩ ?_) ?_
  · rintro j hj m' m1' ⟨h', hthere⟩
    refine (loadPage_follows h' hp hj).mono ?_
    rintro m2 m3 ⟨h2, hmapped⟩
    refine ⟨h2, fun b hb1 hb2 => hmapped b ?_⟩
    have hva := request_va hp hj
    by_cases hb : b.toNat < p.first.toNat + j * 4096
    · exact .inr (hthere b hb1 hb)
    · left
      rw [pageNumber_eq, pageNumber_eq]
      omega
  · rintro m2 m3 ⟨h2, hmapped⟩
    refine ⟨h2, fun b ⟨hb1, hb2⟩ => hmapped b hb1 ?_⟩
    unfold ElfProgram.pages
    omega

theorem fillSegment_follows (image : Image) (h : Follows space m m1) (hp : p.inBounds size = true)
    (hthere : ∀ b, p.covers b → ∃ pte, userPte (m1.spaces space) b = some pte) :
    ∃ m', (fill p.vaddr p.filesz.toNat (fun k => image (p.offset.toNat + k)) m >>= fun m =>
      fill (p.vaddr + p.filesz) (p.memsz.toNat - p.filesz.toNat) (fun _ => 0) m) = .ok m' ∧
      Follows space m' m1 := by
  obtain ⟨hfile, hlo, hhi, -⟩ := inBounds_spec hp
  have hrest : (p.vaddr + p.filesz).toNat = p.vaddr.toNat + p.filesz.toNat := by
    rw [BitVec.toNat_add]
    omega
  obtain ⟨phys, rfl⟩ : ∃ phys, m = { m1 with phys } := ⟨_, h.same⟩
  obtain ⟨m2, hcopy, hsame⟩ := fill_phys (m := { m1 with phys }) (a := p.vaddr) (n := p.filesz.toNat)
    (f := fun k => image (p.offset.toNat + k)) h.current (by omega) fun b hb1 hb2 =>
      hthere b (covers_of_holds hp ⟨hb1, by omega⟩)
  obtain ⟨phys2, rfl⟩ : ∃ phys2, m2 = { m1 with phys := phys2 } := ⟨_, hsame⟩
  obtain ⟨m3, hzero, hsame3⟩ := fill_phys (m := { m1 with phys := phys2 }) (a := p.vaddr + p.filesz)
    (n := p.memsz.toNat - p.filesz.toNat) (f := fun _ => 0) h.current (by omega) fun b hb1 hb2 =>
      hthere b (covers_of_holds hp ⟨by omega, by omega⟩)
  exact ⟨m3, bind_eq_ok.mpr ⟨_, hcopy, hzero⟩, hsame3, h.current, h.kernel⟩

theorem loadProgram_follows (h : Follows space m m1) :
    Simulates StopsAt (Follows space) (loadProgram image size space p m)
      (planProgram size space p m1) := by
  unfold loadProgram planProgram
  split
  · exact .ok h
  next hload =>
    rw [Bool.not_eq_true, Bool.not_eq_false'] at hload
    have hpass : p.passes size = true ↔ p.flags &&& 6 ≠ 6 ∧ p.inBounds size = true := by
      simp [passes_iff, hload]
    by_cases hflags : p.flags &&& 6 = 6
    · rw [if_pos hflags,
        if_pos (by rw [Bool.not_eq_true', ← Bool.not_eq_true, hpass]; exact fun hc => hc.1 hflags)]
      exact .error ⟨m, rfl, h.same⟩
    by_cases hp : p.inBounds size = true
    · rw [if_neg hflags, if_neg (by simp [hp]), if_neg (by simp [hpass.mpr ⟨hflags, hp⟩]),
        show takePages space m1 p.requests = takePages space m1 p.requests >>= Except.ok by
          cases takePages space m1 p.requests <;> rfl]
      refine (loadPages_follow h hp).bind fun m2 m3 ⟨h2, hthere⟩ => ?_
      obtain ⟨m4, hrun, h4⟩ := fillSegment_follows image h2 hp hthere
      rw [hrun]
      exact .ok h4
    · rw [if_neg hflags, if_pos (by simpa using hp),
        if_pos (by rw [Bool.not_eq_true', ← Bool.not_eq_true, hpass]; exact fun hc => hp hc.2)]
      exact .error ⟨m, rfl, h.same⟩

/-- What `elf32_load` does, up to the bytes: it accepts if all headers pass and all requests are
served. -/
theorem elf32Load_of_valid (space : Nat) (hsize : 52 ≤ size) (hvalid : image.header.valid size = true) :
    elf32Load image size space m = match loadPrograms image size space m with
      | .error (.halt h) => .error h
      | .error (.reject m) => .ok (none, vmmSwitchAddressSpace m none)
      | .ok m => .ok (some image.header.entry, vmmSwitchAddressSpace m none) :=
  if_neg (by rw [hvalid, Bool.true_eq_false, or_false, BitVec.not_lt]; exact hsize)

theorem elf32Load_plan (space : Nat) (hm : m.UserHalfFree) (hsize : 52 ≤ size)
    (hvalid : image.header.valid size = true) :
    ∃ phys, elf32Load image size space m =
      .ok (if (taken image size space m).toBool && image.passes size image.header.phnum.toNat
        then some image.header.entry else none,
        { vmmSwitchAddressSpace (endState (taken image size space m)) none with phys }) := by
  have hloop : Simulates StopsAt (Follows space) (loadPrograms image size space m)
      (forRangeE image.header.phnum.toNat (fun i => planProgram size space (image.program i))
        (vmmSwitchAddressSpace m (some space))) :=
    forRangeE_simulates (fun _ => Follows space) ⟨rfl, rfl, hm⟩ fun i _ m m1 h => loadProgram_follows h
  rw [plan_eq] at hloop
  have helf := elf32Load_of_valid (m := m) space hsize hvalid
  -- the loader ends like its requests, with a rejection if a header failed
  have hreject : ∀ m1, Simulates StopsAt (Follows space) (loadPrograms image size space m) (.error m1) →
      ∃ phys, elf32Load image size space m = .ok (none, { vmmSwitchAddressSpace m1 none with phys }) := by
    intro m1 h
    obtain ⟨e, hrun, m2, rfl, hsame⟩ := simulates_error h
    rw [helf, hrun, hsame]
    exact ⟨_, rfl⟩
  unfold taken
  cases htake : takePages space (vmmSwitchAddressSpace m (some space))
    (image.requests size image.header.phnum.toNat) with
  | error m1 =>
    rw [htake] at hloop
    exact hreject m1 hloop
  | ok m1 =>
    rw [htake] at hloop
    cases hpass : image.passes size image.header.phnum.toNat with
    | false =>
      rw [hpass] at hloop
      exact hreject m1 hloop
    | true =>
      rw [hpass] at hloop
      obtain ⟨m2, hrun, h2⟩ := simulates_ok (t := m1) hloop
      rw [helf, hrun, h2.same]
      exact ⟨_, rfl⟩

theorem takePage_eq (space : Nat) (m : Vmm) (r : PageRequest) : takePage space m r =
    match pmmAllocPage m.pmm, userSlot r.va with
    | none, _ => .error m
    | some (page, pmm), none => .error { m with pmm := pmmFreePage pmm page }
    | some (page, pmm), some t => .ok (({ m with pmm }.markTable space t).setPte space t (tableIndex r.va)
        (pageBase page ||| (r.flags ||| pagePresent ||| pageUser))) := by
  unfold takePage vmmMapUser
  cases pmmAllocPage m.pmm <;> cases userSlot r.va <;> rfl

theorem freeFrames_eq_zero {p : Pmm} : pmmAllocPage p = none ↔ freeFrames p = 0 := by
  constructor
  · intro h
    by_contra hne
    obtain ⟨a, p', ha⟩ := alloc_of_freeFrames (Nat.pos_of_ne_zero hne)
    rw [h] at ha
    cases ha
  · intro h
    cases ha : pmmAllocPage p with
    | none => rfl
    | some r =>
      have := freeFrames_alloc (show pmmAllocPage p = some (r.1, r.2) from ha)
      omega

theorem takePages_ok_iff {rs : List PageRequest} : (takePages space m rs).toBool = true ↔
    (∀ r ∈ rs, (userSlot r.va).isSome = true) ∧ rs.length ≤ freeFrames m.pmm := by
  induction rs generalizing m with
  | nil => exact ⟨fun _ => ⟨nofun, Nat.zero_le _⟩, fun _ => rfl⟩
  | cons r rs ih =>
    have hcons : takePages space m (r :: rs) = takePage space m r >>= fun m => takePages space m rs := rfl
    rw [hcons, takePage_eq, List.forall_mem_cons, List.length_cons]
    cases ha : pmmAllocPage m.pmm with
    | none =>
      have hzero := freeFrames_eq_zero.mp ha
      refine ⟨nofun, fun h => ?_⟩
      omega
    | some x =>
      obtain ⟨page, pmm⟩ := x
      have hfree := freeFrames_alloc ha
      cases hs : userSlot r.va with
      | none => exact ⟨nofun, fun h => absurd h.1.1 (by simp)⟩
      | some t =>
        refine ih.trans ?_
        change _ ∧ rs.length ≤ freeFrames pmm ↔ _
        simp only [Option.isSome_some, true_and]
        constructor
        · rintro ⟨hslots, hlen⟩
          exact ⟨hslots, by omega⟩
        · rintro ⟨hslots, hlen⟩
          exact ⟨hslots, by omega⟩

theorem image_passes_iff : image.passes size n = true ↔
    ∀ i < n, (image.program i).isLoad = true → (image.program i).flags &&& 6 ≠ 6 ∧
    (image.program i).inBounds size = true := by
  simp only [Image.passes, List.all_eq_true, List.mem_range, passes_iff]

theorem requests_of_passes (h : image.passes size n = true) :
    (image.requests size n).length = image.pages n ∧
    ∀ r, r ∈ image.requests size n ↔ ∃ i < n, (image.program i).isLoad = true ∧
    r ∈ (image.program i).requests := by
  induction n with
  | zero => simp [Image.requests, Image.pages, forRange]
  | succ n ih =>
    have hprev : image.passes size n = true := by
      rw [passes_succ, Bool.and_eq_true] at h
      exact h.1
    obtain ⟨hlen, hmem⟩ := ih hprev
    have hpages : image.pages (n + 1) =
        if (image.program n).isLoad then image.pages n + (image.program n).pages else image.pages n := rfl
    rw [Image.requests, h, hpages, Bool.true_and, List.length_append, hlen]
    constructor
    · split
      · simp [ElfProgram.requests]
      · rfl
    · intro r
      rw [List.mem_append, hmem]
      constructor
      · rintro (⟨i, hi, hr⟩ | hr)
        · exact ⟨i, by omega, hr⟩
        · split at hr
          next hl => exact ⟨n, by omega, hl, hr⟩
          next => cases hr
      · rintro ⟨i, hi, hl, hr⟩
        rcases Nat.lt_succ_iff_lt_or_eq.mp hi with hlt | rfl
        · exact .inl ⟨i, hlt, hl, hr⟩
        · rw [if_pos hl]
          exact .inr hr

end

end Ceblar
