import Ceblar.Kernel.Exec
import Ceblar.Kernel.Marks
import Ceblar.Kernel.Pids

/-! # What leaves the address spaces alone

Scheduling, signals, futexes and exits change neither who refers to a space nor its count.
-/

namespace Ceblar

/-! ## The table -/

structure KeepsSpaces (k k' : Kernel) : Prop where
  pcb : ∀ i, (k'.processes i).allocated = (k.processes i).allocated ∧
    (k'.processes i).addressSpace = (k.processes i).addressSpace
  idle : k'.idle.addressSpace = k.idle.addressSpace
  refs : KeepsRefs k.vmm k'.vmm

def KeepsSpace (f : Pcb → Pcb) : Prop :=
  ∀ p, (f p).allocated = p.allocated ∧ (f p).addressSpace = p.addressSpace

section

variable {k k1 k' : Kernel} {i : Nat}

theorem KeepsSpaces.refl (k : Kernel) : KeepsSpaces k k := ⟨fun _ => ⟨rfl, rfl⟩, rfl, KeepsRefs.refl _⟩

theorem KeepsSpaces.trans (h1 : KeepsSpaces k k1) (h2 : KeepsSpaces k1 k') : KeepsSpaces k k' :=
  ⟨fun i => ⟨(h2.pcb i).1.trans (h1.pcb i).1, (h2.pcb i).2.trans (h1.pcb i).2⟩, h2.idle.trans h1.idle,
    h1.refs.trans h2.refs⟩

theorem keepsSpaces_of_eq (hp : k'.processes = k.processes) (hi : k'.idle = k.idle)
    (hm : KeepsRefs k.vmm k'.vmm) :
    KeepsSpaces k k' :=
  ⟨fun i => by rw [hp]; exact ⟨rfl, rfl⟩, by rw [hi], hm⟩

theorem keepsSpaces_modify (k : Kernel) (i : Nat) {f : Pcb → Pcb} (hf : KeepsSpace f) :
    KeepsSpaces k (k.modify i f) := by
  refine ⟨fun j => ?_, rfl, KeepsRefs.refl _⟩
  by_cases hj : j = i
  · subst hj
    rw [modify_self]
    exact hf _
  · rw [modify_ne _ _ hj]
    exact ⟨rfl, rfl⟩

theorem keepsSpaces_modifyRef (k : Kernel) (ref : PcbRef) {f : Pcb → Pcb} (hf : KeepsSpace f) :
    KeepsSpaces k (k.modifyRef f ref) := by
  cases ref with
  | idle => exact ⟨fun _ => ⟨rfl, rfl⟩, (hf k.idle).2, KeepsRefs.refl _⟩
  | slot i => exact keepsSpaces_modify k i hf

theorem keepsSpaces_vmm {m : Vmm} (hm : KeepsRefs k.vmm m) : KeepsSpaces k { k with vmm := m } :=
  keepsSpaces_of_eq rfl rfl hm

theorem Marks.keepsSpaces (h : Marks k k') : KeepsSpaces k k' where
  pcb i := ⟨h.kept (fun _ _ => rfl) i, h.kept (fun _ _ => rfl) i⟩
  idle := h.kept_idle fun _ _ => rfl
  refs := h.vmm.toKeepsRefs

theorem keepsSpaces_activate (k : Kernel) (i : Nat) : KeepsSpaces k (activate i k) := by
  unfold activate
  have hrun := keepsSpaces_modify k i (f := fun p => { p with state := .running }) fun _ => ⟨rfl, rfl⟩
  exact hrun.trans (keepsSpaces_of_eq rfl rfl (keepsRefs_switch _ _))

theorem keepsSpaces_activateRef (k : Kernel) (ref : PcbRef) : KeepsSpaces k (activateRef ref k) := by
  cases ref with
  | idle => exact ⟨fun _ => ⟨rfl, rfl⟩, rfl, keepsRefs_switch _ _⟩
  | slot i => exact keepsSpaces_activate k i

theorem restart_spaces (k : Kernel) (ref : PcbRef) :
    KeepsSpaces k (k.modifyRef (fun p => { p with state := .running }) ref) :=
  keepsSpaces_modifyRef k ref fun _ => ⟨rfl, rfl⟩

theorem settle_spaces (k : Kernel) (ref : PcbRef) : KeepsSpaces k (settle ref k) :=
  keepsSpaces_of_eq rfl rfl (KeepsRefs.refl _)

theorem tick_spaces {r f : FramePtr} (h : schedulerTimerTick r k = .ok (f, k')) : KeepsSpaces k k' := by
  obtain ⟨k1, hpoll, ⟨-, -, rfl⟩ | ⟨k2, n, k3, hreq, hnext, hend⟩⟩ := tick_cases h
  · refine (poll_marks hpoll).keepsSpaces.trans (keepsSpaces_modifyRef _ _ ?_)
    exact fun _ => ⟨rfl, rfl⟩
  · have hstamp : KeepsSpaces k1 (stamp r k1) := keepsSpaces_modifyRef _ _ fun _ => ⟨rfl, rfl⟩
    have hlist := (requeue_marks hreq).trans (nextReady_relinks hnext).marks
    have h3 : KeepsSpaces k k3 := ((poll_marks hpoll).keepsSpaces.trans hstamp).trans hlist.keepsSpaces
    refine h3.trans ?_
    cases hend with
    | again => exact KeepsSpaces.refl _
    | none hne =>
      refine KeepsSpaces.trans ?_ (settle_spaces _ _)
      unfold restore
      split
      · exact restart_spaces _ _
      · exact KeepsSpaces.refl _
    | other hne => exact keepsSpaces_activate _ _

theorem block_spaces {r f : FramePtr} (h : schedulerBlockCurrent r k = .ok (f, k')) :
    KeepsSpaces k k' := by
  obtain ⟨n, k2, hnext, hend⟩ := block_inv h
  have hsuspend : KeepsSpaces k (suspend r k) := keepsSpaces_modifyRef _ _ fun _ => ⟨rfl, rfl⟩
  refine (hsuspend.trans (nextReady_relinks hnext).marks.keepsSpaces).trans ?_
  cases hend with
  | none k1 hk1 =>
    refine KeepsSpaces.trans ?_ (settle_spaces _ _)
    rw [hk1]
    split
    · exact restart_spaces _ _
    · exact KeepsSpaces.refl _
  | other i => exact keepsSpaces_activate _ _

theorem yield_spaces {cpu : CalleeSaved} {loaded : Option CalleeSaved}
    (h : schedulerYield cpu k = .ok (loaded, k')) :
    KeepsSpaces k k' := by
  obtain ⟨k2, n, k3, hreq, hnext, hend⟩ := yield_inv h
  have hstamp : KeepsSpaces k (k.modifyRef (fun p => { p with ticks := 0 }) k.current) :=
    keepsSpaces_modifyRef _ _ fun _ => ⟨rfl, rfl⟩
  refine (hstamp.trans ((requeue_marks hreq).trans (nextReady_relinks hnext).marks).keepsSpaces).trans ?_
  cases hend with
  | again => exact KeepsSpaces.refl _
  | other hne k1 h1 =>
    rw [h1]
    refine (keepsSpaces_activateRef _ _).trans (keepsSpaces_modifyRef _ _ ?_)
    exact fun _ => ⟨rfl, rfl⟩

end

/-! ## The heap -/

section

variable {h h' : Heap}

theorem grow_spaces {rc : Int} (hg : grow h = .ok (rc, h')) : SameSpaces h.vmm h'.vmm := by
  unfold grow at hg
  split at hg
  · cases hg
    exact SameSpaces.refl _
  · rename_i page pmm _
    have hpmm : SameSpaces h.vmm { h.vmm with pmm } := ⟨rfl, rfl, rfl⟩
    have hmap := hpmm.trans (sameSpaces_vmmMap _ h.heapVirtTop page pageWrite)
    dsimp only at hg
    split at hg
    · cases hg
    · split at hg
      · cases hg
        exact hmap
      · obtain ⟨t, -, hg⟩ := bind_eq_ok.mp hg
        cases hg
        exact hmap

theorem kmallocLoop_spaces {n : Word} {fuel : Nat} {p : Word} (hk : kmallocLoop n fuel h = .ok (p, h')) :
    SameSpaces h.vmm h'.vmm := by
  induction fuel generalizing h with
  | zero => cases hk
  | succ fuel ih =>
    obtain ⟨fit, -, hk⟩ := bind_eq_ok.mp hk
    cases fit with
    | some b =>
      cases hk
      exact SameSpaces.refl _
    | none =>
      obtain ⟨⟨rc, h1⟩, hg, hk⟩ := bind_eq_ok.mp hk
      dsimp only at hk
      split at hk
      · cases hk
        exact grow_spaces hg
      · exact (grow_spaces hg).trans (ih hk)

theorem kmalloc_spaces {area n p : Word} (hk : kmalloc area n h = .ok (p, h')) :
    SameSpaces h.vmm h'.vmm := by
  have hinit : (if h.head = 0 then heapInit area h else h).vmm = h.vmm := by
    split
    · rfl
    · rfl
  dsimp only [kmalloc] at hk
  split at hk
  · cases hk
    rw [hinit]
    exact SameSpaces.refl _
  · rw [← hinit]
    exact kmallocLoop_spaces hk

theorem kfree_vmm {p : Word} (hk : kfree p h = .ok h') : h'.vmm = h.vmm := by
  dsimp only [kfree] at hk
  split at hk
  · cases hk
    rfl
  · split at hk
    · obtain ⟨mem, -, hk⟩ := bind_eq_ok.mp hk
      cases hk
      rfl
    · cases hk
      rfl

end

section

variable {o o' : Os} {p : Word}

theorem osKmalloc_inv {n : Word} (h : o.kmalloc n = .ok (p, o')) :
    o'.kernel = { o.kernel with vmm := o'.kernel.vmm } ∧ o'.vfs = o.vfs ∧
    SameSpaces o.kernel.vmm o'.kernel.vmm := by
  obtain ⟨⟨p1, h1⟩, hk, h⟩ := bind_eq_ok.mp h
  cases h
  exact ⟨rfl, rfl, kmalloc_spaces hk⟩

theorem osKfree_inv (h : o.kfree p = .ok o') : o'.kernel = o.kernel ∧ o'.vfs = o.vfs := by
  obtain ⟨h1, hk, h⟩ := bind_eq_ok.mp h
  cases h
  have hv : h1.vmm = o.kernel.vmm := kfree_vmm hk
  refine ⟨?_, rfl⟩
  simp only [Os.setHeap, Os.setVmm, hv]

theorem osKmalloc_pending {n : Word} (h : o.kmalloc n = .ok (p, o')) :
    o'.execPending = o.execPending := by
  obtain ⟨⟨p1, h1⟩, -, h⟩ := bind_eq_ok.mp h
  cases h
  rfl

theorem osKfree_pending (h : o.kfree p = .ok o') : o'.execPending = o.execPending := by
  obtain ⟨h1, -, h⟩ := bind_eq_ok.mp h
  cases h
  rfl

end

/-! ## Loading a program -/

inductive LoadsIn (m : Vmm) : Except ElfStop Vmm → Prop
  | done {m' : Vmm} (h : InActive m m') : LoadsIn m (.ok m')
  | reject {m' : Vmm} (h : InActive m m') : LoadsIn m (.error (.reject m'))
  | halt (e : Halt) : LoadsIn m (.error (.halt e))

section

variable {m : Vmm} {space : Nat} {image : Image} {size : Word} {p : ElfProgram}

theorem LoadsIn.after {m1 : Vmm} {res : Except ElfStop Vmm} (h : LoadsIn m1 res)
    (h1 : InActive m m1) : LoadsIn m res := by
  cases h with
  | done h => exact .done (h1.trans h)
  | reject h => exact .reject (h1.trans h)
  | halt e => exact .halt e

theorem LoadsIn.bind {res : Except ElfStop Vmm} {f : Vmm → Except ElfStop Vmm} (h : LoadsIn m res)
    (hf : ∀ m1, InActive m m1 → LoadsIn m1 (f m1)) : LoadsIn m (res >>= f) := by
  cases h with
  | done h => exact (hf _ h).after h
  | reject h => exact .reject h
  | halt e => exact .halt e

theorem loadsIn_forRangeE {body : Nat → Vmm → Except ElfStop Vmm} (n : Nat)
    (hbody : ∀ j m1, InActive m m1 → LoadsIn m1 (body j m1)) : LoadsIn m (forRangeE n body m) := by
  induction n with
  | zero => exact .done (InActive.refl m)
  | succ n ih => exact ih.bind (hbody n)

theorem loadsIn_fill (a : Word) (n : Nat) (f : Nat → Byte) (m : Vmm) : LoadsIn m (fill a n f m) := by
  refine loadsIn_forRangeE n fun j m1 _ => ?_
  cases h : m1.kernelStore (a + BitVec.ofNat 32 j) (f j) with
  | error e => exact .halt e
  | ok m2 => exact .done (inActive_kernelStore h)

theorem loadsIn_loadPage (hc : m.currentSpace = some space) (j : Nat) :
    LoadsIn m (loadPage space p j m) := by
  dsimp only [loadPage]
  split
  · exact .done (InActive.refl m)
  · split
    · exact .reject (InActive.refl m)
    · rename_i page pmm _
      have hpmm : InActive m { m with pmm } := inActive_of_eq rfl rfl rfl
      split
      · exact .reject (inActive_of_eq rfl rfl rfl)
      · rename_i m1 hmap
        exact (loadsIn_fill _ _ _ m1).after (hpmm.trans (inActive_mapUser hc hmap))

theorem loadsIn_loadProgram (hc : m.currentSpace = some space) :
    LoadsIn m (loadProgram image size space p m) := by
  unfold loadProgram
  split
  · exact .done (InActive.refl m)
  · split
    · exact .reject (InActive.refl m)
    · split
      · exact .reject (InActive.refl m)
      · refine LoadsIn.bind
          (loadsIn_forRangeE _ fun j m1 h1 => loadsIn_loadPage (h1.current.trans hc) j) fun _ _ => ?_
        exact (loadsIn_fill _ _ _ _).bind fun m2 _ => loadsIn_fill _ _ _ _

theorem loadsIn_loadPrograms (image : Image) (size : Word) (space : Nat) (m : Vmm) :
    LoadsIn (vmmSwitchAddressSpace m (some space)) (loadPrograms image size space m) :=
  loadsIn_forRangeE _ fun _ _ h1 => loadsIn_loadProgram (h1.current.trans rfl)

/-- What `elf32_load` does outside the space that it fills: it leaves no space active, unless the
header was refused. -/
theorem elf32Load_outside {m' : Vmm} {entry : Option Word}
    (h : elf32Load image size space m = .ok (entry, m')) :
    KeepsRefs m m' ∧ (∀ i, i ≠ space → m'.spaces i = m.spaces i) ∧
      ((size < 52 ∨ image.header.valid size = false) ∧ m' = m ∨
        ¬(size < 52 ∨ image.header.valid size = false) ∧ m'.currentSpace = none) := by
  have hload := loadsIn_loadPrograms image size space m
  have hout : ∀ m1, InActive (vmmSwitchAddressSpace m (some space)) m1 →
      KeepsRefs m (vmmSwitchAddressSpace m1 none) ∧
        ∀ i, i ≠ space → (vmmSwitchAddressSpace m1 none).spaces i = m.spaces i := by
    intro m1 h1
    refine ⟨((keepsRefs_switch m _).trans h1.toKeepsRefs).trans (keepsRefs_switch _ _), fun i hi => ?_⟩
    exact h1.others i fun he => hi (Option.some.inj he).symm
  unfold elf32Load at h
  split at h
  · rename_i hbad
    cases h
    exact ⟨KeepsRefs.refl _, fun _ _ => rfl, .inl ⟨hbad, rfl⟩⟩
  · rename_i hgood
    split at h
    · cases h
    · rename_i m1 hres
      cases h
      rw [hres] at hload
      cases hload with
      | reject hin => exact ⟨(hout m1 hin).1, (hout m1 hin).2, .inr ⟨hgood, rfl⟩⟩
    · rename_i m1 hres
      cases h
      rw [hres] at hload
      cases hload with
      | done hin => exact ⟨(hout m1 hin).1, (hout m1 hin).2, .inr ⟨hgood, rfl⟩⟩

end

end Ceblar
