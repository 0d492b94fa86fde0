import Ceblar.Lib.Run
import Ceblar.Lib.Word
import Mathlib.Logic.Function.Basic

/-! # Kernel modules (`modules/module.c`)

Modules are registered once, loaded in the order of registration and unloaded by name. A string is the
list of its bytes before the terminating zero.
-/

namespace Ceblar

open Function

/-- `kernel_module_t`, without what no function reads. -/
structure KernelModule where
  name : Option (List Byte)
  /-- There is an `init`; an `exit` has no effect here. -/
  init : Bool
  /-- The entries of `depends` before the first null pointer. -/
  depends : List (List Byte)
  depends_le : depends.length ≤ 4
  /-- No function of `module.c` changes it. -/
  refcount : Int

/-- The static data of `module.c` and the flags in the modules, which are known by number. -/
structure Modules where
  mods : List Nat
  mods_le : mods.length ≤ 32
  loaded : Nat → Bool

def Modules.load (s : Modules) (m : Nat) : Modules := { s with loaded := update s.loaded m true }

def Modules.unload (s : Modules) (m : Nat) : Modules := { s with loaded := update s.loaded m false }

variable (table : Nat → KernelModule)

/-- `name[0] == n[0]`, where an empty string has its terminating zero there. -/
def sameFirst (a n : List Byte) : Bool := a.headD 0 == n.headD 0

def depLoaded (s : Modules) (n : List Byte) : Bool :=
  s.mods.any fun m => s.loaded m && (table m).name.any fun a => sameFirst a n

def moduleRegister (m : Option Nat) (s : Modules) : Int × Modules :=
  match m with
  | none => (-1, s)
  | some m =>
    if h : s.mods.length < 32 then
      (0, { s with
        mods := s.mods ++ [m]
        mods_le := by
          rw [List.length_append]
          exact h })
    else (-1, s)

/-- The loop of `module_load_all`; `initOk` says which initialisers return 0. -/
def loadModules (initOk : Nat → Bool) : List Nat → Modules → Int × Modules
  | [], s => (0, s)
  | m :: ms, s =>
    if (table m).depends.all (depLoaded table s) then
      if !s.loaded m && (table m).init && !initOk m then (-1, s) else loadModules initOk ms (s.load m)
    else (-1, s)

def moduleLoadAll (initOk : Nat → Bool) (s : Modules) : Int × Modules := loadModules table initOk s.mods s

def Modules.named (s : Modules) (n : Option (List Byte)) : Option Nat :=
  s.mods.find? fun m => n.isSome && (table m).name == n

def moduleUnload (n : Option (List Byte)) (s : Modules) : Int × Modules :=
  match s.named table n with
  | none => (-1, s)
  | some m => if 0 < (table m).refcount then (-1, s) else (0, s.unload m)

/-! ## Runs -/

inductive ModuleOp where
  | register (m : Option Nat)
  | loadAll (initOk : Nat → Bool)
  | unload (n : Option (List Byte))

def moduleStep (s : Modules) : ModuleOp → Option Modules
  | .register m => some (moduleRegister m s).2
  | .loadAll initOk => some (moduleLoadAll table initOk s).2
  | .unload n => some (moduleUnload table n s).2

def Modules.start : Modules := ⟨[], by decide, fun _ => false⟩

def Modules.Provides (s : Modules) (n : List Byte) : Prop :=
  ∃ m ∈ s.mods, s.loaded m = true ∧ (table m).name = some n

instance (s : Modules) (n : List Byte) : Decidable (s.Provides table n) :=
  inferInstanceAs (Decidable (∃ m ∈ s.mods, _))

def DepsLoaded (s : Modules) : Prop :=
  ∀ m, s.loaded m = true → ∀ n ∈ (table m).depends, s.Provides table n

/-- In the loop over `ms`, a dependency that `dep_loaded` accepts is the name of a loaded module. -/
def Matched (initOk : Nat → Bool) : List Nat → Modules → Prop
  | [], _ => True
  | m :: ms, s => (∀ n ∈ (table m).depends, depLoaded table s n = true → s.Provides table n) ∧
    ((table m).depends.all (depLoaded table s) = true →
      (s.loaded m || !(table m).init || initOk m) = true → Matched initOk ms (s.load m))

instance Matched.decidable (initOk : Nat → Bool) :
    (ms : List Nat) → (s : Modules) → Decidable (Matched table initOk ms s)
  | [], _ => .isTrue trivial
  | m :: ms, s =>
    have := Matched.decidable initOk ms (s.load m)
    inferInstanceAs (Decidable (_ ∧ (_ → _ → _)))

/-- The condition on a call: a load finds no other module in place of a dependency, and an unload
takes away nothing that another loaded module depends on, unless it is refused. -/
def Sound (s : Modules) : ModuleOp → Prop
  | .register _ => True
  | .loadAll initOk => Matched table initOk s.mods s
  | .unload n => ∀ m ∈ s.named table n, (table m).refcount ≤ 0 →
    ∀ m' ∈ s.mods, m' ≠ m → s.loaded m' = true → ∀ d ∈ (table m').depends, n ≠ some d

instance (s : Modules) (op : ModuleOp) : Decidable (Sound table s op) :=
  match op with
  | .register _ => .isTrue trivial
  | .loadAll initOk => inferInstanceAs (Decidable (Matched table initOk s.mods s))
  | .unload n => inferInstanceAs (Decidable (∀ m ∈ s.named table n, _))

structure ModulesInv (s : Modules) : Prop where
  registered : ∀ m, s.loaded m = true → m ∈ s.mods
  deps : DepsLoaded table s

section

variable {table} {s s' : Modules} {initOk : Nat → Bool}

theorem Modules.Provides.load {n : List Byte} (h : s.Provides table n) (m : Nat) :
    (s.load m).Provides table n := by
  obtain ⟨m', hm, hl, hn⟩ := h
  refine ⟨m', hm, ?_, hn⟩
  by_cases he : m' = m
  · subst he
    exact update_self ..
  · exact (update_of_ne he _ _).trans hl

theorem ModulesInv.load (h : ModulesInv table s) {m : Nat} (hm : m ∈ s.mods)
    (hdeps : ∀ n ∈ (table m).depends, s.Provides table n) : ModulesInv table (s.load m) := by
  constructor
  · intro m' hl
    by_cases he : m' = m
    · subst he
      exact hm
    · exact h.registered m' ((update_of_ne he _ _).symm.trans hl)
  · intro m' hl n hn
    by_cases he : m' = m
    · subst he
      exact (hdeps n hn).load m'
    · exact (h.deps m' ((update_of_ne he _ _).symm.trans hl) n hn).load m

theorem loadModules_inv {ms : List Nat} (hms : ∀ m ∈ ms, m ∈ s.mods) (h : ModulesInv table s)
    (hmatch : Matched table initOk ms s) : ModulesInv table (loadModules table initOk ms s).2 := by
  induction ms generalizing s with
  | nil => exact h
  | cons m ms ih =>
    unfold loadModules
    split
    next hall =>
      split
      next => exact h
      next hinit =>
        have hgo : (s.loaded m || !(table m).init || initOk m) = true := by
          revert hinit
          cases s.loaded m <;> cases (table m).init <;> cases initOk m <;> simp
        refine ih (fun m' hm' => hms m' (List.mem_cons_of_mem _ hm')) ?_ (hmatch.2 hall hgo)
        exact h.load (hms m List.mem_cons_self) fun n hn => hmatch.1 n hn (List.all_eq_true.mp hall n hn)
    next => exact h

theorem ModulesInv.unload (h : ModulesInv table s) {m : Nat}
    (hfree : ∀ m' ∈ s.mods, m' ≠ m → s.loaded m' = true → ∀ d ∈ (table m').depends,
      (table m).name ≠ some d) :
    ModulesInv table (s.unload m) := by
  have hold : ∀ m', (s.unload m).loaded m' = true → m' ≠ m ∧ s.loaded m' = true := by
    intro m' hl
    by_cases he : m' = m
    · subst he
      exact absurd ((update_self ..).symm.trans hl) Bool.false_ne_true
    · exact ⟨he, (update_of_ne he _ _).symm.trans hl⟩
  refine ⟨fun m' hl => h.registered m' (hold m' hl).2, fun m' hl d hd => ?_⟩
  obtain ⟨hne, hl'⟩ := hold m' hl
  obtain ⟨p, hp, hpl, hpn⟩ := h.deps m' hl' d hd
  refine ⟨p, hp, ?_, hpn⟩
  have hpm : p ≠ m := by
    rintro rfl
    exact hfree m' (h.registered m' hl') hne hl' d hd hpn
  exact (update_of_ne hpm _ _).trans hpl

theorem moduleStep_inv {op : ModuleOp} (h : ModulesInv table s) (hsound : Sound table s op)
    (hstep : moduleStep table s op = some s') : ModulesInv table s' := by
  cases op with
  | register m =>
    cases hstep
    unfold moduleRegister
    split
    next => exact h
    next =>
      split
      next =>
        refine ⟨fun m' hl => List.mem_append_left _ (h.registered m' hl), fun m' hl n hn => ?_⟩
        obtain ⟨p, hp, hrest⟩ := h.deps m' hl n hn
        exact ⟨p, List.mem_append_left _ hp, hrest⟩
      next => exact h
  | loadAll initOk =>
    cases hstep
    exact loadModules_inv (fun m hm => hm) h hsound
  | unload n =>
    cases hstep
    unfold moduleUnload
    split
    next => exact h
    next m hfind =>
      split
      next => exact h
      next hrefs =>
        have hfound := List.find?_some hfind
        rw [Bool.and_eq_true, beq_iff_eq] at hfound
        refine h.unload ?_
        rw [hfound.2]
        exact hsound m hfind (by omega)

end

theorem deps_loaded (table : Nat → KernelModule) {ops : List ModuleOp} {s : Modules}
    (hsound : Along (Sound table) (moduleStep table) .start ops)
    (hrun : runs (moduleStep table) .start ops = some s) :
    DepsLoaded table s := by
  have hstart : ModulesInv table .start :=
    ⟨fun _ hl => Bool.noConfusion hl, fun _ hl => Bool.noConfusion hl⟩
  exact (runs_inv_along (ModulesInv table)
    (fun _ _ _ h hs hstep => moduleStep_inv h hs hstep) hstart hsound hrun).deps

/-! ## Two modules -/

def netModule : KernelModule := ⟨some [110, 101, 116], true, [], by decide, 0⟩

def appModule : KernelModule := ⟨some [97, 112, 112], true, [[110, 101, 116]], by decide, 0⟩

def diskModule : KernelModule := ⟨some [100, 105, 115, 107], true, [[110, 102, 115]], by decide, 0⟩

def netApp (m : Nat) : KernelModule := if m = 0 then netModule else appModule

def netDisk (m : Nat) : KernelModule := if m = 0 then netModule else diskModule

def loadBoth : List ModuleOp := [.register (some 0), .register (some 1), .loadAll fun _ => true]

/-- `app` is unloaded and both are loaded again. -/
theorem deps_loaded_in_order : ∃ s,
    runs (moduleStep netApp) .start (loadBoth ++ [.unload appModule.name, .loadAll fun _ => true]) =
      some s ∧
    s.loaded 0 = true ∧ s.loaded 1 = true ∧ DepsLoaded netApp s := by
  have hsound : Along (Sound netApp) (moduleStep netApp) .start
      (loadBoth ++ [.unload appModule.name, .loadAll fun _ => true]) :=
    along_of_check (fun _ _ h => of_decide_eq_true h) (by decide)
  exact ⟨_, rfl, by decide, by decide, deps_loaded netApp hsound rfl⟩

/-- `net` passes for `nfs`, which has the same first character; and `net` is unloaded while `app`
needs it. -/
theorem deps_not_loaded :
    (∃ s, runs (moduleStep netDisk) .start loadBoth = some s ∧ ¬ DepsLoaded netDisk s) ∧
    ∃ s, runs (moduleStep netApp) .start (loadBoth ++ [.unload netModule.name]) = some s ∧
    ¬ DepsLoaded netApp s := by
  refine ⟨⟨_, rfl, fun h => ?_⟩, ⟨_, rfl, fun h => ?_⟩⟩
  · exact absurd (h 1 (by decide) [110, 102, 115] (by decide)) (by decide)
  · exact absurd (h 1 (by decide) [110, 101, 116] (by decide)) (by decide)

end Ceblar
