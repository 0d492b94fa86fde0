import Ceblar.Kernel.Pids
import Ceblar.Scheduler.Contexts

/-! # Contexts of new processes

Outside of the switches, the only contexts that are written are those of new processes, which have
no frame before they are first interrupted.
-/

namespace Ceblar

structure KeepsContexts (k k' : Kernel) : Prop where
  current : k'.current = k.current
  idle : k'.idle.saved = k.idle.saved
  slot : ∀ i, (k.processes i).allocated = true → (k'.processes i).allocated = true →
    (k'.processes i).saved = (k.processes i).saved
  fresh : ∀ i, (k.processes i).allocated = false → (k'.processes i).allocated = true →
    (k'.processes i).interruptFrame = none

section

variable {k k1 k' : Kernel} {i j : Nat}

theorem Marks.keepsContexts (h : Marks k k') : KeepsContexts k k' where
  current := h.current
  idle := h.keepsSaved.saved .idle
  slot i _ _ := h.keepsSaved.saved (.slot i)
  fresh i hfree ha := by
    rw [h.keepsSaved.allocated i, hfree] at ha
    cases ha

theorem Claimed.keepsContexts (h : Claimed k j k1) (hm : Marks k1 k') : KeepsContexts k k' where
  current := hm.current.trans h.current
  idle := (hm.keepsSaved.saved .idle).trans (congrArg Pcb.saved h.idle)
  slot i ha _ := by
    refine (hm.keepsSaved.saved (.slot i)).trans (congrArg Pcb.saved (h.others i ?_))
    rintro rfl
    rw [h.free] at ha
    cases ha
  fresh i hfree ha := by
    rw [hm.keepsSaved.allocated i] at ha
    refine (congrArg Saved.frame (hm.keepsSaved.saved (.slot i))).trans ?_
    by_cases hij : i = j
    · subst hij
      exact h.frame ha
    · rw [h.others i hij, hfree] at ha
      cases ha

theorem Forked.keepsContexts {res : Option Nat × Kernel} (hf : Forked k res) : KeepsContexts k res.2 := by
  cases hf with
  | creation hc =>
    cases hc with
    | refused vmm =>
      exact ⟨rfl, rfl, fun _ _ _ => rfl, fun _ hfree ha => absurd (hfree.symm.trans ha) (by decide)⟩
    | failed hj => exact hj.keepsContexts (Marks.refl _)
    | made hj ha => exact hj.keepsContexts (Marks.refl _)
  | ended hj ha hexit => exact hj.keepsContexts (exit_marks hexit)

theorem wait_contexts {child status rc : Word} (h : processWait child status k = .ok (rc, k')) :
    KeepsContexts k k' := by
  rcases wait_inv h with ⟨-, -, rfl⟩ | ⟨i, hi, ⟨hz, -, vmm, -, rfl⟩ | ⟨-, -, rfl⟩⟩
  · exact (Marks.refl _).keepsContexts
  · refine ⟨rfl, rfl, fun j hj hj' => ?_, fun j hfree hj => ?_⟩
    all_goals by_cases hji : j = i
    · subst hji
      rw [modify_self] at hj'
      cases hj'
    · rw [modify_ne _ _ hji]
    · subst hji
      rw [modify_self] at hj
      cases hj
    · rw [modify_ne _ _ hji] at hj
      rw [hfree] at hj
      cases hj
  · refine Marks.keepsContexts (marks_modifyRef k k.current ?_)
    exact fun _ => rfl

def KernelOp.switches : KernelOp → Bool
  | .timerTick _ _ | .blockCurrent _ _ => true
  | _ => false

theorem kernelStep_contexts {s s' : System} {op : KernelOp} (hop : op.switches = false)
    (h : kernelStep s op = some s') :
    KeepsContexts s.kernel s'.kernel := by
  cases op with
  | createEntry | createThread | createUser | createFromPath | fork =>
    obtain ⟨res, hf, rfl⟩ := kernelStep_creates rfl h
    exact hf.keepsContexts
  | timerTick | blockCurrent => cases hop
  | wait child status =>
    obtain ⟨⟨rc, hw⟩, -⟩ := after_map_inv h
    exact wait_contexts hw
  | add | exitWithStatus | sendSignal | futexWait | futexWake | pollTimeouts | timerIrq | memory =>
    exact (kernelStep_marks rfl h).keepsContexts

end

end Ceblar
