import Ceblar.Mm.Ordered

/-! # Rules for the calls of the heap

A property of the blocks that every part of a call keeps is kept by the calls, together with the set
of live pointers.
-/

namespace Ceblar

structure BlockRule (Q : Heap → List Extent → Prop) (OkFree : Heap → Word → Prop)
    (OkCut : Heap → Word → Word → Prop) : Prop where
  grow : ∀ {h h' : Heap} {es : List Extent}, Ordered h es → Q h es → grow h = .ok (0, h') →
    Q h' (es ++ [h.newPage])
  take : ∀ {h : Heap} {l r : List Extent} {e : Extent} {n : Word} {m : Mem}, Q h (l ++ e :: r) →
    e.fits (roundUp n).toNat = true → Q { h with mem := m } (l ++ (e.taken (roundUp n).toNat ++ r))
  cut : ∀ {h : Heap} {l r : List Extent} {e : Extent} {n : Word} {m : Mem},
    Ordered h (l ++ e :: r) → Q h (l ++ e :: r) →
    e.free = false → OkCut h (e.addr + headerSize) n →
    Q { h with mem := m } (l ++ (e.divide 16 8 n.toNat ++ r))
  free : ∀ {h : Heap} {l r : List Extent} {e : Extent} {m : Mem}, Ordered h (l ++ e :: r) →
    Q h (l ++ e :: r) →
    e.free = false → OkFree h (e.addr + headerSize) → Q { h with mem := m } (released l e r)
  write : ∀ {h : Heap} {es : List Extent} {m : Mem}, Q h es → Q { h with mem := m } es
  frames : ∀ {h : Heap} {es : List Extent} {pmm : Pmm}, Q h es → Q { h with vmm := { h.vmm with pmm } } es

def Kept (Q : Heap → List Extent → Prop) (h : Heap) (live : List Word) : Prop :=
  ∃ es, Ordered h es ∧ Q h es ∧ ∀ p, p ∈ live ↔ LivePtr es p

/-- The live pointers after `krealloc(p, n)` returned `q`. -/
def reallocated (n p q : Word) (live : List Word) : List Word :=
  if q = 0 then (if n = 0 then live.filter (· ≠ p) else live) else q :: live.filter (· ≠ p)

section

variable {Q : Heap → List Extent → Prop} {OkFree : Heap → Word → Prop} {OkCut : Heap → Word → Word → Prop}
  {area n p q : Word} {h h' : Heap} {live : List Word} {es : List Extent}

theorem Kept.zero_not_mem (hk : Kept Q h live) : 0 ∉ live := by
  obtain ⟨es, hs, -, hlive⟩ := hk
  intro h0
  obtain ⟨e, he, -, heq⟩ := (hlive 0).mp h0
  exact payload_ne_zero (chain_header hs.chain he) heq.symm

theorem BlockRule.grown (R : BlockRule Q OkFree OkCut) (hs : Ordered h es) (hQ : Q h es)
    (hg : Grown h h') :
    ∃ es', Ordered h' es' ∧ Q h' es' ∧ ∀ d : Extent, d.free = false → (d ∈ es' ↔ d ∈ es) := by
  induction hg with
  | refl => exact ⟨es, hs, hQ, fun _ _ => Iff.rfl⟩
  | tail _ hlast ih =>
    obtain ⟨es1, hs1, hQ1, hsame⟩ := ih
    refine ⟨_, (hs1.grow hlast).1, R.grow hs1 hQ1 hlast, fun d hd => ?_⟩
    rw [← hsame d hd, List.mem_append, List.mem_singleton, or_iff_left]
    rintro rfl
    cases hd

theorem BlockRule.kmalloc_blocks (R : BlockRule Q OkFree OkCut) (hs : Ordered h es) (hQ : Q h es)
    (hrun : kmalloc area n h = .ok (p, h')) :
    ∃ es', Ordered h' es' ∧ Q h' es' ∧
      ((p = 0 ∧ ∀ d : Extent, d.free = false → (d ∈ es' ↔ d ∈ es)) ∨
        ∃ e, Allocated es es' (roundUp n).toNat e ∧ p = e.addr + headerSize) := by
  rcases kmalloc_grown hs.head_ne hrun with ⟨h1, b, hgrown, hfit, rfl, rfl⟩ | ⟨rfl, hgrown⟩
  · obtain ⟨es1, hs1, hQ1, hsame⟩ := R.grown hs hQ hgrown
    obtain ⟨l, e, r, rfl, hfits, rfl⟩ := findFit_chain hs1.chain hfit
    obtain ⟨f, hf, haddr⟩ := allocated_take (chain_spaced hs1.chain) hfits
    have htake := chain_take hs1.chain (fits_iff.mp hfits).2
    refine ⟨_, hs1.replace _ htake (tiles_taken _ e), R.take hQ1 hfits, .inr ⟨f, ?_, by rw [haddr]⟩⟩
    refine ⟨hf.live, hf.room, fun hmem => hf.fresh ((hsame f hf.live).mpr hmem), fun d hd => ?_⟩
    rw [hf.mem d hd, hsame d hd]
  · obtain ⟨es1, hs1, hQ1, hsame⟩ := R.grown hs hQ hgrown
    exact ⟨es1, hs1, hQ1, .inl ⟨rfl, hsame⟩⟩

theorem BlockRule.kmalloc (R : BlockRule Q OkFree OkCut) (hk : Kept Q h live)
    (hrun : kmalloc area n h = .ok (p, h')) : Kept Q h' (if p = 0 then live else p :: live) := by
  obtain ⟨es, hs, hQ, hlive⟩ := hk
  obtain ⟨es', hs', hQ', ⟨rfl, hsame⟩ | ⟨e, he, rfl⟩⟩ := R.kmalloc_blocks hs hQ hrun
  · refine ⟨es', hs', hQ', fun p => ?_⟩
    rw [if_pos rfl, hlive, livePtr_congr hsame]
  · have hmem : e ∈ es' := (he.mem e he.live).mpr (Or.inr rfl)
    refine ⟨es', hs', hQ', fun p => ?_⟩
    rw [if_neg (payload_ne_zero (chain_header hs'.chain hmem)), List.mem_cons, hlive, he.livePtr, or_comm]

theorem BlockRule.kfree_blocks (R : BlockRule Q OkFree OkCut) {e : Extent} (hs : Ordered h es)
    (hQ : Q h es) (he : e ∈ es) (hlive : e.free = false) (hok : OkFree h (e.addr + headerSize))
    (hrun : kfree (e.addr + headerSize) h = .ok h') :
    ∃ es', Ordered h' es' ∧ Q h' es' ∧ ∀ p, LivePtr es' p ↔ LivePtr es p ∧ p ≠ e.addr + headerSize := by
  obtain ⟨l, r, rfl⟩ := List.append_of_mem he
  obtain ⟨m, hfree, hchain, -⟩ := kfree_chain hs.chain hlive
  rw [hrun] at hfree
  cases hfree
  exact ⟨_, hs.release hchain, R.free hs hQ hlive hok, livePtr_released hs.chain⟩

theorem BlockRule.kfree (R : BlockRule Q OkFree OkCut) (hk : Kept Q h live) (hp : p = 0 ∨ p ∈ live)
    (hok : p ≠ 0 → OkFree h p) (hrun : kfree p h = .ok h') : Kept Q h' (live.filter (· ≠ p)) := by
  have hzero := hk.zero_not_mem
  obtain ⟨es, hs, hQ, hlive⟩ := hk
  rcases hp with rfl | hp
  · cases hrun
    refine ⟨es, hs, hQ, fun x => ?_⟩
    rw [← hlive, List.mem_filter, and_iff_left_iff_imp]
    intro hx
    simpa using fun h0 : x = 0 => hzero (h0 ▸ hx)
  · obtain ⟨e, he, hfree, rfl⟩ := (hlive p).mp hp
    obtain ⟨es', hs', hQ', hlive'⟩ :=
      R.kfree_blocks hs hQ he hfree (hok (payload_ne_zero (chain_header hs.chain he))) hrun
    refine ⟨es', hs', hQ', fun x => ?_⟩
    rw [hlive', ← hlive, List.mem_filter]
    simp

/-- What the rule needs of `krealloc(p, n)`: a size that does not wrap, and that the block may be cut, or
freed at once or after the copy. -/
structure ReallocOk (OkFree : Heap → Word → Prop) (OkCut : Heap → Word → Word → Prop) (area : Word)
    (h : Heap) (p n : Word) : Prop where
  rounds : n.toNat ≤ 0xfffffff8
  frees : n = 0 → OkFree h p
  cuts : n ≠ 0 → n ≤ field h.mem (p - headerSize) .size → OkCut h p n
  moves : field h.mem (p - headerSize) .size < n → ∀ q h1 m, Ceblar.kmalloc area n h = .ok (q, h1) →
    copyFrom (p - headerSize) p q (2 ^ 32 + 1) 0 h1.mem = .ok m → OkFree { h1 with mem := m } p

theorem BlockRule.krealloc (R : BlockRule Q OkFree OkCut) (hk : Kept Q h live) (hp : p ∈ live)
    (hok : ReallocOk OkFree OkCut area h p n) (hrun : krealloc area p n h = .ok (q, h')) :
    Kept Q h' (reallocated n p q live) := by
  obtain ⟨es, hs, hQ, hlive⟩ := hk
  obtain ⟨e, he, hfree, rfl⟩ := (hlive p).mp hp
  have hheader := chain_header hs.chain he
  have hcuts := hok.cuts
  have hmoves := hok.moves
  rw [payload_sub] at hcuts hmoves
  rcases krealloc_cases hheader hfree hrun with ⟨hn, rfl, hrel⟩ |
    ⟨hn, ⟨hfit, rfl, rfl⟩ | ⟨hlong, h1, hmalloc, hrest⟩⟩
  · obtain ⟨es', hs', hQ', hlive'⟩ := R.kfree_blocks hs hQ he hfree (hok.frees hn) hrel
    refine ⟨es', hs', hQ', fun x => ?_⟩
    rw [reallocated, if_pos rfl, if_pos hn, List.mem_filter, hlive, hlive']
    simp
  · obtain ⟨l, r, rfl⟩ := List.append_of_mem he
    have hcut := R.cut (m := split h.mem e.addr n) hs hQ hfree
      (hcuts hn (by rw [BitVec.le_def, hheader.size_toNat]; exact hfit))
    refine ⟨_, hs.replace _ (chain_split hs.chain hfit) (tiles_divide 8 e), hcut, fun x => ?_⟩
    rw [reallocated, if_neg (payload_ne_zero hheader), livePtr_divide hfree, ← hlive, List.mem_cons,
      List.mem_filter]
    by_cases hx : x = e.addr + headerSize
    · simp [hx, hp]
    · simp [hx]
  · obtain ⟨es1, hs1, hQ1, hnew⟩ := R.kmalloc_blocks hs hQ hmalloc
    rcases hrest with ⟨rfl, rfl⟩ | ⟨hq, m, hcopy, hrel⟩
    · rcases hnew with ⟨-, hsame⟩ | ⟨f, hf, h0⟩
      · refine ⟨es1, hs1, hQ1, fun x => ?_⟩
        rw [reallocated, if_pos rfl, if_neg hn, hlive, livePtr_congr hsame]
      · have hf1 : f ∈ es1 := (hf.mem f hf.live).mpr (Or.inr rfl)
        exact absurd h0.symm (payload_ne_zero (chain_header hs1.chain hf1))
    · obtain ⟨f, hf, rfl⟩ := hnew.resolve_left fun hnull => hq hnull.1
      have hf1 : f ∈ es1 := (hf.mem f hf.live).mpr (Or.inr rfl)
      have he1 : e ∈ es1 := (hf.mem e hfree).mpr (Or.inl he)
      have hne : e ≠ f := fun heq => hf.fresh (heq ▸ he)
      have hlen : e.len ≤ f.len := by
        have hround := le_roundUp hok.rounds
        have hroom := hf.room
        omega
      obtain ⟨m', hcopy', hchain, -⟩ := copy_chain hs1.chain he1 hf1 hne hlen
      rw [hcopy] at hcopy'
      cases hcopy'
      have hmayFree :=
        hmoves (by rw [BitVec.lt_def, hheader.size_toNat]; exact hlong) _ h1 m hmalloc hcopy
      obtain ⟨es', hs', hQ', hlive'⟩ :=
        R.kfree_blocks (hs1.write hchain) (R.write hQ1) he1 hfree hmayFree hrel
      refine ⟨es', hs', hQ', fun x => ?_⟩
      rw [reallocated, if_neg hq, hlive', hf.livePtr, List.mem_cons, List.mem_filter, hlive]
      have hqe : f.addr + headerSize ≠ e.addr + headerSize := by
        intro heq
        exact hne (chain_addr_inj hs1.chain he1 hf1 (by bv_omega))
      by_cases hx : x = f.addr + headerSize
      · simp [hx, hqe]
      · simp [hx]

theorem BlockRule.store (R : BlockRule Q OkFree OkCut) (hk : Kept Q h live) (hp : p ∈ live) {i : Word}
    (hi : i < field h.mem (p - headerSize) .size) (v : Byte) :
    Kept Q { h with mem := Function.update h.mem (p + i) v } live := by
  obtain ⟨es, hs, hQ, hlive⟩ := hk
  obtain ⟨e, he, -, rfl⟩ := (hlive p).mp hp
  rw [payload_sub, BitVec.lt_def, (chain_header hs.chain he).size_toNat] at hi
  refine ⟨es, hs.write (chain_payload hs.chain he (le_refl _) fun x hx => ?_), R.write hQ, hlive⟩
  refine Function.update_of_ne ?_ _ _
  rintro rfl
  rw [show e.addr + headerSize + i - (e.addr + headerSize) = i by bv_omega] at hx
  omega

theorem BlockRule.otherFrames (R : BlockRule Q OkFree OkCut) (hk : Kept Q h live) (pmm : Pmm) :
    Kept Q { h with vmm := { h.vmm with pmm } } live := by
  obtain ⟨es, hs, hQ, hlive⟩ := hk
  exact ⟨es, hs.frames pmm, R.frames hQ, hlive⟩

end

end Ceblar
