import Ceblar.Lib.Links
import Ceblar.Lib.Tiling
import Ceblar.Mm.Heap

/-! # The block list in memory

The list that the headers in memory thread, as a list of blocks over `Nat`, and what each
function of the heap does to it.
-/

namespace Ceblar

open Function

def Extent.addr (e : Extent) : Word := BitVec.ofNat 32 e.start

structure HasHeader (m : Mem) (e : Extent) : Prop where
  low : 16 ≤ e.start
  fits : e.stop 16 < 2 ^ 32
  size : field m e.addr .size = BitVec.ofNat 32 e.len
  free : field m e.addr .free = if e.free then 1 else 0
  magic : field m e.addr .magic = heapMagic

def Chain (m : Mem) : Word → List Extent → Prop
  | a, [] => a = 0
  | a, e :: es => a = e.addr ∧ HasHeader m e ∧ (∀ f ∈ es, e.stop 16 ≤ f.start) ∧
      Chain m (field m e.addr .next) es

section

variable {m m' : Mem} {a : Word} {e f : Extent} {es l r : List Extent} {b n x : Word} {fuel : Nat}

theorem toNat_addr (h : e.stop 16 < 2 ^ 32) : e.addr.toNat = e.start := by
  unfold Extent.stop at h
  rw [Extent.addr, BitVec.toNat_ofNat, Nat.mod_eq_of_lt (by omega)]

theorem HasHeader.addr_ne (h : HasHeader m e) : e.addr ≠ 0 := by
  have hlow := h.low
  have hnat := toNat_addr h.fits
  intro h0
  rw [h0] at hnat
  change 0 = e.start at hnat
  omega

theorem HasHeader.size_toNat (h : HasHeader m e) : (field m e.addr .size).toNat = e.len := by
  have hfits := h.fits
  unfold Extent.stop at hfits
  rw [h.size, BitVec.toNat_ofNat, Nat.mod_eq_of_lt (by omega)]

theorem HasHeader.free_ne (h : HasHeader m e) : field m e.addr .free ≠ 0 ↔ e.free = true := by
  rw [h.free]
  cases e.free <;> decide

theorem HasHeader.apart (he : HasHeader m e) (hf : HasHeader m' f) (h : e.stop 16 ≤ f.start) :
    Apart e.addr f.addr := by
  have h1 := toNat_addr he.fits
  have h2 := toNat_addr hf.fits
  have h3 := hf.fits
  unfold Extent.stop at h h3
  exact apart_of_le (by omega) (by omega)

theorem HasHeader.congr (h : HasHeader m e) (hm : ∀ x, (x - e.addr).toNat < 16 → m' x = m x) :
    HasHeader m' e where
  low := h.low
  fits := h.fits
  size := (field_congr hm _).trans h.size
  free := (field_congr hm _).trans h.free
  magic := (field_congr hm _).trans h.magic

/-! ## The list -/

theorem chain_header (h : Chain m a es) (he : e ∈ es) : HasHeader m e := by
  induction es generalizing a with
  | nil => cases he
  | cons f es ih =>
    rcases List.mem_cons.mp he with rfl | he
    · exact h.2.1
    · exact ih h.2.2.2 he

theorem chain_spaced (h : Chain m a es) : Spaced 16 es := by
  induction es generalizing a with
  | nil => exact List.Pairwise.nil
  | cons f es ih => exact List.Pairwise.cons h.2.2.1 (ih h.2.2.2)

theorem chain_congr (h : Chain m a es) (hm : ∀ e ∈ es, ∀ x, (x - e.addr).toNat < 16 → m' x = m x) :
    Chain m' a es := by
  induction es generalizing a with
  | nil => exact h
  | cons e es ih =>
    obtain ⟨ha, he, hle, hrest⟩ := h
    refine ⟨ha, he.congr (hm e (by simp)), hle, ?_⟩
    rw [field_congr (hm e (by simp))]
    exact ih hrest fun f hf => hm f (by simp [hf])

theorem chain_length (h : Chain m a es) : es.length < 2 ^ 28 := by
  suffices ∀ lo, (∀ e ∈ es, lo ≤ e.start) → es ≠ [] → lo + 16 * es.length < 2 ^ 32 by
    rcases es with _ | ⟨e, es⟩
    · simp
    · have := this 0 (by simp) (by simp)
      omega
  induction es generalizing a with
  | nil => simp
  | cons e es ih =>
    intro lo hlo _
    have he := hlo e (by simp)
    have hfits := h.2.1.fits
    rcases es with _ | ⟨f, es⟩
    · simp only [Extent.stop] at hfits
      simp only [List.length_singleton]
      omega
    · have hrest := ih h.2.2.2 (e.stop 16) h.2.2.1 (by simp)
      simp only [Extent.stop, List.length_cons] at hrest ⊢
      omega

theorem chain_disjoint (h : Chain m a es) (he : e ∈ es) (hf : f ∈ es) :
    e = f ∨ e.stop 16 ≤ f.start ∨ f.stop 16 ≤ e.start := by
  by_cases heq : e = f
  · exact Or.inl heq
  · obtain ⟨l, r, rfl⟩ := List.append_of_mem he
    obtain ⟨-, hr, hl⟩ := List.pairwise_append.mp (chain_spaced h)
    rcases List.mem_append.mp hf with hf | hf
    · exact Or.inr (Or.inr (hl f hf e (by simp)))
    rcases List.mem_cons.mp hf with rfl | hf
    · exact absurd rfl heq
    · exact Or.inr (Or.inl ((List.pairwise_cons.mp hr).1 f hf))

theorem chain_addr_inj (h : Chain m a es) (he : e ∈ es) (hf : f ∈ es) (heq : e.addr = f.addr) :
    e = f := by
  have h1 := toNat_addr (chain_header h he).fits
  have h2 := toNat_addr (chain_header h hf).fits
  rw [heq, h2] at h1
  rcases chain_disjoint h he hf with heq | hle | hle
  · exact heq
  · unfold Extent.stop at hle
    omega
  · unfold Extent.stop at hle
    omega

theorem chain_next (h : Chain m a (l ++ e :: f :: r)) : field m e.addr .next = f.addr := by
  induction l generalizing a with
  | nil => exact h.2.2.2.1
  | cons d l ih => exact ih h.2.2.2

theorem payload_clear (h : Chain m a es) (he : e ∈ es) (hf : f ∈ es) (hx : (x - f.addr).toNat < 16) :
    e.len ≤ (x - (e.addr + headerSize)).toNat := by
  have h1 := toNat_addr (chain_header h he).fits
  have h2 := toNat_addr (chain_header h hf).fits
  have h3 := (chain_header h he).fits
  have h4 := (chain_header h hf).fits
  unfold headerSize
  unfold Extent.stop at h3 h4
  rcases chain_disjoint h he hf with rfl | hle | hle
  · bv_omega
  · unfold Extent.stop at hle
    bv_omega
  · unfold Extent.stop at hle
    bv_omega

theorem chain_payload (h : Chain m a es) (he : e ∈ es) {n : Nat} (hn : n ≤ e.len)
    (hm : ∀ x, n ≤ (x - (e.addr + headerSize)).toNat → m' x = m x) : Chain m' a es :=
  chain_congr h fun _ hf x hx => hm x (hn.trans (payload_clear h he hf hx))

def ptr (w : Word) : Option Word := if w = 0 then none else some w

def nextBlock (m : Mem) (b : Word) : Option Word := ptr (field m b .next)

theorem chain_linked (h : Chain m a es) : Linked (nextBlock m) (ptr a) (es.map Extent.addr) := by
  induction es generalizing a with
  | nil =>
    cases h
    rfl
  | cons e es ih =>
    obtain ⟨rfl, he, -, hrest⟩ := h
    exact ⟨if_neg he.addr_ne, ih hrest⟩

theorem chain_replace (mid : List Extent) (h : Chain m a (l ++ e :: r))
    (hmid : Chain m e.addr (e :: r) → Chain m' e.addr (mid ++ r))
    (hstart : ∀ f ∈ mid, e.start ≤ f.start) (hm : ∀ x : Word, x.toNat < e.start → m' x = m x) :
    Chain m' a (l ++ (mid ++ r)) := by
  induction l generalizing a with
  | nil =>
    obtain rfl : a = e.addr := h.1
    exact hmid h
  | cons d l ih =>
    obtain ⟨ha, hd, hle, hrest⟩ := h
    have hde := hle e (by simp)
    have hkeep : ∀ x, (x - d.addr).toNat < 16 → m' x = m x := by
      intro x hx
      apply hm
      have hnat := toNat_addr hd.fits
      have hfits := hd.fits
      unfold Extent.stop at hde hfits
      bv_omega
    refine ⟨ha, hd.congr hkeep, ?_, ?_⟩
    · intro f hf
      rcases List.mem_append.mp hf with hf | hf
      · exact hle f (by simp [hf])
      rcases List.mem_append.mp hf with hf | hf
      · exact hde.trans (hstart f hf)
      · exact hle f (by simp [hf])
    · rw [field_congr hkeep]
      exact ih hrest

def Extent.fits (n : Nat) (e : Extent) : Bool := e.free && decide (n ≤ e.len)

theorem findFit_spec (h : Chain m a es) (hfuel : es.length < fuel) :
    findFit n fuel a m = .ok ((es.find? (Extent.fits n.toNat)).map Extent.addr) := by
  induction es generalizing a fuel with
  | nil =>
    obtain ⟨fuel, rfl⟩ : ∃ k, fuel = k + 1 := ⟨fuel - 1, by omega⟩
    cases h
    rfl
  | cons e es ih =>
    obtain ⟨fuel, rfl⟩ : ∃ k, fuel = k + 1 := ⟨fuel - 1, by omega⟩
    obtain ⟨rfl, he, -, hrest⟩ := h
    have hfit : (field m e.addr .free ≠ 0 ∧ n ≤ field m e.addr .size) ↔ e.fits n.toNat = true := by
      rw [he.free_ne, BitVec.le_def, he.size_toNat]
      simp [Extent.fits]
    simp only [List.length_cons] at hfuel
    rw [findFit, if_neg he.addr_ne, List.find?_cons]
    cases hf : e.fits n.toNat with
    | true => rw [if_pos (hfit.mpr hf)]; rfl
    | false =>
      rw [if_neg (fun hc => by rw [hfit.mp hc] at hf; cases hf)]
      exact ih hrest (by omega)

theorem chain_rest (h : Chain m a (e :: r)) (hm : ∀ x, 16 ≤ (x - e.addr).toNat → m' x = m x) :
    Chain m' (field m e.addr .next) r := by
  obtain ⟨-, he, hle, hrest⟩ := h
  refine chain_congr hrest fun f hf x hx => hm x ?_
  exact (he.apart (chain_header hrest hf) (hle f hf)).outside hx

theorem below_outside (he : e.stop 16 < 2 ^ 32) (hx : x.toNat < e.start) :
    16 ≤ (x - e.addr).toNat := by
  have hnat := toNat_addr he
  unfold Extent.stop at he
  bv_omega

theorem chain_setFree (h : Chain m a (l ++ e :: r)) (v : Bool) :
    Chain (setField m e.addr .free (if v then 1 else 0)) a (l ++ { e with free := v } :: r) := by
  have he := chain_header h (e := e) (by simp)
  refine chain_replace [{ e with free := v }] h (fun hc => ?_) (by simp)
    fun x hx => setField_of_le _ _ (below_outside he.fits hx)
  refine ⟨rfl, ⟨he.low, he.fits, ?_, ?_, ?_⟩, hc.2.2.1, ?_⟩
  · exact (field_setField_ne m _ _ (by decide)).trans he.size
  · exact field_setField_self m _ _ _
  · exact (field_setField_ne m _ _ (by decide)).trans he.magic
  · rw [show Extent.addr { e with free := v } = e.addr from rfl, field_setField_ne m _ _ (by decide)]
    exact chain_rest hc fun x hx => setField_of_le _ _ hx

theorem split_outside (h1 : 16 ≤ (x - b).toNat)
    (h2 : n + headerSize + 8 ≤ field m b .size → 16 ≤ (x - (b + headerSize + n)).toNat) :
    split m b n x = m x := by
  unfold split
  split
  · rename_i hroom
    simp only [setField_of_le _ _ h1, setField_of_le _ _ (h2 hroom)]
  · rfl

theorem split_room (he : HasHeader m e) (hn : n.toNat ≤ e.len) :
    n + headerSize + 8 ≤ field m e.addr .size ↔ n.toNat + 16 + 8 ≤ e.len := by
  have hlow := he.low
  have hfits := he.fits
  unfold Extent.stop at hfits
  rw [BitVec.le_def, he.size_toNat]
  unfold headerSize
  bv_omega

theorem split_front (h : Chain m a (e :: r)) (hn : n.toNat ≤ e.len) :
    Chain (split m e.addr n) a (e.divide 16 8 n.toNat ++ r) := by
  obtain ⟨rfl, he, hle, hrest⟩ := h
  have hlow := he.low
  have hfits := he.fits
  have haddr := toNat_addr he.fits
  unfold Extent.stop at hfits
  have hcond := split_room he hn
  unfold split Extent.divide
  by_cases hroom : n.toNat + 16 + 8 ≤ e.len
  · rw [if_pos (hcond.mpr hroom), if_pos hroom]
    obtain ⟨f, hfdef⟩ : ∃ f : Extent,
      f = { start := e.start + 16 + n.toNat, len := e.len - n.toNat - 16, free := true } := ⟨_, rfl⟩
    have hfstart : f.start = e.start + 16 + n.toNat := by rw [hfdef]
    have hflen : f.len = e.len - n.toNat - 16 := by rw [hfdef]
    have hffree : f.free = true := by rw [hfdef]
    have hfstop : f.stop 16 = e.stop 16 := by
      unfold Extent.stop
      omega
    have hfaddr : f.addr.toNat = f.start := toNat_addr (hfstop ▸ he.fits)
    have hf : e.addr + headerSize + n = f.addr := by
      apply BitVec.eq_of_toNat_eq
      unfold headerSize
      bv_omega
    have hap : Apart e.addr f.addr := apart_of_le (by omega) (by omega)
    have hb : ∀ m g w k, field (setField m f.addr g w) e.addr k = field m e.addr k :=
      fun m g w k => field_setField_apart m g k w hap.symm
    have hr : ∀ m g w k, field (setField m e.addr g w) f.addr k = field m f.addr k :=
      fun m g w k => field_setField_apart m g k w hap
    have haddr' : Extent.addr { e with len := n.toNat } = e.addr := rfl
    rw [hf, ← hfdef]
    refine ⟨rfl, ⟨he.low, ?_, ?_, ?_, ?_⟩, ?_, ?_, ⟨by omega, hfstop ▸ he.fits, ?_, ?_, ?_⟩, ?_, ?_⟩
    · simp only [Extent.stop]
      omega
    · simp [haddr']
    · simp [haddr', hb, he.free]
    · simp [haddr', hb, he.magic]
    · intro d hd
      simp only [Extent.stop] at hle ⊢
      rcases List.mem_cons.mp hd with rfl | hd
      · omega
      · exact le_trans (by omega) (hle d hd)
    · simp [haddr']
    · simp only [hr, field_setField_self, field_setField_ne, ne_eq, reduceCtorEq, not_false_eq_true,
        he.size]
      rw [hflen]
      unfold headerSize
      bv_omega
    · simp [hr, hffree]
    · simp [hr]
    · intro d hd
      rw [hfstop]
      exact hle d hd
    · simp only [hr, hb, field_setField_self]
      refine chain_congr hrest fun d hd x hx => ?_
      have hheader := chain_header hrest hd
      have h1 := (he.apart hheader (hle d hd)).outside hx
      have h2 : 16 ≤ (x - f.addr).toNat := by
        have hdaddr := toNat_addr hheader.fits
        have hdfits := hheader.fits
        have hfd := hfstop ▸ hle d hd
        unfold Extent.stop at hfd hdfits
        exact (apart_of_le (b := f.addr) (by omega) (by omega)).outside hx
      simp only [setField_of_le _ _ h1, setField_of_le _ _ h2]
  · rw [if_neg (fun hc => hroom (hcond.mp hc)), if_neg hroom]
    exact ⟨rfl, he, hle, hrest⟩

theorem chain_split (h : Chain m a (l ++ e :: r)) (hn : n.toNat ≤ e.len) :
    Chain (split m e.addr n) a (l ++ (e.divide 16 8 n.toNat ++ r)) := by
  have he := chain_header h (e := e) (by simp)
  refine chain_replace _ h (fun hc => split_front hc hn) (fun f hf => ?_) fun x hx => ?_
  · exact (Tiles.bounds (tiles_divide 8 e) hf).1
  · have hlow := below_outside he.fits hx
    have haddr := toNat_addr he.fits
    have hfits := he.fits
    unfold Extent.stop at hfits
    refine split_outside hlow fun hroom => ?_
    rw [split_room he hn] at hroom
    unfold headerSize
    clear hlow
    bv_omega

theorem join_front (h : Chain m a (e :: f :: es)) (v : Word)
    (hv : v = headerSize + field m f.addr .size) :
    Chain (setField (setField m e.addr .size (field m e.addr .size + v)) e.addr .next
      (field m f.addr .next)) a ({ e with len := e.len + (16 + f.len) } :: es) := by
  obtain ⟨rfl, he, hle, hnext, hf, hlef, hrest⟩ := h
  have hef := hle f (by simp)
  have hstop : Extent.stop 16 { e with len := e.len + (16 + f.len) } ≤ f.stop 16 := by
    simp only [Extent.stop] at hef ⊢
    omega
  have haddr : Extent.addr { e with len := e.len + (16 + f.len) } = e.addr := rfl
  refine ⟨rfl, ⟨he.low, hstop.trans_lt hf.fits, ?_, ?_, ?_⟩, fun d hd => hstop.trans (hlef d hd), ?_⟩
  · simp only [haddr, field_setField_ne, field_setField_self, ne_eq, reduceCtorEq, not_false_eq_true]
    rw [hv, he.size, hf.size, BitVec.ofNat_add, BitVec.ofNat_add]
    rfl
  · simpa [haddr] using he.free
  · simpa [haddr] using he.magic
  · rw [haddr, field_setField_self]
    refine chain_congr hrest fun d hd x hx => ?_
    have hout := (he.apart (chain_header hrest hd) (hle d (by simp [hd]))).outside hx
    rw [setField_of_le _ _ hout, setField_of_le _ _ hout]

theorem chain_cons (h : Chain m a (e :: r)) (hb : field m e.addr .next = b) (hes : Chain m' b es)
    (hle : ∀ d ∈ es, e.stop 16 ≤ d.start)
    (hm : ∀ x, (∀ d ∈ r, 16 ≤ (x - d.addr).toNat) → m' x = m x) : Chain m' a (e :: es) := by
  obtain ⟨rfl, he, hler, hrest⟩ := h
  have hkeep : ∀ x, (x - e.addr).toNat < 16 → m' x = m x := fun x hx =>
    hm x fun d hd => (he.apart (chain_header hrest hd) (hler d hd)).symm.outside hx
  refine ⟨rfl, he.congr hkeep, hle, ?_⟩
  rw [field_congr hkeep, hb]
  exact hes

theorem mergeFrom_spec (h : Chain m a es) (hfuel : es.length < fuel) :
    ∃ m', mergeFrom fuel a m = .ok m' ∧ Chain m' a (coalesce 16 es) ∧
      ∀ x, (∀ e ∈ es, 16 ≤ (x - e.addr).toNat) → m' x = m x := by
  induction fuel generalizing m a es with
  | zero => omega
  | succ fuel ih =>
    rcases es with _ | ⟨e, _ | ⟨f, es⟩⟩
    · cases h
      exact ⟨m, by simp [mergeFrom], rfl, fun _ _ => rfl⟩
    · have hnext : field m a .next = 0 := h.1 ▸ h.2.2.2
      exact ⟨m, by rw [mergeFrom, if_pos (Or.inr hnext)], h, fun _ _ => rfl⟩
    · have hchain := h
      obtain ⟨rfl, he, hle, hnext, hf, hlef, hrest⟩ := h
      simp only [List.length_cons] at hfuel
      have hgo : ¬ (e.addr = 0 ∨ field m e.addr .next = 0) := by
        rw [hnext]
        exact fun hc => hc.elim he.addr_ne hf.addr_ne
      have hcond := and_congr he.free_ne hf.free_ne
      rw [mergeFrom, if_neg hgo, coalesce_cons_cons, hnext]
      by_cases hboth : e.free = true ∧ f.free = true
      · rw [if_pos (hcond.mpr hboth), if_pos (by simp [hboth])]
        have hapart := he.apart hf (hle f (by simp))
        have hjoin := join_front hchain _ rfl
        obtain ⟨m', hrun, hchain', hframe⟩ := ih hjoin (by simp only [List.length_cons]; omega)
        refine ⟨m', ?_, hchain', fun x hx => ?_⟩
        · rw [← hrun]
          simp only [field_setField_ne, ne_eq, reduceCtorEq, not_false_eq_true, hnext,
            field_setField_apart _ _ _ _ hapart]
        · have hxe := hx e (by simp)
          rw [hframe x, setField_of_le _ _ hxe, setField_of_le _ _ hxe]
          intro d hd
          rcases List.mem_cons.mp hd with rfl | hd
          · exact hxe
          · exact hx d (by simp [hd])
      · rw [if_neg (fun hc => hboth (hcond.mp hc)), if_neg (by simpa using hboth)]
        have hbehind : Chain m f.addr (f :: es) := ⟨rfl, hf, hlef, hrest⟩
        obtain ⟨m', hrun, hchain', hframe⟩ := ih hbehind (by simp only [List.length_cons]; omega)
        refine ⟨m', hrun, chain_cons hchain hnext hchain' (fun d hd => ?_) hframe,
          fun x hx => hframe x fun d hd => hx d (by simp [hd])⟩
        obtain ⟨c, hc, hstart⟩ := exists_of_mem_coalesce hd
        exact hstart ▸ hle c hc

theorem merge_spec {h : Heap} (hc : Chain h.mem h.head es) :
    ∃ m', merge h = .ok { h with mem := m' } ∧ Chain m' h.head (coalesce 16 es) ∧
      ∀ x, (∀ e ∈ es, 16 ≤ (x - e.addr).toNat) → m' x = h.mem x := by
  have hlen := chain_length hc
  obtain ⟨m', hrun, hchain, hframe⟩ := mergeFrom_spec hc (by omega : es.length < 2 ^ 32)
  refine ⟨m', ?_, hchain, hframe⟩
  unfold merge
  rw [hrun]
  rfl

theorem lastBlock_spec (h : Chain m a (l ++ [e])) (hfuel : l.length < fuel) :
    lastBlock fuel a m = .ok e.addr := by
  induction l generalizing a fuel with
  | nil =>
    obtain ⟨fuel, rfl⟩ : ∃ k, fuel = k + 1 := ⟨fuel - 1, by omega⟩
    obtain ⟨rfl, -, -, hnext⟩ := h
    exact if_pos hnext
  | cons d l ih =>
    obtain ⟨fuel, rfl⟩ : ∃ k, fuel = k + 1 := ⟨fuel - 1, by omega⟩
    obtain ⟨rfl, -, -, hrest⟩ := h
    have hne : field m d.addr .next ≠ 0 := by
      rcases l with _ | ⟨c, l⟩
      · exact hrest.1 ▸ hrest.2.1.addr_ne
      · exact hrest.1 ▸ hrest.2.1.addr_ne
    simp only [List.length_cons] at hfuel
    rw [lastBlock, if_neg hne]
    exact ih hrest (by omega)

theorem freshBlock_outside {size : Word} (h : 16 ≤ (x - b).toNat) : freshBlock m b size x = m x := by
  simp only [freshBlock, setField_of_le _ _ h]

theorem chain_fresh (hlow : 16 ≤ e.start) (hfits : e.stop 16 < 2 ^ 32) (hfree : e.free = true) :
    Chain (freshBlock m e.addr (BitVec.ofNat 32 e.len)) e.addr [e] := by
  refine ⟨rfl, ⟨hlow, hfits, ?_, ?_, ?_⟩, by simp, ?_⟩
  · simp [freshBlock]
  · simp [freshBlock, hfree]
  · simp [freshBlock]
  · simp [freshBlock, Chain]

theorem chain_append (h : Chain m a (l ++ [e])) (hf : Chain m f.addr [f])
    (hle : ∀ d ∈ l ++ [e], d.stop 16 ≤ f.start) :
    Chain (setField m e.addr .next f.addr) a (l ++ [e, f]) := by
  have he := chain_header h (e := e) (by simp)
  have hef := hle e (by simp)
  refine chain_replace [e, f] h (fun hc => ?_) ?_
    fun x hx => setField_of_le _ _ (below_outside he.fits hx)
  · refine ⟨rfl, ⟨he.low, he.fits, ?_, ?_, ?_⟩, by simpa using hef, ?_⟩
    · simpa using he.size
    · simpa using he.free
    · simpa using he.magic
    · rw [field_setField_self]
      refine chain_congr hf fun d hd x hx => setField_of_le _ _ ?_
      rw [List.mem_singleton.mp hd] at hx
      exact (he.apart hf.2.1 hef).outside hx
  · intro d hd
    unfold Extent.stop at hef
    rcases List.mem_cons.mp hd with rfl | hd
    · exact le_refl _
    · rw [List.mem_singleton.mp hd]
      omega

/-- A copy whose target stays clear of the source and of the header that holds its length. -/
theorem copyFrom_spec {p q i : Word} {n : Nat} (hclear : ∀ x, (x - b).toNat < 16 → n ≤ (x - q).toNat)
    (hsource : ∀ x, (x - p).toNat < n → n ≤ (x - q).toNat)
    (hn : (field m b .size).toNat = n) (hi : i.toNat ≤ n) (hfuel : n - i.toNat < fuel) :
    ∃ m', copyFrom b p q fuel i m = .ok m' ∧
    (∀ x, n ≤ (x - q).toNat ∨ (x - q).toNat < i.toNat → m' x = m x) ∧
      ∀ j : Word, i.toNat ≤ j.toNat → j.toNat < n → m' (q + j) = m (p + j) := by
  induction fuel generalizing i m with
  | zero => omega
  | succ fuel ih =>
    rw [copyFrom]
    by_cases hlt : i < field m b .size
    · rw [if_pos hlt]
      rw [BitVec.lt_def, hn] at hlt
      have hnlt : n < 2 ^ 32 := hn ▸ BitVec.isLt _
      have hat : q + i - q = i := by bv_omega
      have hne : ∀ x, n ≤ (x - q).toNat ∨ (x - q).toNat < i.toNat → x ≠ q + i := by
        rintro x hx rfl
        rw [hat] at hx
        omega
      have hsize : field (update m (q + i) (m (p + i))) b .size = field m b .size :=
        field_congr (fun x hx => update_of_ne (hne x (.inl (hclear x hx))) _ _) _
      have hi1 : (i + 1).toNat = i.toNat + 1 := by bv_omega
      obtain ⟨m', hrun, hframe, hcopied⟩ :=
        ih (i := i + 1) (by rw [hsize]; exact hn) (by omega) (by omega)
      refine ⟨m', hrun, fun x hx => ?_, fun j hij hj => ?_⟩
      · exact (hframe x (by omega)).trans (update_of_ne (hne x hx) _ _)
      · rcases Nat.eq_or_lt_of_le hij with heq | hlt'
        · obtain rfl : i = j := BitVec.eq_of_toNat_eq heq
          rw [hframe (q + i) (.inr (by rw [hat]; omega)), update_self]
        · rw [hcopied j (by omega) hj, update_of_ne]
          refine hne _ (.inl (hsource _ ?_))
          rwa [show p + j - p = j by bv_omega]
    · rw [if_neg hlt]
      rw [BitVec.lt_def, hn] at hlt
      exact ⟨m, rfl, fun _ _ => rfl, fun j hij hj => by omega⟩

end

end Ceblar
