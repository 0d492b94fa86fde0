import Ceblar.Drivers.Virtio

/-! # Completions of the virtio driver

A call that finds the device done with every posted entry keeps the shared buffers to itself until
it posts its own entry, and the device then works on that entry alone.
-/

namespace Ceblar

/-! ## What the driver knows at each step -/

section

variable (s : Virtio)

def Virtio.Drained : Prop := s.phase = .idle ∧ s.taken = s.availIdx

def Virtio.Fetched (lba : Word) : Prop := (lba, s.data) ∈ s.during

def Virtio.Reading (lba : Word) : Prop :=
  match s.phase with
  | .idle => s.taken + 1 = s.availIdx
  | .started h _ => s.taken = s.availIdx ∧ h = ⟨0, lba⟩
  | .moved ok => s.taken = s.availIdx ∧ (ok = true → s.Fetched lba)
  | .reported => s.taken = s.availIdx ∧ (s.status = 0 → s.Fetched lba)

def Virtio.ReadDone (lba : Word) : Prop := s.Drained ∧ (s.status = 0 → s.Fetched lba)

def Virtio.ReadAt (lba : Word) : ReadPc → Prop
  | .setType => s.Drained ∧ s.usedIdx = s.lastUsed
  | .setSector => s.Drained ∧ s.usedIdx = s.lastUsed ∧ s.header.type = 0
  | .setStatus | .clear _ | .setRing | .bumpIdx =>
    s.Drained ∧ s.usedIdx = s.lastUsed ∧ s.header = ⟨0, lba⟩
  | .poll _ => s.header = ⟨0, lba⟩ ∧ ((s.usedIdx = s.lastUsed ∧ s.Reading lba) ∨ s.ReadDone lba)
  | .seen | .check => s.ReadDone lba
  | .copy i => s.Drained ∧ s.Fetched lba ∧ ∀ j : Fin 512, j.val < i → s.buffer j = s.data j

def Virtio.WriteAt (lba : Word) (bytes : Sector) : WritePc → Prop
  | .setType => s.Drained
  | .setSector => s.Drained ∧ s.header.type = 1
  | .fill i => s.Drained ∧ s.header = ⟨1, lba⟩ ∧ ∀ j : Fin 512, j.val < i → s.data j = bytes j
  | .setStatus | .setFlags | .setRing | .bumpIdx => s.Drained ∧ s.header = ⟨1, lba⟩ ∧ s.data = bytes
  | .poll _ | .seen | .restore _ | .check => True

def Virtio.CallAt : BlkDriver → Prop
  | .idle => True
  | .reading lba pc => (lba, s.disk lba) ∈ s.during ∧ s.ReadAt lba pc
  | .writing lba bytes pc => (lba, bytes) ∈ s.passed ∧ s.WriteAt lba bytes pc

def Virtio.MayStore (h : BlkHeader) (writable : Bool) : Prop :=
  writable = false → h.type = 1 → (h.sector, s.data) ∈ s.passed

structure Virtio.Inv : Prop where
  call : s.CallAt s.driver
  started : ∀ h writable, s.phase = .started h writable → s.MayStore h writable
  posted : s.taken ≠ s.availIdx → s.phase = .idle ∧ s.taken + 1 = s.availIdx ∧
    s.MayStore s.header s.writable
  stores : ∀ x ∈ s.stores, x ∈ s.passed
  result : ∀ lba bytes, s.result = some (.read lba bytes) → (lba, bytes) ∈ s.during

end

variable {s s' : Virtio}

theorem inv_of_taken (hphase : ∀ h writable, s.phase ≠ .started h writable)
    (htaken : s.taken = s.availIdx) (hcall : s.CallAt s.driver)
    (hstores : ∀ x ∈ s.stores, x ∈ s.passed)
    (hresult : ∀ lba bytes, s.result = some (.read lba bytes) → (lba, bytes) ∈ s.during) : s.Inv :=
  ⟨hcall, fun h w hp => absurd hp (hphase h w), fun hne => absurd htaken hne, hstores, hresult⟩

theorem Virtio.Drained.inv (hd : s.Drained) (hcall : s.CallAt s.driver)
    (hstores : ∀ x ∈ s.stores, x ∈ s.passed)
    (hresult : ∀ lba bytes, s.result = some (.read lba bytes) → (lba, bytes) ∈ s.during) : s.Inv :=
  inv_of_taken (by rw [hd.1]; nofun) hd.2 hcall hstores hresult

theorem inv_fresh (h : s.Fresh) : s.Inv := by
  refine Virtio.Drained.inv ⟨h.phase, h.taken.trans h.availIdx.symm⟩ (by rw [h.driver]; trivial) ?_ ?_
  · rw [h.stores]
    simp
  · rw [h.result]
    simp

theorem update_prefix {d e : Sector} {i : Nat} (hi : i < 512) (h : ∀ j : Fin 512, j.val < i → d j = e j) :
    ∀ j : Fin 512, j.val < i + 1 → Function.update d ⟨i, hi⟩ (e ⟨i, hi⟩) j = e j := by
  intro j hj
  by_cases hji : j = ⟨i, hi⟩
  · rw [hji, Function.update_self]
  · have hne : j.val ≠ i := fun h => hji (Fin.ext h)
    rw [Function.update_of_ne hji]
    exact h j (by omega)

theorem inv_readStep {lba : Word} {pc : ReadPc} (hinv : s.Inv) (hdriver : s.driver = .reading lba pc) :
    (readStep s lba pc).Inv := by
  have hcall := hinv.call
  rw [hdriver] at hcall
  obtain ⟨hdur, hat⟩ := hcall
  cases pc with
  | setType => exact Virtio.Drained.inv hat.1 ⟨hdur, hat.1, hat.2, rfl⟩ hinv.stores hinv.result
  | setSector =>
    refine Virtio.Drained.inv hat.1 ⟨hdur, hat.1, hat.2.1, ?_⟩ hinv.stores hinv.result
    rw [BlkHeader.mk.injEq]
    exact ⟨hat.2.2, rfl⟩
  | setStatus => exact Virtio.Drained.inv hat.1 ⟨hdur, hat⟩ hinv.stores hinv.result
  | clear i =>
    dsimp only [readStep]
    split
    · exact Virtio.Drained.inv hat.1 ⟨hdur, hat⟩ hinv.stores hinv.result
    · exact Virtio.Drained.inv hat.1 ⟨hdur, hat⟩ hinv.stores hinv.result
  | setRing => exact Virtio.Drained.inv hat.1 ⟨hdur, hat⟩ hinv.stores hinv.result
  | bumpIdx =>
    obtain ⟨⟨hphase, htaken⟩, hused, hheader⟩ := hat
    refine ⟨⟨hdur, hheader, .inl ⟨hused, ?_⟩⟩, hinv.started, ?_, hinv.stores, hinv.result⟩
    · dsimp only [readStep, Virtio.Reading]
      rw [hphase, htaken]
    · intro _
      refine ⟨hphase, by dsimp only [readStep]; rw [htaken], fun _ htype => ?_⟩
      dsimp only [readStep] at htype
      rw [hheader] at htype
      cases htype
  | poll wait =>
    dsimp only [readStep]
    split
    · refine ⟨⟨hdur, ?_⟩, hinv.started, hinv.posted, hinv.stores, hinv.result⟩
      split
      next hne => exact hat.2.resolve_left fun h => hne h.1
      next => exact hat
    · refine ⟨trivial, hinv.started, hinv.posted, hinv.stores, ?_⟩
      intro _ _ h
      cases h
  | seen => exact Virtio.Drained.inv hat.1 ⟨hdur, hat⟩ hinv.stores hinv.result
  | check =>
    dsimp only [readStep]
    split
    · exact Virtio.Drained.inv hat.1 trivial hinv.stores (fun _ _ h => by cases h)
    next hst =>
      refine Virtio.Drained.inv hat.1 ⟨hdur, hat.1, hat.2 (not_not.mp hst), ?_⟩ hinv.stores hinv.result
      intro j hj
      omega
  | copy i =>
    obtain ⟨hd, hf, hcopied⟩ := hat
    dsimp only [readStep]
    split
    next hi =>
      exact Virtio.Drained.inv hd ⟨hdur, hd, hf, update_prefix hi hcopied⟩ hinv.stores hinv.result
    next hi =>
      refine Virtio.Drained.inv hd trivial hinv.stores ?_
      intro lba' bytes h
      cases h
      have hsame : s.buffer = s.data := funext fun j => hcopied j (by omega)
      change (lba, s.buffer) ∈ s.during
      rw [hsame]
      exact hf

theorem inv_writeStep {lba : Word} {bytes : Sector} {pc : WritePc} (hinv : s.Inv)
    (hdriver : s.driver = .writing lba bytes pc) : (writeStep s lba bytes pc).Inv := by
  have hcall := hinv.call
  rw [hdriver] at hcall
  obtain ⟨hpassed, hat⟩ := hcall
  cases pc with
  | setType => exact Virtio.Drained.inv hat ⟨hpassed, hat, rfl⟩ hinv.stores hinv.result
  | setSector =>
    refine Virtio.Drained.inv hat.1 ⟨hpassed, hat.1, ?_, fun j hj => by omega⟩ hinv.stores hinv.result
    rw [BlkHeader.mk.injEq]
    exact ⟨hat.2, rfl⟩
  | fill i =>
    obtain ⟨hd, hheader, hfilled⟩ := hat
    dsimp only [writeStep]
    split
    next hi =>
      exact Virtio.Drained.inv hd ⟨hpassed, hd, hheader, update_prefix hi hfilled⟩ hinv.stores hinv.result
    next hi =>
      have hsame : s.data = bytes := funext fun j => hfilled j (by omega)
      exact Virtio.Drained.inv hd ⟨hpassed, hd, hheader, hsame⟩ hinv.stores hinv.result
  | setStatus => exact Virtio.Drained.inv hat.1 ⟨hpassed, hat⟩ hinv.stores hinv.result
  | setFlags => exact Virtio.Drained.inv hat.1 ⟨hpassed, hat⟩ hinv.stores hinv.result
  | setRing => exact Virtio.Drained.inv hat.1 ⟨hpassed, hat⟩ hinv.stores hinv.result
  | bumpIdx =>
    obtain ⟨⟨hphase, htaken⟩, hheader, hdata⟩ := hat
    refine ⟨⟨hpassed, trivial⟩, hinv.started, ?_, hinv.stores, hinv.result⟩
    intro _
    refine ⟨hphase, by dsimp only [writeStep]; rw [htaken], fun _ _ => ?_⟩
    dsimp only [writeStep]
    rw [hheader, hdata]
    exact hpassed
  | poll wait =>
    dsimp only [writeStep]
    split
    · refine ⟨⟨hpassed, ?_⟩, hinv.started, hinv.posted, hinv.stores, hinv.result⟩
      split <;> trivial
    · exact ⟨⟨hpassed, trivial⟩, hinv.started, hinv.posted, hinv.stores, hinv.result⟩
  | seen => exact ⟨⟨hpassed, trivial⟩, hinv.started, hinv.posted, hinv.stores, hinv.result⟩
  | restore late =>
    -- an entry that is not started yet is refused from here on
    have hposted : s.taken ≠ s.availIdx →
        s.phase = .idle ∧ s.taken + 1 = s.availIdx ∧ s.MayStore s.header true :=
      fun hne => ⟨(hinv.posted hne).1, (hinv.posted hne).2.1, fun h => by cases h⟩
    dsimp only [writeStep]
    split
    · exact ⟨trivial, hinv.started, hposted, hinv.stores, fun _ _ h => by cases h⟩
    · exact ⟨⟨hpassed, trivial⟩, hinv.started, hposted, hinv.stores, hinv.result⟩
  | check =>
    refine ⟨trivial, hinv.started, hinv.posted, hinv.stores, ?_⟩
    intro lba' bytes' h
    dsimp only [writeStep, Virtio.ret] at h
    split at h <;> cases h

theorem busy_call (hinv : s.Inv) (hbusy : ¬ s.Drained) (hdriver : s'.driver = s.driver)
    (hheader : s'.header = s.header) (hpassed : s'.passed = s.passed)
    (hduring : ∀ lba pc, s.driver = .reading lba pc → (lba, s.disk lba) ∈ s.during →
      (lba, s'.disk lba) ∈ s'.during)
    (hread : ∀ lba, s.header = ⟨0, lba⟩ →
      (lba, s.disk lba) ∈ s.during → s.usedIdx = s.lastUsed → s.Reading lba →
      (s'.usedIdx = s'.lastUsed ∧ s'.Reading lba) ∨ s'.ReadDone lba) :
    s'.CallAt s'.driver := by
  have hcall := hinv.call
  rw [hdriver]
  cases hd : s.driver with
  | idle => trivial
  | reading lba pc =>
    rw [hd] at hcall
    obtain ⟨hdur, hat⟩ := hcall
    refine ⟨hduring lba pc hd hdur, ?_⟩
    cases pc with
    | poll wait =>
      obtain ⟨hh, ⟨hused, hreading⟩ | hdone⟩ := hat
      · exact ⟨hheader.trans hh, hread lba hh hdur hused hreading⟩
      · exact absurd hdone.1 hbusy
    | _ => exact absurd hat.1 hbusy
  | writing lba bytes pc =>
    rw [hd] at hcall
    obtain ⟨hp, hat⟩ := hcall
    refine ⟨by rw [hpassed]; exact hp, ?_⟩
    cases pc with
    | poll wait => trivial
    | seen => trivial
    | restore late => trivial
    | check => trivial
    | setType => exact absurd hat hbusy
    | _ => exact absurd hat.1 hbusy

theorem busy_of_phase (h : s.phase ≠ .idle) : ¬ s.Drained := fun hd => h hd.1

theorem taken_of_phase (hinv : s.Inv) (h : s.phase ≠ .idle) : s.taken = s.availIdx := by
  by_contra hne
  exact h (hinv.posted hne).1

theorem inv_start (hinv : s.Inv) (hne : s.taken ≠ s.availIdx) :
    { s with phase := .started s.header s.writable, taken := s.taken + 1 }.Inv := by
  obtain ⟨-, htaken, hmay⟩ := hinv.posted hne
  refine ⟨?_, ?_, fun h => absurd htaken h, hinv.stores, hinv.result⟩
  · refine busy_call hinv (fun hd => hne hd.2) rfl rfl rfl (fun _ _ _ h => h) ?_
    intro lba hheader _ hused _
    exact .inl ⟨hused, htaken, hheader⟩
  · intro h w hp
    cases hp
    exact hmay

theorem inv_move {h : BlkHeader} {writable ok : Bool} (hinv : s.Inv)
    (hphase : s.phase = .started h writable) :
    (s.move h writable ok).Inv := by
  have hidle : s.phase ≠ .idle := by rw [hphase]; nofun
  have htaken := taken_of_phase hinv hidle
  have hmay := hinv.started h writable hphase
  have hreading : ∀ lba, s.Reading lba → h = ⟨0, lba⟩ := by
    intro lba hr
    unfold Virtio.Reading at hr
    rw [hphase] at hr
    exact hr.2
  unfold Virtio.move
  split
  · refine inv_of_taken nofun htaken ?_ hinv.stores hinv.result
    refine busy_call hinv (busy_of_phase hidle) rfl rfl rfl (fun _ _ _ h => h) ?_
    intro lba _ hdur hused hr
    refine .inl ⟨hused, htaken, fun _ => ?_⟩
    rw [hreading lba hr]
    exact hdur
  · split
    next hstore =>
      simp only [Bool.and_eq_true, beq_iff_eq, Bool.not_eq_true'] at hstore
      obtain ⟨⟨-, htype⟩, hwritable⟩ := hstore
      refine inv_of_taken nofun htaken ?_ ?_ ?_
      · refine busy_call hinv (busy_of_phase hidle) rfl rfl rfl ?_ ?_
        · intro lba pc hd _
          dsimp only
          rw [hd]
          exact List.mem_cons_self
        · intro lba _ _ _ hr
          rw [hreading lba hr] at htype
          cases htype
      · intro x hx
        rcases List.mem_cons.mp hx with rfl | hx
        · exact hmay hwritable htype
        · exact hinv.stores x hx
      · intro lba bytes hr
        dsimp only
        split
        · exact List.mem_cons_of_mem _ (hinv.result lba bytes hr)
        · exact hinv.result lba bytes hr
    · refine inv_of_taken nofun htaken ?_ hinv.stores hinv.result
      refine busy_call hinv (busy_of_phase hidle) rfl rfl rfl (fun _ _ _ h => h) ?_
      intro lba _ _ hused _
      exact .inl ⟨hused, htaken, fun hok => by cases hok⟩

theorem inv_report {ok : Bool} (hinv : s.Inv) (hphase : s.phase = .moved ok) :
    { s with status := if ok then 0 else 1, phase := .reported }.Inv := by
  have hidle : s.phase ≠ .idle := by rw [hphase]; nofun
  have htaken := taken_of_phase hinv hidle
  refine inv_of_taken nofun htaken ?_ hinv.stores hinv.result
  refine busy_call hinv (busy_of_phase hidle) rfl rfl rfl (fun _ _ _ h => h) ?_
  intro lba _ _ hused hr
  unfold Virtio.Reading at hr
  rw [hphase] at hr
  refine .inl ⟨hused, htaken, fun hstatus => hr.2 ?_⟩
  cases ok with
  | true => rfl
  | false => cases hstatus

theorem inv_complete (hinv : s.Inv) (hphase : s.phase = .reported) :
    { s with usedIdx := s.usedIdx + 1, phase := .idle }.Inv := by
  have hidle : s.phase ≠ .idle := by rw [hphase]; nofun
  have htaken := taken_of_phase hinv hidle
  refine inv_of_taken nofun htaken ?_ hinv.stores hinv.result
  refine busy_call hinv (busy_of_phase hidle) rfl rfl rfl (fun _ _ _ h => h) ?_
  intro lba _ _ _ hr
  unfold Virtio.Reading at hr
  rw [hphase] at hr
  exact .inr ⟨⟨rfl, htaken⟩, hr.2⟩

/-! ## Runs -/

/-- A call with a buffer begins only when the device is done with every entry posted before; a read
also needs that the driver has seen every completion. -/
def SettledCall (s : Virtio) : VirtioOp → Prop
  | .read _ true => s.Drained ∧ s.usedIdx = s.lastUsed
  | .write _ (some _) => s.Drained
  | _ => True

theorem inv_failed (hinv : s.Inv) : (s.ret .failed).Inv :=
  ⟨trivial, hinv.started, hinv.posted, hinv.stores, fun _ _ h => by cases h⟩

theorem inv_virtioStep {op : VirtioOp} (hinv : s.Inv) (hok : SettledCall s op)
    (h : virtioStep s op = some s') :
    s'.Inv := by
  cases op with
  | read lba buffer =>
    dsimp only [virtioStep] at h
    split at h
    · split at h
      next hpresent =>
        cases h
        obtain ⟨-, rfl⟩ := Bool.and_eq_true_iff.mp hpresent
        exact Virtio.Drained.inv hok.1 ⟨List.mem_cons_self, hok⟩ hinv.stores fun _ _ h => by cases h
      · cases h
        exact inv_failed hinv
    · cases h
  | write lba bytes =>
    unfold virtioStep at h
    cases hd : s.driver with
    | idle =>
      cases bytes with
      | none =>
        rw [hd] at h
        cases h
        exact inv_failed hinv
      | some bytes =>
        rw [hd] at h
        dsimp only at h
        split at h
        · cases h
          refine Virtio.Drained.inv hok ⟨List.mem_cons_self, hok⟩ ?_ fun _ _ h => by cases h
          exact fun x hx => List.mem_cons_of_mem _ (hinv.stores x hx)
        · cases h
          exact inv_failed hinv
    | reading _ _ =>
      rw [hd] at h
      cases h
    | writing _ _ _ =>
      rw [hd] at h
      cases h
  | driver =>
    dsimp only [virtioStep] at h
    split at h
    · cases h
    next hd =>
      cases h
      exact inv_readStep hinv hd
    next hd =>
      cases h
      exact inv_writeStep hinv hd
  | start =>
    dsimp only [virtioStep] at h
    split at h
    · split at h
      next hne =>
        cases h
        exact inv_start hinv hne.1
      · cases h
    · cases h
  | move ok =>
    dsimp only [virtioStep] at h
    split at h
    next hphase =>
      cases h
      exact inv_move hinv hphase
    · cases h
  | report =>
    dsimp only [virtioStep] at h
    split at h
    next hphase =>
      cases h
      exact inv_report hinv hphase
    · cases h
  | complete =>
    dsimp only [virtioStep] at h
    split at h
    next hphase =>
      cases h
      exact inv_complete hinv hphase
    · cases h

/-- A read delivers what its sector held during the call, and the device stores what was passed
for that sector. -/
def Virtio.OwnCompletions (s : Virtio) : Prop :=
  (∀ lba bytes, s.result = some (.read lba bytes) → (lba, bytes) ∈ s.during) ∧
    ∀ x ∈ s.stores, x ∈ s.passed

theorem own_completions {ops : List VirtioOp} (h0 : s.Fresh) (hok : Along SettledCall virtioStep s ops)
    (hrun : runs virtioStep s ops = some s') : s'.OwnCompletions := by
  have hinv := runs_inv_along Virtio.Inv (fun _ _ _ hinv hok h => inv_virtioStep hinv hok h)
      (inv_fresh h0) hok hrun
  exact ⟨hinv.result, hinv.stores⟩

def numbered : Virtio where
  present := true
  header := ⟨0, 0⟩
  data := fun _ => 0
  status := 0
  writable := true
  ring := fun _ => 0
  availIdx := 0
  usedIdx := 0
  lastUsed := 0
  driver := .idle
  buffer := fun _ => 0
  result := none
  disk := fun lba _ => lba.setWidth 8
  taken := 0
  phase := .idle
  during := []
  passed := []
  stores := []

theorem numbered_fresh : numbered.Fresh :=
  ⟨rfl, fun _ => rfl, rfl, rfl, rfl, rfl, rfl, rfl, rfl, rfl, rfl⟩

def posts : List VirtioOp := List.replicate 518 .driver

def serves : List VirtioOp := [.move true, .report, .complete]

def delivers : List VirtioOp := List.replicate 516 .driver

instance (s : Virtio) : Decidable s.Drained := inferInstanceAs (Decidable (_ ∧ _))

instance (s : Virtio) (op : VirtioOp) : Decidable (SettledCall s op) := by
  unfold SettledCall
  split <;> infer_instance

def Virtio.delivered (s : Virtio) : Option (Word × Byte × Byte) :=
  match s.result with
  | some (.read lba bytes) => some (lba, bytes 0, bytes 511)
  | _ => none

theorem own_completions_read :
    ∃ s', runs virtioStep numbered (.read 5 true :: posts ++ .start :: serves ++ delivers) = some s' ∧
      s'.delivered = some (5, 5, 5) ∧ s'.OwnCompletions := by
  have hsome : (runs virtioStep numbered (.read 5 true :: posts ++ .start :: serves ++ delivers)).map
      Virtio.delivered = some (some (5, 5, 5)) := by decide +kernel
  obtain ⟨s', hrun, hs'⟩ := Option.map_eq_some_iff.mp hsome
  refine ⟨s', hrun, hs', own_completions numbered_fresh ?_ hrun⟩
  exact along_of_check (c := fun s op => decide (SettledCall s op)) (fun _ _ => of_decide_eq_true)
    (by decide +kernel)

theorem runs_polls {lba : Word} {wait : Nat} (n : Nat) (hdriver : s.driver = .reading lba (.poll wait))
    (hn : wait + n ≤ virtioPollLimit) (hused : s.usedIdx = s.lastUsed) :
    runs virtioStep s (List.replicate n .driver) =
      some { s with driver := .reading lba (.poll (wait + n)) } := by
  induction n generalizing s wait with
  | zero =>
    rw [Nat.add_zero, ← hdriver]
    rfl
  | succ n ih =>
    have hstep : virtioStep s .driver = some { s with driver := .reading lba (.poll (wait + 1)) } := by
      dsimp only [virtioStep]
      rw [hdriver]
      dsimp only [readStep]
      rw [if_pos (by omega), if_neg (not_not.mpr hused)]
    have hrest := ih (s := { s with driver := .reading lba (.poll (wait + 1)) }) rfl (by omega) hused
    rw [List.replicate_succ, runs_cons, hstep, Option.bind_some, hrest, Nat.add_assoc, Nat.add_comm 1 n]

def startedRead : Virtio := (runs virtioStep numbered (.read 5 true :: posts ++ [.start])).getD numbered

/-- The driver gives up on sector 5 and reads sector 6; the device then serves the first read. -/
def lateRead : List VirtioOp := .driver :: .read 6 true :: posts ++ serves ++ delivers

theorem startedRead_run :
    runs virtioStep numbered (.read 5 true :: posts ++ [.start]) = some startedRead := by
  have hsome : (runs virtioStep numbered (.read 5 true :: posts ++ [.start])).isSome = true := by
    decide +kernel
  obtain ⟨s, hs⟩ := Option.isSome_iff_exists.mp hsome
  rw [startedRead, hs]
  rfl

theorem late_completion_delivered :
    ∃ s', runs virtioStep numbered (.read 5 true :: posts ++
      [.start] ++ List.replicate virtioPollLimit .driver ++ lateRead)
      = some s' ∧ ¬ s'.OwnCompletions := by
  have hdriver : startedRead.driver = .reading 5 (.poll 0) := by decide +kernel
  have hused : startedRead.usedIdx = startedRead.lastUsed := by decide +kernel
  have hpolls := runs_polls virtioPollLimit hdriver (by omega) hused
  have hlate :
      (runs virtioStep { startedRead with driver := .reading 5 (.poll virtioPollLimit) } lateRead).map
      (fun s => (s.delivered, s.during.map fun x => (x.1, x.2 0))) = some (some (6, 5, 5), [(6, 6)]) := by
    decide +kernel
  obtain ⟨s', hrun, hs'⟩ := Option.map_eq_some_iff.mp hlate
  refine ⟨s', ?_, ?_⟩
  · rw [runs_append, runs_append, startedRead_run, Option.bind_some, hpolls, Option.bind_some]
    simpa only [Nat.zero_add] using hrun
  · rintro ⟨hown, -⟩
    rw [Prod.mk.injEq] at hs'
    obtain ⟨hdelivered, hduring⟩ := hs'
    unfold Virtio.delivered at hdelivered
    split at hdelivered
    next lba bytes hresult =>
      simp only [Option.some.injEq, Prod.mk.injEq] at hdelivered
      obtain ⟨rfl, h0, -⟩ := hdelivered
      have hmem := List.mem_map_of_mem (f := fun x : Word × Sector => (x.1, x.2 0)) (hown _ _ hresult)
      rw [hduring] at hmem
      dsimp only at hmem
      rw [h0] at hmem
      revert hmem
      decide
    · cases hdelivered

end Ceblar
