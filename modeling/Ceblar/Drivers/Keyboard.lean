import Ceblar.Lib.Ring
import Ceblar.Lib.Run
import Ceblar.Lib.Word

/-! # The keyboard (`drivers/keyboard/keyboard.c`)

The interrupt handler fills a ring that `keyboard_getc` empties. Whoever calls `keyboard_getc` has interrupts
on, so the handler may run between any two of its accesses.
-/

namespace Ceblar

def keyBufSize : Nat := 64

def keyText (s : String) : List Byte := s.toList.map fun c => BitVec.ofNat 8 c.toNat

/-- `map`; the entries that are left out are 0. -/
def keyMap : List Byte :=
  [0, 27] ++ keyText "1234567890-=" ++ [8, 9] ++ keyText "qwertyuiop[]" ++ [10, 0] ++
    keyText "asdfghjkl;'`" ++ [0] ++
    keyText "\\zxcvbnm,./" ++ [0, 42, 0, 32, 95]

structure Keyboard where
  keyBuf : Nat → Byte
  keyHead : Byte
  keyTail : Byte

def nextKey (i : Byte) : Byte := BitVec.ofNat 8 ((i.toNat + 1) % keyBufSize)

def keyChar (sc : Byte) : Byte := if sc &&& 0x80 ≠ 0 then 0 else keyMap.getD sc.toNat 0

/-- `keyboard_irq`, when the controller has the scan code `sc`. -/
def keyboardIrq (sc : Byte) (k : Keyboard) : Keyboard :=
  if keyChar sc = 0 then k
  else if nextKey k.keyTail = k.keyHead then k
  else { k with
         keyBuf := Function.update k.keyBuf k.keyTail.toNat (keyChar sc), keyTail := nextKey k.keyTail }

inductive GetcPc where
  | idle
  | load
  | store (c : Byte)

structure KeyState where
  keyboard : Keyboard
  pc : GetcPc
  /-- What `keyboard_getc` has returned, but for the zeros. -/
  got : List Byte

inductive KeyAct where
  | irq (sc : Byte)
  | test
  | load
  | store

def keyStep (w : KeyState) : KeyAct → Option KeyState
  | .irq sc => some { w with keyboard := keyboardIrq sc w.keyboard }
  | .test =>
    match w.pc with
    | .idle => some { w with pc := if w.keyboard.keyHead = w.keyboard.keyTail then .idle else .load }
    | _ => none
  | .load =>
    match w.pc with
    | .load => some { w with pc := .store (w.keyboard.keyBuf w.keyboard.keyHead.toNat) }
    | _ => none
  | .store =>
    match w.pc with
    | .store c =>
      some ⟨{ w.keyboard with keyHead := nextKey w.keyboard.keyHead }, .idle, w.got ++ [c]⟩
    | _ => none

/-! ## A queue of 63 characters -/

/-- The same on a queue: what waits, and what was taken. -/
def queueStep (q : List Byte × List Byte) : KeyAct → List Byte × List Byte
  | .irq sc => if keyChar sc = 0 ∨ 63 ≤ q.1.length then q else (q.1 ++ [keyChar sc], q.2)
  | .test => q
  | .load => q
  | .store => (q.1.tail, q.2 ++ q.1.head?.toList)

def Keyboard.count (k : Keyboard) : Nat := (k.keyTail.toNat + 64 - k.keyHead.toNat) % 64

def Keyboard.waiting (k : Keyboard) : List Byte := ringContents k.keyBuf 64 k.keyHead.toNat k.count

structure KeyInv (q : List Byte × List Byte) (w : KeyState) : Prop where
  head : w.keyboard.keyHead.toNat < 64
  tail : w.keyboard.keyTail.toNat < 64
  waiting : w.keyboard.waiting = q.1
  got : w.got = q.2
  /-- A call that has found a character has the first one that waits. -/
  found : ∀ c, w.pc = .store c → q.1.head? = some c
  nonempty : w.pc = .load → q.1 ≠ []

theorem toNat_nextKey (i : Byte) : (nextKey i).toNat = (i.toNat + 1) % 64 := by
  unfold nextKey keyBufSize
  rw [BitVec.toNat_ofNat]
  omega

theorem keyboardIrq_waiting {k : Keyboard} (hhead : k.keyHead.toNat < 64)
    (htail : k.keyTail.toNat < 64) (sc : Byte) :
    (keyboardIrq sc k).keyTail.toNat < 64 ∧ (keyboardIrq sc k).keyHead = k.keyHead ∧
      (keyboardIrq sc k).waiting = if keyChar sc = 0 ∨ 63 ≤ k.waiting.length then k.waiting
        else k.waiting ++ [keyChar sc] := by
  have hfull : nextKey k.keyTail = k.keyHead ↔ 63 ≤ k.waiting.length := by
    rw [BitVec.toNat_inj.symm, toNat_nextKey, Keyboard.waiting, ringContents_length, Keyboard.count]
    omega
  unfold keyboardIrq
  by_cases h0 : keyChar sc = 0
  · simp [h0, htail]
  · by_cases hf : nextKey k.keyTail = k.keyHead
    · simp [hf, hfull.mp hf, htail]
    · have hroom : ¬63 ≤ k.waiting.length := fun h => hf (hfull.mpr h)
      rw [if_neg h0, if_neg hf, if_neg (not_or.mpr ⟨h0, hroom⟩)]
      refine ⟨?_, rfl, ?_⟩
      · change (nextKey k.keyTail).toNat < 64
        rw [toNat_nextKey]
        omega
      · rw [Keyboard.waiting, ringContents_length, Keyboard.count] at hroom
        have htl : k.keyTail.toNat = (k.keyHead.toNat + k.count) % 64 := by unfold Keyboard.count; omega
        have hcount : Keyboard.count { k with
            keyBuf := Function.update k.keyBuf k.keyTail.toNat (keyChar sc),
            keyTail := nextKey k.keyTail } = k.count + 1 := by
          unfold Keyboard.count
          dsimp only
          rw [toNat_nextKey]
          omega
        unfold Keyboard.waiting
        rw [hcount]
        dsimp only
        rw [htl, ringContents_push (by unfold Keyboard.count; omega)]

theorem waiting_cons {k : Keyboard} (hhead : k.keyHead.toNat < 64) (htail : k.keyTail.toNat < 64)
    (hne : k.keyHead ≠ k.keyTail) :
    k.waiting = k.keyBuf k.keyHead.toNat :: { k with keyHead := nextKey k.keyHead }.waiting := by
  have hne' : k.keyHead.toNat ≠ k.keyTail.toNat := fun h => hne (BitVec.eq_of_toNat_eq h)
  have hcount : k.count = Keyboard.count { k with keyHead := nextKey k.keyHead } + 1 := by
    unfold Keyboard.count
    dsimp only
    rw [toNat_nextKey]
    omega
  unfold Keyboard.waiting
  rw [hcount, ringContents_pop hhead]
  dsimp only
  rw [toNat_nextKey]

theorem waiting_eq_nil {k : Keyboard} (hhead : k.keyHead.toNat < 64) (htail : k.keyTail.toNat < 64) :
    k.waiting = [] ↔ k.keyHead = k.keyTail := by
  constructor
  · intro h
    by_contra hne
    rw [waiting_cons hhead htail hne] at h
    cases h
  · intro h
    simp [Keyboard.waiting, Keyboard.count, ringContents, h]

theorem KeyInv.step {q : List Byte × List Byte} {w w' : KeyState} (h : KeyInv q w) {a : KeyAct}
    (hstep : keyStep w a = some w') : KeyInv (queueStep q a) w' := by
  cases a with
  | irq sc =>
    cases hstep
    obtain ⟨htail, hhead, hwaiting⟩ := keyboardIrq_waiting h.head h.tail sc
    rw [h.waiting] at hwaiting
    simp only [queueStep]
    split
    · rename_i hno
      rw [if_pos hno] at hwaiting
      exact ⟨hhead ▸ h.head, htail, hwaiting, h.got, h.found, h.nonempty⟩
    · rename_i hyes
      rw [if_neg hyes] at hwaiting
      exact ⟨hhead ▸ h.head, htail, hwaiting, h.got,
        fun c hc => by rw [List.head?_append, h.found c hc]; rfl, fun _ => by simp⟩
  | test =>
    simp only [keyStep] at hstep
    split at hstep <;> cases hstep
    refine ⟨h.head, h.tail, h.waiting, h.got, ?_, ?_⟩
    · intro c hc
      split at hc <;> cases hc
    · intro hload hq
      rw [queueStep, ← h.waiting, waiting_eq_nil h.head h.tail] at hq
      rw [if_pos hq] at hload
      cases hload
  | load =>
    simp only [keyStep] at hstep
    split at hstep <;> cases hstep
    rename_i hpc
    have hne := h.nonempty hpc
    rw [← h.waiting, ne_eq, waiting_eq_nil h.head h.tail] at hne
    refine ⟨h.head, h.tail, h.waiting, h.got, ?_, nofun⟩
    rintro c ⟨⟩
    rw [queueStep, ← h.waiting, waiting_cons h.head h.tail hne]
    rfl
  | store =>
    simp only [keyStep] at hstep
    split at hstep <;> cases hstep
    rename_i c hpc
    have hc := h.found c hpc
    have hne : w.keyboard.keyHead ≠ w.keyboard.keyTail := by
      rw [ne_eq, ← waiting_eq_nil h.head h.tail, h.waiting]
      rintro hnil
      rw [hnil] at hc
      cases hc
    have hcons := h.waiting.symm.trans (waiting_cons h.head h.tail hne)
    refine ⟨?_, h.tail, ?_, ?_, nofun, nofun⟩
    · change (nextKey w.keyboard.keyHead).toNat < 64
      rw [toNat_nextKey]
      omega
    · rw [queueStep, hcons]
      rfl
    · rw [queueStep, hc, ← h.got]
      rfl

/-- Whenever the interrupts come, characters are read in the order in which they were typed, none of
them twice, and only those are lost that come while 63 wait. -/
theorem keyboard_fifo {buf : Nat → Byte} {as : List KeyAct} {w : KeyState}
    (hrun : runs keyStep ⟨⟨buf, 0, 0⟩, .idle, []⟩ as = some w) :
    (w.keyboard.waiting, w.got) = as.foldl queueStep ([], []) := by
  have hinv : KeyInv (as.foldl queueStep ([], [])) w := by
    refine runs_track KeyInv (fun _ s a s' h (hs : keyStep s a = some s') => h.step hs) ?_ hrun
    have h0 : (0 : Byte).toNat < 64 := by decide
    exact ⟨h0, h0, (waiting_eq_nil h0 h0).mpr rfl, rfl, nofun, nofun⟩
  rw [hinv.waiting, hinv.got]

def typedMeanwhile : List KeyAct := [.irq 0x1e, .test, .irq 0x1f, .load, .irq 0x9e, .store]

theorem keyboard_fifo_meanwhile :
    ∃ w, runs keyStep ⟨⟨fun _ => 0, 0, 0⟩, .idle, []⟩ typedMeanwhile = some w ∧
    (w.keyboard.waiting, w.got) = ([115], [97]) :=
  ⟨_, rfl, (@keyboard_fifo _ typedMeanwhile _ rfl).trans (by decide)⟩

end Ceblar
