import Ceblar.Lib.Ring
import Ceblar.Lib.Run
import Ceblar.Lib.Word

/-! # The loopback queue and the sockets (`net/net.c`)

Packets go through a ring of four slots, whichever socket sends them; only their lengths come out again.
-/

namespace Ceblar

open Function

/-! ## The functions -/

def netQueueSize : Word := 4
def netPacketSize : Word := 1536

structure Net where
  queue : Nat → Nat → Byte
  queueLen : Nat → Word
  queueHead : Word
  queueTail : Word
  queueCount : Word
  ready : Bool

def netInit (n : Net) : Net := { n with queueHead := 0, queueTail := 0, queueCount := 0, ready := true }

/-- `net_loopback_send`; `none` is a null pointer. -/
def netLoopbackSend (packet : Option (Nat → Byte)) (length : Word) (n : Net) : Int × Net :=
  match packet with
  | none => (-1, n)
  | some p =>
    if n.ready = false ∨ length = 0 ∨ length > netPacketSize ∨ n.queueCount ≥ netQueueSize then (-1, n)
    else
      let tail := n.queueTail.toNat
      (0, { n with
        queue := forRange length.toNat (fun i q => update q tail (update (q tail) i (p i))) n.queue
        queueLen := update n.queueLen tail length
        queueTail := (n.queueTail + 1) % netQueueSize
        queueCount := n.queueCount + 1 })

def netLoopbackReceived (n : Net) : Word × Net :=
  if n.queueCount = 0 then (0, n)
  else (n.queueLen n.queueHead.toNat,
    { n with queueHead := (n.queueHead + 1) % netQueueSize, queueCount := n.queueCount - 1 })

inductive SocketState where
  | closed
  | synSent
  | established
  | finWait
  deriving DecidableEq

structure NetSocket where
  localPort : BitVec 16
  remotePort : BitVec 16
  sequence : Word
  acknowledgement : Word
  state : SocketState
  used : Bool

def netSocketOpen (localPort : BitVec 16) (n : Net) (s : NetSocket) : Int × NetSocket :=
  if n.ready = false ∨ localPort = 0 then (-1, s) else (0, ⟨localPort, 0, 1, 0, .closed, true⟩)

def netSocketConnect (remotePort : BitVec 16) (s : NetSocket) : Int × NetSocket :=
  if s.used = false ∨ remotePort = 0 ∨ s.state ≠ .closed then (-1, s)
  else (0, { s with remotePort, acknowledgement := 1, state := .established })

def netSocketSend (data : Option (Nat → Byte)) (length : Word) (n : Net) (s : NetSocket) :
    Int × Net × NetSocket :=
  if s.used = false ∨ s.state ≠ .established ∨ data.isNone ∨ length = 0 then (-1, n, s)
  else
    let (rc, n) := netLoopbackSend data length n
    if rc ≠ 0 then (-1, n, s) else (length.toInt, n, { s with sequence := s.sequence + length })

def netSocketClose (s : NetSocket) : Int × NetSocket :=
  if s.used = false then (-1, s) else (0, { s with state := .closed, used := false })

/-! ## Calls -/

section

variable {ι : Type} [DecidableEq ι] {n : Net} {q : List Word} {packet : Option (Nat → Byte)}

structure NetState (ι : Type) where
  net : Net
  sockets : ι → NetSocket

inductive NetCall (ι : Type) where
  | send (packet : Option (Nat → Byte)) (length : Word)
  | received
  | socketOpen (i : ι) (localPort : BitVec 16)
  | socketConnect (i : ι) (remotePort : BitVec 16)
  | socketSend (i : ι) (data : Option (Nat → Byte)) (length : Word)
  | socketClose (i : ι)

def NetState.setSocket (s : NetState ι) (i : ι) (x : NetSocket) : NetState ι :=
  { s with sockets := update s.sockets i x }

def netCall (s : NetState ι) : NetCall ι → Int × NetState ι
  | .send packet length =>
    ((netLoopbackSend packet length s.net).1, { s with net := (netLoopbackSend packet length s.net).2 })
  | .received => ((netLoopbackReceived s.net).1.toNat, { s with net := (netLoopbackReceived s.net).2 })
  | .socketOpen i port =>
    ((netSocketOpen port s.net (s.sockets i)).1, s.setSocket i (netSocketOpen port s.net (s.sockets i)).2)
  | .socketConnect i port =>
    ((netSocketConnect port (s.sockets i)).1, s.setSocket i (netSocketConnect port (s.sockets i)).2)
  | .socketSend i data length =>
    let r := netSocketSend data length s.net (s.sockets i)
    (r.1, { s.setSocket i r.2.2 with net := r.2.1 })
  | .socketClose i => ((netSocketClose (s.sockets i)).1, s.setSocket i (netSocketClose (s.sockets i)).2)

/-- What the callers know: the lengths that were accepted, the lengths that came out, and what each socket
has sent since it was opened. -/
structure NetLedger (ι : Type) where
  accepted : List Word
  returned : List Word
  sent : ι → Option Nat

def NetLedger.empty (ι : Type) : NetLedger ι := ⟨[], [], fun _ => none⟩

def NetLedger.record (l : NetLedger ι) (call : NetCall ι) (rc : Int) : NetLedger ι :=
  match call with
  | .send _ length => if rc = 0 then { l with accepted := l.accepted ++ [length] } else l
  | .received => if rc ≠ 0 then { l with returned := l.returned ++ [BitVec.ofInt 32 rc] } else l
  | .socketOpen i _ => if rc = 0 then { l with sent := update l.sent i (some 0) } else l
  | .socketSend i _ length =>
    if rc ≠ -1 then
      { l with accepted := l.accepted ++ [length], sent := update l.sent i ((l.sent i).map
        (· + length.toNat)) }
    else l
  | _ => l

def netRun : List (NetCall ι) → NetState ι × NetLedger ι → NetState ι × NetLedger ι
  | [], x => x
  | call :: calls, (s, l) => netRun calls ((netCall s call).2, l.record call (netCall s call).1)

/-! ## The queue as a list -/

structure Net.Holds (n : Net) (q : List Word) : Prop where
  ready : n.ready = true
  head : n.queueHead.toNat < 4
  count : n.queueCount.toNat ≤ 4
  tail : n.queueTail.toNat = (n.queueHead.toNat + n.queueCount.toNat) % 4
  contents : ringContents n.queueLen 4 n.queueHead.toNat n.queueCount.toNat = q
  nonzero : ∀ x ∈ q, x ≠ 0

theorem Net.Holds.length (h : n.Holds q) : q.length = n.queueCount.toNat := by
  rw [← h.contents, ringContents_length]

theorem netInit_holds (n : Net) : (netInit n).Holds [] :=
  ⟨rfl, (by decide : (0 : Word).toNat < 4), (by decide : (0 : Word).toNat ≤ 4), rfl, rfl, by simp⟩

theorem toNat_next (w : Word) : ((w + 1) % netQueueSize).toNat = (w.toNat + 1) % 4 := by
  have h4 : netQueueSize.toNat = 4 := rfl
  have h1 : (1 : Word).toNat = 1 := rfl
  rw [BitVec.toNat_umod, BitVec.toNat_add, h4, h1]
  omega

def Acceptable (packet : Option (Nat → Byte)) (length : Word) (q : List Word) : Prop :=
  packet.isSome ∧ length ≠ 0 ∧ length ≤ netPacketSize ∧ q.length < 4

theorem send_accepts (h : n.Holds q) {length : Word} (hok : Acceptable packet length q) :
    (netLoopbackSend packet length n).1 = 0 ∧
    (netLoopbackSend packet length n).2.Holds (q ++ [length]) := by
  obtain ⟨hpacket, hne, hle, hroom⟩ := hok
  obtain ⟨p, rfl⟩ := Option.isSome_iff_exists.mp hpacket
  have hcount : n.queueCount.toNat < 4 := h.length ▸ hroom
  have hhead := h.head
  have htail := h.tail
  have h4 : netQueueSize.toNat = 4 := rfl
  have h1 : (1 : Word).toNat = 1 := rfl
  have hcount' : (n.queueCount + 1).toNat = n.queueCount.toNat + 1 := by
    rw [BitVec.toNat_add, h1]
    omega
  have hgoes :
      ¬(n.ready = false ∨ length = 0 ∨ length > netPacketSize ∨ n.queueCount ≥ netQueueSize) := by
    rintro (hr | h0 | hbig | hfull)
    · rw [h.ready] at hr
      cases hr
    · exact hne h0
    · exact BitVec.not_lt.mpr hle hbig
    · rw [ge_iff_le, BitVec.le_def, h4] at hfull
      omega
  unfold netLoopbackSend
  dsimp only
  rw [if_neg hgoes]
  refine ⟨rfl, ⟨h.ready, hhead, ?_, ?_, ?_, ?_⟩⟩
  · exact hcount'.trans_le (by omega)
  · change ((n.queueTail + 1) % netQueueSize).toNat = (n.queueHead.toNat + (n.queueCount + 1).toNat) % 4
    rw [toNat_next, hcount', htail]
    omega
  · change ringContents (update n.queueLen n.queueTail.toNat length) 4 n.queueHead.toNat
      (n.queueCount + 1).toNat = _
    rw [hcount', htail, ringContents_push hcount, h.contents]
  · intro x hx
    rcases List.mem_append.mp hx with hx | hx
    · exact h.nonzero x hx
    · rw [List.mem_singleton.mp hx]
      exact hne

theorem send_rejects (h : n.Holds q) {length : Word}
    (hno : ¬Acceptable packet length q) : netLoopbackSend packet length n = (-1, n) := by
  unfold netLoopbackSend
  cases packet with
  | none => rfl
  | some p =>
    dsimp only
    rw [if_pos]
    by_contra hgoes
    simp only [not_or, gt_iff_lt, ge_iff_le, BitVec.not_lt, BitVec.not_le] at hgoes
    refine hno ⟨rfl, hgoes.2.1, hgoes.2.2.1, ?_⟩
    rw [h.length]
    exact hgoes.2.2.2

theorem send_failed (packet : Option (Nat → Byte)) (length : Word) (n : Net)
    (h : (netLoopbackSend packet length n).1 ≠ 0) : netLoopbackSend packet length n = (-1, n) := by
  unfold netLoopbackSend at h ⊢
  split
  · rfl
  · dsimp only at h
    split
    · rfl
    · rename_i hgoes
      rw [if_neg hgoes] at h
      exact absurd rfl h

theorem received_takes (h : n.Holds q) :
    (netLoopbackReceived n).1 = q.headD 0 ∧ (netLoopbackReceived n).2.Holds q.tail := by
  have h1 : (1 : Word).toNat = 1 := rfl
  have hcount := h.count
  have hhead := h.head
  unfold netLoopbackReceived
  cases q with
  | nil =>
    have hzero : n.queueCount = 0 := BitVec.eq_of_toNat_eq h.length.symm
    rw [if_pos hzero]
    exact ⟨rfl, h⟩
  | cons x q =>
    have hlen : q.length + 1 = n.queueCount.toNat := h.length
    have hpos : n.queueCount ≠ 0 := by
      rintro h0
      rw [h0] at hlen
      exact absurd hlen (Nat.succ_ne_zero _)
    have hless : (n.queueCount - 1).toNat = n.queueCount.toNat - 1 := by bv_omega
    have hcontents := h.contents
    rw [← hlen, ringContents_pop hhead] at hcontents
    obtain ⟨hx, hq⟩ := List.cons.inj hcontents
    rw [if_neg hpos]
    refine ⟨hx, ⟨h.ready, ?_, ?_, ?_, ?_, fun y hy => h.nonzero y (List.mem_cons_of_mem x hy)⟩⟩
    · change ((n.queueHead + 1) % netQueueSize).toNat < 4
      rw [toNat_next]
      omega
    · change (n.queueCount - 1).toNat ≤ 4
      omega
    · change n.queueTail.toNat = (((n.queueHead + 1) % netQueueSize).toNat + (n.queueCount - 1).toNat) % 4
      rw [toNat_next, hless, h.tail]
      omega
    · change ringContents n.queueLen 4 ((n.queueHead + 1) % netQueueSize).toNat
        (n.queueCount - 1).toNat = q
      rw [toNat_next, hless, ← hlen, Nat.add_sub_cancel]
      exact hq

/-! ## Sockets -/

theorem toInt_ne_of_le {length : Word} (h : length ≤ netPacketSize) : length.toInt ≠ -1 := by
  have hle : length.toNat ≤ 1536 := h
  rw [BitVec.toInt_eq_toNat_cond]
  split <;> omega

theorem socketSend_cases (h : n.Holds q) (data : Option (Nat → Byte)) (length : Word)
    (s : NetSocket) :
    netSocketSend data length n s = (-1, n, s) ∨
    ∃ n', netSocketSend data length n s = (length.toInt, n', { s with sequence := s.sequence + length }) ∧
      n'.Holds (q ++ [length]) ∧ length.toInt ≠ -1 := by
  unfold netSocketSend
  split
  · exact .inl rfl
  · by_cases hok : Acceptable data length q
    · obtain ⟨hrc, hholds⟩ := send_accepts h hok
      refine .inr ⟨(netLoopbackSend data length n).2, ?_, hholds, ?_⟩
      · rw [← Prod.mk.eta (p := netLoopbackSend data length n), hrc]
        rfl
      · exact toInt_ne_of_le hok.2.2.1
    · rw [send_rejects h hok]
      exact .inl rfl

theorem send_ok_le {length : Word}
    (h : (netLoopbackSend packet length n).1 = 0) : length ≤ netPacketSize := by
  unfold netLoopbackSend at h
  split at h
  · cases h
  · dsimp only at h
    split at h
    · cases h
    · rename_i hgoes
      simp only [not_or, gt_iff_lt, BitVec.not_lt] at hgoes
      exact hgoes.2.2.1

theorem socketSend_failed (data : Option (Nat → Byte)) (length : Word) (n : Net) (s : NetSocket)
    (h : (netSocketSend data length n s).1 = -1) : netSocketSend data length n s = (-1, n, s) := by
  unfold netSocketSend at h ⊢
  split
  · rfl
  · rename_i hgoes
    rw [if_neg hgoes] at h
    by_cases hrc : (netLoopbackSend data length n).1 = 0
    · dsimp only at h
      rw [if_neg (not_not.mpr hrc)] at h
      exact absurd h (toInt_ne_of_le (send_ok_le hrc))
    · rw [send_failed data length n hrc]
      rfl

structure NetInv (s : NetState ι) (l : NetLedger ι) (q : List Word) : Prop where
  holds : s.net.Holds q
  order : l.accepted = l.returned ++ q
  sequence : ∀ i total, l.sent i = some total → (s.sockets i).sequence = 1 + BitVec.ofNat 32 total

section

variable {s : NetState ι} {l : NetLedger ι} {q : List Word}

theorem NetInv.setSocket (h : NetInv s l q) {i : ι} {x : NetSocket}
    (hx : x.sequence = (s.sockets i).sequence) :
    NetInv (s.setSocket i x) l q := by
  refine ⟨h.holds, h.order, fun j total hj => ?_⟩
  have hsame : ((s.setSocket i x).sockets j).sequence = (s.sockets j).sequence := by
    unfold NetState.setSocket
    dsimp only
    by_cases hji : j = i
    · subst hji
      rw [update_self, hx]
    · rw [update_of_ne hji]
  rw [hsame]
  exact h.sequence j total hj

theorem NetInv.send (h : NetInv s l q) (packet : Option (Nat → Byte)) (length : Word) :
    ∃ q', NetInv (netCall s (.send packet length)).2
      (l.record (.send packet length) (netCall s (.send packet length)).1) q' := by
  unfold netCall
  by_cases hok : Acceptable packet length q
  · obtain ⟨hrc, hholds⟩ := send_accepts h.holds hok
    dsimp only
    rw [hrc]
    refine ⟨q ++ [length], hholds, ?_, h.sequence⟩
    change l.accepted ++ [length] = l.returned ++ (q ++ [length])
    rw [h.order, List.append_assoc]
  · dsimp only
    rw [send_rejects h.holds hok]
    exact ⟨q, h⟩

theorem NetInv.received (h : NetInv s l q) :
    ∃ q', NetInv (netCall s .received).2 (l.record .received (netCall s .received).1) q' := by
  obtain ⟨hlen, hholds⟩ := received_takes h.holds
  unfold netCall
  dsimp only
  rw [hlen]
  refine ⟨q.tail, hholds, ?_, ?_⟩
  · cases q with
    | nil => exact h.order
    | cons x q =>
      have hx : x.toNat ≠ 0 := fun h0 => h.holds.nonzero x (by simp) (BitVec.eq_of_toNat_eq h0)
      have hback : BitVec.ofInt 32 (x.toNat : Int) = x := by simp
      rw [List.headD_cons, NetLedger.record, if_pos (by exact_mod_cast hx), hback, List.tail_cons]
      dsimp only
      rw [h.order, List.append_assoc, List.singleton_append]
  · unfold NetLedger.record
    dsimp only
    split <;> exact h.sequence

theorem NetInv.socketOpen (h : NetInv s l q) (i : ι) (port : BitVec 16) :
    ∃ q', NetInv (netCall s (.socketOpen i port)).2
    (l.record (.socketOpen i port) (netCall s (.socketOpen i port)).1) q' := by
  unfold netCall netSocketOpen
  dsimp only
  split
  · exact ⟨q, h.setSocket rfl⟩
  · refine ⟨q, h.holds, h.order, fun j total hj => ?_⟩
    change update l.sent i (some 0) j = some total at hj
    change (update s.sockets i _ j).sequence = _
    by_cases hji : j = i
    · subst hji
      rw [update_self, Option.some.injEq] at hj
      subst hj
      rw [update_self]
      rfl
    · rw [update_of_ne hji] at hj ⊢
      exact h.sequence j total hj

theorem NetInv.socketSend (h : NetInv s l q) (i : ι) (data : Option (Nat → Byte)) (length : Word) :
    ∃ q', NetInv (netCall s (.socketSend i data length)).2
      (l.record (.socketSend i data length) (netCall s (.socketSend i data length)).1) q' := by
  unfold netCall
  dsimp only
  rcases socketSend_cases h.holds data length (s.sockets i) with hno | ⟨n', hyes, hholds, hrc⟩
  · rw [hno]
    exact ⟨q, h.setSocket rfl⟩
  · rw [hyes]
    unfold NetLedger.record
    dsimp only
    rw [if_pos hrc]
    refine ⟨q ++ [length], hholds, ?_, fun j total hj => ?_⟩
    · dsimp only
      rw [h.order, List.append_assoc]
    · change update l.sent i _ j = some total at hj
      change (update s.sockets i _ j).sequence = _
      by_cases hji : j = i
      · subst hji
        rw [update_self] at hj ⊢
        obtain ⟨t, ht, rfl⟩ := Option.map_eq_some_iff.mp hj
        rw [h.sequence j t ht, BitVec.ofNat_add, BitVec.ofNat_toNat, BitVec.setWidth_eq, BitVec.add_assoc]
      · rw [update_of_ne hji] at hj ⊢
        exact h.sequence j total hj

theorem NetInv.call (h : NetInv s l q) (call : NetCall ι) :
    ∃ q', NetInv (netCall s call).2 (l.record call (netCall s call).1) q' := by
  cases call with
  | send packet length => exact h.send packet length
  | received => exact h.received
  | socketOpen i port => exact h.socketOpen i port
  | socketConnect i port =>
    refine ⟨q, h.setSocket ?_⟩
    unfold netSocketConnect
    split <;> rfl
  | socketSend i data length => exact h.socketSend i data length
  | socketClose i =>
    refine ⟨q, h.setSocket ?_⟩
    unfold netSocketClose
    split <;> rfl

theorem NetInv.run (h : NetInv s l q) (calls : List (NetCall ι)) :
    ∃ q', NetInv (netRun calls (s, l)).1 (netRun calls (s, l)).2 q' := by
  induction calls generalizing s l q with
  | nil => exact ⟨q, h⟩
  | cons call calls ih =>
    obtain ⟨q', h'⟩ := h.call call
    exact ih h'

end

def NetCall.isSend : NetCall ι → Bool
  | .send _ _ => true
  | .socketSend _ _ _ => true
  | _ => false

/-- The lengths come out as they were accepted, up to four are on their way, the sockets have counted what
they sent, and a send that is rejected changes nothing. -/
structure Accounted (s : NetState ι) (l : NetLedger ι) : Prop where
  fifo : ∃ q, l.accepted = l.returned ++ q ∧ q.length ≤ 4 ∧ (netLoopbackReceived s.net).1 = q.headD 0
  sequence : ∀ i total, l.sent i = some total → (s.sockets i).sequence = 1 + BitVec.ofNat 32 total
  rejected : ∀ call : NetCall ι, call.isSend = true → (netCall s call).1 = -1 → (netCall s call).2 = s

theorem rejected_send (s : NetState ι) (call : NetCall ι) (hsend : call.isSend = true)
    (h : (netCall s call).1 = -1) :
    (netCall s call).2 = s := by
  cases call with
  | send packet length =>
    unfold netCall at h ⊢
    dsimp only at h ⊢
    rw [send_failed packet length s.net (by omega)]
  | socketSend i data length =>
    unfold netCall at h ⊢
    dsimp only at h ⊢
    rw [socketSend_failed data length s.net (s.sockets i) h]
    unfold NetState.setSocket
    dsimp only
    rw [update_eq_self]
  | received => cases hsend
  | socketOpen i port => cases hsend
  | socketConnect i port => cases hsend
  | socketClose i => cases hsend

theorem loopback_accounted (n : Net) (sockets : ι → NetSocket) (calls : List (NetCall ι)) :
    Accounted (netRun calls (⟨netInit n, sockets⟩, .empty ι)).1
      (netRun calls (⟨netInit n, sockets⟩, .empty ι)).2 := by
  have hstart : NetInv (⟨netInit n, sockets⟩ : NetState ι) (.empty ι) [] :=
    ⟨netInit_holds n, rfl, fun _ _ h => by cases h⟩
  obtain ⟨q, hinv⟩ := hstart.run calls
  refine ⟨⟨q, hinv.order, ?_, (received_takes hinv.holds).1⟩, hinv.sequence, rejected_send _⟩
  rw [hinv.holds.length]
  exact hinv.holds.count

end

end Ceblar
