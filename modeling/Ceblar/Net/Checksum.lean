import Ceblar.Lib.OnesComplement
import Ceblar.Lib.Word

/-! # The Internet checksum (`net/net.c`)

The source folds the carries while it adds, once more at its end, and goes on from one buffer to the next.
What it computes is the one's-complement sum of the big-endian words.
-/

namespace Ceblar

/-! ## The functions -/

def bigEndian (b0 b1 : Byte) : BitVec 16 := b0.setWidth 16 <<< 8 ||| b1.setWidth 16

def foldOnce (sum : Word) : Word := (sum &&& 0xffff#32) + sum >>> 16

def addWords (sum : Word) : List Byte → Word
  | [] => sum
  | [b] => sum + (bigEndian b 0).setWidth 32
  | b0 :: b1 :: p =>
    let sum := sum + (bigEndian b0 b1).setWidth 32
    let sum := if sum > 0xffff then foldOnce sum else sum
    addWords sum p

theorem toNat_foldOnce (sum : Word) : (foldOnce sum).toNat = sum.toNat % 65536 + sum.toNat / 65536 := by
  have hhigh : (sum >>> 16).toNat = sum.toNat / 65536 := toNat_shiftRight sum 16
  have hlow : (sum &&& 0xffff#32).toNat = sum.toNat % 65536 := toNat_and_mask sum 16 0xffff#32 rfl
  have := sum.isLt
  rw [foldOnce, BitVec.toNat_add, hlow, hhigh]
  omega

theorem shiftRight_ne_zero (sum : Word) : sum >>> 16 ≠ 0#32 ↔ 65536 ≤ sum.toNat := by
  have hhigh : (sum >>> 16).toNat = sum.toNat / 65536 := toNat_shiftRight sum 16
  rw [Ne, ← BitVec.toNat_inj, hhigh, BitVec.toNat_zero]
  omega

/-- `while (sum >> 16) sum = (sum & 0xffff) + (sum >> 16);` Each round makes the sum smaller. -/
def foldSum (sum : Word) : Word :=
  if _h : sum >>> 16 ≠ 0#32 then foldSum (foldOnce sum) else sum
termination_by sum.toNat
decreasing_by
  rw [toNat_foldOnce]
  have := (shiftRight_ne_zero sum).mp _h
  omega

def foldChecksum (sum : Word) : BitVec 16 := (~~~foldSum sum).setWidth 16

def netChecksum (data : List Byte) : BitVec 16 := foldChecksum (addWords 0 data)

structure NetIpv6 where
  versionTrafficFlow : Word
  payloadLength : BitVec 16
  nextHeader : Byte
  hopLimit : Byte
  source : Fin 16 → Byte
  destination : Fin 16 → Byte

def pseudoHeader (h : NetIpv6) (length : Word) (next : Byte) : List Byte :=
  List.ofFn h.source ++ List.ofFn h.destination ++
    [(length >>> 24).setWidth 8, (length >>> 16).setWidth 8,
      (length >>> 8).setWidth 8, length.setWidth 8, 0, 0, 0, next]

def bytesAt (p : Nat → Byte) (length : Word) : List Byte := (List.range length.toNat).map p

/-- `net_tcp_checksum`; `none` is a null pointer. -/
def netTcpChecksum (h : Option NetIpv6) (t : Option (Nat → Byte)) (length : Word) : BitVec 16 :=
  match h, t with
  | some h, some t =>
    if length > 0xffff then 0
    else
      let sum := addWords 0 (pseudoHeader h length 6)
      foldChecksum (addWords sum (bytesAt t length))
  | _, _ => 0

/-- `net_icmpv6_checksum`, which takes a null pointer for an empty payload. -/
def netIcmpv6Checksum (h : Option NetIpv6) (payload : Option (Nat → Byte)) (length : Word) : BitVec 16 :=
  match h with
  | none => 0
  | some h =>
    if payload = none ∧ length ≠ 0 then 0
    else
      let sum := addWords 0 (pseudoHeader h length 58)
      let sum := addWords sum ((payload.map (bytesAt · length)).getD [])
      foldChecksum sum

/-! ## The sum -/

/-- The big-endian words of a buffer, the last one padded with a zero. -/
def beWords : List Byte → List (BitVec 16)
  | [] => []
  | [b] => [bigEndian b 0]
  | b0 :: b1 :: p => bigEndian b0 b1 :: beWords p

def beBytes (w : BitVec 16) : List Byte := [(w >>> 8).setWidth 8, w.setWidth 8]

theorem foldSum_toNat {sum : Word} (h : sum.toNat ≤ 0x1fffe) :
    (foldSum sum).toNat = if sum.toNat < 2 ^ 16 then sum.toNat else sum.toNat - (2 ^ 16 - 1) := by
  have hstop : ∀ s : Word, s.toNat < 2 ^ 16 → foldSum s = s := by
    intro s hs
    rw [foldSum, dif_neg (mt (shiftRight_ne_zero s).mp (by omega))]
  by_cases hlt : sum.toNat < 2 ^ 16
  · rw [hstop sum hlt, if_pos hlt]
  · have hsum := toNat_foldOnce sum
    rw [foldSum, dif_pos ((shiftRight_ne_zero sum).mpr (by omega)), hstop _ (by omega), hsum, if_neg hlt]
    omega

section

variable {sum : Word}

theorem toNat_add_word (h : sum.toNat < 2 ^ 16) (w : BitVec 16) :
    (sum + w.setWidth 32).toNat = (sum.setWidth 16).toNat + w.toNat := by
  have hw := w.isLt
  rw [BitVec.toNat_add, BitVec.toNat_setWidth, BitVec.toNat_setWidth]
  omega

theorem round_toNat (h : sum.toNat < 2 ^ 16) (w : BitVec 16) :
    (if sum + w.setWidth 32 > 0xffff then foldOnce (sum + w.setWidth 32) else sum + w.setWidth 32).toNat =
      (onesAdd (sum.setWidth 16) w).toNat := by
  have hw := w.isLt
  have hs := (sum.setWidth 16).isLt
  have hsum := toNat_add_word h w
  have hmax : (0xffff : Word).toNat = 65535 := rfl
  rw [toNat_onesAdd (by decide)]
  by_cases hlt : (sum.setWidth 16).toNat + w.toNat < 2 ^ 16
  · rw [if_pos hlt, if_neg (by rw [gt_iff_lt, BitVec.lt_def, hsum, hmax]; omega), hsum]
  · rw [if_neg hlt, if_pos (by rw [gt_iff_lt, BitVec.lt_def, hsum, hmax]; omega), toNat_foldOnce, hsum]
    omega

theorem foldSum_addWords (h : sum.toNat < 2 ^ 16) (data : List Byte) :
    (foldSum (addWords sum data)).toNat = (onesSum (sum.setWidth 16) (beWords data)).toNat := by
  induction data using beWords.induct generalizing sum with
  | case1 =>
    rw [addWords, foldSum_toNat (by omega), if_pos h, beWords, onesSum, List.foldl_nil,
      BitVec.toNat_setWidth]
    omega
  | case2 b =>
    have hw := (bigEndian b 0).isLt
    have hs := (sum.setWidth 16).isLt
    have hsum := toNat_add_word h (bigEndian b 0)
    rw [addWords, foldSum_toNat (by omega), hsum, beWords, onesSum_cons, onesSum, List.foldl_nil,
      toNat_onesAdd (by decide)]
  | case3 b0 b1 p ih =>
    have hround := round_toNat h (bigEndian b0 b1)
    have hlt := (onesAdd (sum.setWidth 16) (bigEndian b0 b1)).isLt
    rw [addWords, beWords, onesSum_cons, ih (hround.trans_lt hlt)]
    congr 2
    apply BitVec.eq_of_toNat_eq
    rw [BitVec.toNat_setWidth, hround, Nat.mod_eq_of_lt hlt]

end

theorem netChecksum_eq (data : List Byte) : netChecksum data = ~~~onesSum 0#16 (beWords data) := by
  have hsum := foldSum_addWords (by decide : (0 : Word).toNat < 2 ^ 16) data
  apply BitVec.eq_of_toNat_eq
  have hlt := (onesSum 0#16 (beWords data)).isLt
  unfold netChecksum foldChecksum
  rw [BitVec.toNat_setWidth, BitVec.toNat_not, BitVec.toNat_not, hsum]
  change (2 ^ 32 - 1 - (onesSum 0#16 (beWords data)).toNat) % 2 ^ 16 = _
  omega

section

variable {a : List Byte}

theorem beWords_append (ha : a.length % 2 = 0) (b : List Byte) :
    beWords (a ++ b) = beWords a ++ beWords b := by
  induction a using beWords.induct with
  | case1 => rfl
  | case2 x => exact absurd ha Nat.one_ne_zero
  | case3 x y a ih =>
    rw [List.length_cons, List.length_cons] at ha
    rw [List.cons_append, List.cons_append, beWords, beWords, ih (by omega), List.cons_append]

theorem addWords_append (ha : a.length % 2 = 0) (sum : Word) (b : List Byte) :
    addWords sum (a ++ b) = addWords (addWords sum a) b := by
  induction a using beWords.induct generalizing sum with
  | case1 => rfl
  | case2 x => exact absurd ha Nat.one_ne_zero
  | case3 x y a ih =>
    rw [List.length_cons, List.length_cons] at ha
    rw [List.cons_append, List.cons_append, addWords, addWords, ih (by omega)]

theorem pseudoHeader_length (h : NetIpv6) (length : Word) (next : Byte) :
    (pseudoHeader h length next).length = 40 := by
  simp [pseudoHeader]

theorem netTcpChecksum_eq (h : NetIpv6) (t : Nat → Byte) {length : Word} (hlen : length ≤ 0xffff) :
    netTcpChecksum (some h) (some t) length =
      netChecksum (pseudoHeader h length 6 ++ bytesAt t length) := by
  unfold netTcpChecksum netChecksum
  rw [addWords_append (by rw [pseudoHeader_length])]
  dsimp only
  rw [if_neg (BitVec.not_lt.mpr hlen)]

theorem netIcmpv6Checksum_eq (h : NetIpv6) (p : Nat → Byte) (length : Word) :
    netIcmpv6Checksum (some h) (some p) length =
      netChecksum (pseudoHeader h length 58 ++ bytesAt p length) := by
  unfold netIcmpv6Checksum netChecksum
  rw [addWords_append (by rw [pseudoHeader_length])]
  dsimp only
  rw [if_neg (fun hnone => Option.some_ne_none p hnone.1)]
  rfl

theorem bigEndian_beBytes (w : BitVec 16) : bigEndian ((w >>> 8).setWidth 8) (w.setWidth 8) = w := by
  apply BitVec.eq_of_getLsbD_eq
  intro i hi
  unfold bigEndian
  by_cases h8 : i < 8
  · simp [h8, hi]
  · simp [h8, hi, show i - 8 < 8 by omega, show 8 + (i - 8) = i by omega]

theorem beWords_field (ha : a.length % 2 = 0) (w : BitVec 16) (b : List Byte) :
    beWords (a ++ beBytes w ++ b) = beWords a ++ w :: beWords b := by
  rw [List.append_assoc, beWords_append ha, beBytes, List.cons_append, List.cons_append,
    List.nil_append, beWords, bigEndian_beBytes]

theorem netChecksum_filled (ha : a.length % 2 = 0) (b : List Byte) :
    netChecksum (a ++ beBytes (netChecksum (a ++ beBytes 0#16 ++ b)) ++ b) = 0 := by
  rw [netChecksum_eq (a ++ beBytes 0#16 ++ b), netChecksum_eq, beWords_field ha, beWords_field ha]
  have hsum := onesSum_modEq (by decide) 0#16 (beWords a ++ 0#16 :: beWords b)
  have hzero := onesSum_eq_zero (a := 0#16) (l := beWords a ++ 0#16 :: beWords b) (by decide)
  generalize onesSum 0#16 (beWords a ++ 0#16 :: beWords b) = sum at hsum hzero ⊢
  have hlt := sum.isLt
  rw [onesSum_eq_allOnes (by decide)]
  · decide
  · rw [List.map_append, List.map_cons, List.sum_append, List.sum_cons, BitVec.toNat_zero] at hsum
    rw [List.map_append, List.map_cons, List.sum_append, List.sum_cons, BitVec.toNat_not]
    unfold Nat.ModEq at hsum ⊢
    omega
  · by_contra hall
    push Not at hall
    have hones := hall (~~~sum) (by simp)
    have hsum0 := hzero.mpr ⟨rfl, fun w hw => by
      rcases List.mem_append.mp hw with hw | hw
      · exact hall w (by simp [hw])
      · rcases List.mem_cons.mp hw with rfl | hw
        · rfl
        · exact hall w (by simp [hw])⟩
    rw [hsum0] at hones
    exact absurd hones (by decide)

/-- The checksum is the complement of the one's-complement sum, it makes the checksum of the whole buffer
vanish, and the two checksums of IPv6 are those of the pseudo-header with the payload behind it. -/
theorem checksums_right (data a b : List Byte) (h : NetIpv6) (p : Nat → Byte) (length : Word) :
    netChecksum data = ~~~onesSum 0#16 (beWords data) ∧
    (a.length % 2 = 0 → netChecksum (a ++ beBytes (netChecksum (a ++ beBytes 0#16 ++ b)) ++ b) = 0) ∧
    (length ≤ 0xffff →
      netTcpChecksum (some h) (some p) length =
        netChecksum (pseudoHeader h length 6 ++ bytesAt p length)) ∧
    netIcmpv6Checksum (some h) (some p) length =
      netChecksum (pseudoHeader h length 58 ++ bytesAt p length) :=
  ⟨netChecksum_eq data, fun ha => netChecksum_filled ha b, fun hlen => netTcpChecksum_eq h p hlen,
    netIcmpv6Checksum_eq h p length⟩

def zeroIpv6 : NetIpv6 := ⟨0x60, 0, 0, 0, fun _ => 0, fun _ => 0⟩

theorem checksums_right_odd :
    netChecksum [1, 2, 3] = ~~~onesSum 0#16 [0x0102, 0x0300] ∧
    netChecksum ([0x45, 0] ++ beBytes (netChecksum ([0x45, 0] ++ beBytes 0#16 ++ [7])) ++ [7]) = 0 ∧
    netTcpChecksum (some zeroIpv6) (some fun _ => 1) 1 =
      netChecksum (pseudoHeader zeroIpv6 1 6 ++ [1]) := by
  obtain ⟨hsum, hfield, htcp, -⟩ := checksums_right [1, 2, 3] [0x45, 0] [7] zeroIpv6 (fun _ => 1) 1
  exact ⟨hsum, hfield rfl, htcp (by decide)⟩

end

end Ceblar
