import Braid.Foundation.Bytes

/-! The header every datagram carries in the clear: what it is, which connection
it belongs to, which key opens it and its packet number. -/

namespace Braid.Dgram

open Foundation

/-- `kind`, connection id, key epoch, packet number. -/
def headerBytes : ℕ := 1 + 8 + 1 + 6

def tagBytes : ℕ := 16

/-- Packet numbers are six bytes on the wire. -/
def maxPacketNumber : ℕ := 2 ^ 48 - 1

inductive Kind where
  | frame
  | challenge
  | response
  | alive
  | close
  | ack
  | probe
  deriving DecidableEq

namespace Kind

def toWire : Kind → UInt8
  | .frame => 0
  | .challenge => 1
  | .response => 2
  | .alive => 3
  | .close => 4
  | .ack => 5
  | .probe => 6

def fromWire (byte : UInt8) : Option Kind :=
  if byte = 0 then some .frame
  else if byte = 1 then some .challenge
  else if byte = 2 then some .response
  else if byte = 3 then some .alive
  else if byte = 4 then some .close
  else if byte = 5 then some .ack
  else if byte = 6 then some .probe
  else none

theorem fromWire_toWire (kind : Kind) : fromWire kind.toWire = some kind := by cases kind <;> rfl

def ackEliciting : Kind → Bool
  | .frame | .challenge | .response | .probe => true
  | .alive | .close | .ack => false

def tracked : Kind → Bool
  | .frame | .probe => true
  | _ => false

end Kind

structure ConnectionId where
  bytes : List UInt8
  length_eq : bytes.length = 8
  deriving DecidableEq

/-- A key epoch: a byte that is counted up and never wraps. -/
abbrev Epoch := Fin 256

namespace Epoch

def first : Epoch := 0

def fromWire (byte : UInt8) : Epoch := ⟨byte.toNat, byte.toNat_lt⟩

def toWire (epoch : Epoch) : UInt8 := UInt8.ofNat epoch.val

/-- None at the last: a wrap puts a spent keystream back in service. -/
def next (epoch : Epoch) : Option Epoch := if h : epoch.val + 1 < 256 then some ⟨epoch.val + 1, h⟩ else none

theorem fromWire_toWire (epoch : Epoch) : fromWire epoch.toWire = epoch := by
  apply Fin.ext
  change (UInt8.ofNat epoch.val).toNat = epoch.val
  exact Nat.mod_eq_of_lt epoch.isLt

theorem val_next {epoch epoch' : Epoch} (h : epoch.next = some epoch') : epoch'.val = epoch.val + 1 := by
  unfold next at h
  split_ifs at h
  cases h
  rfl

end Epoch

structure Header where
  kind : Kind
  cid : ConnectionId
  epoch : Epoch
  number : ℕ
  deriving DecidableEq

inductive MalformedPacket where
  | short
  | unknownKind (byte : UInt8)
  deriving DecidableEq

namespace Header

/-- The header's bytes; none if the packet number does not fit, which is asserted. -/
def encode (h : Header) : Option (List UInt8) :=
  if h.number ≤ maxPacketNumber then
    some ([h.kind.toWire] ++ h.cid.bytes ++ [h.epoch.toWire] ++ beBytes 6 h.number)
  else none

def decode (datagram : List UInt8) : Except MalformedPacket Header :=
  if h : datagram.length < headerBytes + tagBytes then .error .short
  else match Kind.fromWire (datagram.getD 0 0) with
    | none => .error (.unknownKind (datagram.getD 0 0))
    | some kind => .ok {
        kind
        cid := ⟨(datagram.drop 1).take 8, by rw [headerBytes, tagBytes] at h; simp; omega⟩
        epoch := .fromWire (datagram.getD 9 0)
        number := ofBeBytes ((datagram.drop 10).take 6) }

variable {h : Header} {head : List UInt8}

theorem encode_some (hhead : h.encode = some head) : h.number ≤ maxPacketNumber ∧
    head = [h.kind.toWire] ++ h.cid.bytes ++ [h.epoch.toWire] ++ beBytes 6 h.number := by
  unfold encode at hhead
  split_ifs at hhead with hnumber
  exact ⟨hnumber, (Option.some.inj hhead).symm⟩

theorem length_encode (hhead : h.encode = some head) : head.length = headerBytes := by
  obtain ⟨-, rfl⟩ := encode_some hhead
  simp [h.cid.length_eq, headerBytes]

theorem decode_encode (hhead : h.encode = some head) {rest : List UInt8} (hrest : tagBytes ≤ rest.length) :
    decode (head ++ rest) = .ok h := by
  have hlen := length_encode hhead
  obtain ⟨hnumber, hbytes⟩ := encode_some hhead
  obtain ⟨kind, ⟨cid, hcid⟩, epoch, number⟩ := h
  have hdatagram : head ++ rest = kind.toWire :: (cid ++ (epoch.toWire :: (beBytes 6 number ++ rest))) := by
    rw [hbytes]
    simp
  have hcid' : ((head ++ rest).drop 1).take 8 = cid := by
    rw [hdatagram, List.drop_succ_cons, List.drop_zero, ← hcid, List.take_left]
  have hepoch : (head ++ rest).getD 9 0 = epoch.toWire := by
    rw [hdatagram, List.getD_cons_succ, List.getD_eq_getElem?_getD, List.getElem?_append_right (by omega), hcid]
    rfl
  have hnumber' : ((head ++ rest).drop 10).take 6 = beBytes 6 number := by
    have hdrop : (cid ++ epoch.toWire :: (beBytes 6 number ++ rest)).drop 9 = beBytes 6 number ++ rest := by
      rw [List.drop_append, List.drop_eq_nil_of_le (by omega), hcid]
      rfl
    rw [hdatagram, List.drop_succ_cons, hdrop, List.take_left' (length_beBytes 6 number)]
  have hshort : ¬ (head ++ rest).length < headerBytes + tagBytes := by
    rw [List.length_append, hlen]
    omega
  have hkind : Kind.fromWire ((head ++ rest).getD 0 0) = some kind := by
    rw [hdatagram, List.getD_cons_zero, Kind.fromWire_toWire]
  unfold decode
  rw [dif_neg hshort]
  simp only [hkind, hcid', hepoch, hnumber', Epoch.fromWire_toWire]
  rw [ofBeBytes_beBytes (Nat.lt_of_le_pred (by decide) hnumber)]

theorem number_decode {datagram : List UInt8} (hdecode : decode datagram = .ok h) : h.number ≤ maxPacketNumber := by
  unfold decode at hdecode
  split_ifs at hdecode with hshort
  split at hdecode
  · cases hdecode
  · obtain rfl := Except.ok.inj hdecode
    have hlt := ofBeBytes_lt ((datagram.drop 10).take 6)
    have hlen : ((datagram.drop 10).take 6).length = 6 := by
      rw [headerBytes, tagBytes] at hshort
      simp
      omega
    rw [hlen] at hlt
    exact Nat.le_sub_one_of_lt hlt

end Header

/-- What has arrived: the largest number, the delay in nanoseconds before this was said,
and a map of the numbers below it. -/
structure Ack where
  largest : ℕ
  delay : ℕ
  map : ℕ

namespace Ack

def bodyBytes : ℕ := 6 + 4 + 8

/-- The body's bytes; none if the number does not fit, which is asserted. -/
def encode (a : Ack) : Option (List UInt8) :=
  if a.largest ≤ maxPacketNumber then
    some (beBytes 6 a.largest ++ beBytes 4 (min (a.delay / 1000) (2 ^ 32 - 1)) ++ beBytes 8 a.map)
  else none

def decode (body : List UInt8) : Option Ack :=
  if body.length = bodyBytes then
    some ⟨ofBeBytes (body.take 6), ofBeBytes ((body.drop 6).take 4) * 1000, ofBeBytes (body.drop 10)⟩
  else none

end Ack

end Braid.Dgram
