import Braid.Dgram.Packet
import Mathlib.Logic.Function.Iterate

/-! Where the keys come from: below one root secret a ratchet gives a secret to each
epoch, and each secret a key to each direction. The derivations and the cipher are
parameters. A schedule holds the sending key, the key it reads with, the one it last
retired and, derived on demand, the keys of the next few epochs. -/

namespace Braid.Dgram

inductive Direction where
  | clientToServer
  | serverToClient
  deriving DecidableEq

def Direction.opposite : Direction → Direction
  | .clientToServer => .serverToClient
  | .serverToClient => .clientToServer

@[simp] theorem Direction.opposite_opposite (d : Direction) : d.opposite.opposite = d := by cases d <;> rfl

/-- The key derivations and the authenticated cipher: `encrypt` gives the ciphertext and
the tag over header and ciphertext, `decrypt` the plaintext of what verifies. -/
structure Cipher (Secret Key : Type*) where
  ratchet : Secret → Secret
  derive : Direction → Secret → Key
  encrypt : Key → List UInt8 → ℕ → List UInt8 → List UInt8 × List UInt8
  decrypt : Key → List UInt8 → ℕ → List UInt8 → List UInt8 → Option (List UInt8)

variable {Secret Key : Type*} (c : Cipher Secret Key)

def Cipher.keyAt (direction : Direction) (root : Secret) (epoch : ℕ) : Key :=
  c.derive direction (c.ratchet^[epoch] root)

structure Ratchet (Secret : Type*) where
  epoch : Epoch
  secret : Secret

namespace Ratchet

def new (root : Secret) : Ratchet Secret := ⟨.first, root⟩

def advance (r : Ratchet Secret) : Option (Ratchet Secret) := r.epoch.next.map fun next => ⟨next, c.ratchet r.secret⟩

def advanceBy : ℕ → Ratchet Secret → Ratchet Secret × Bool
  | 0, r => (r, true)
  | n + 1, r =>
    match r.advance c with
    | none => (r, false)
    | some r => advanceBy n r

end Ratchet

def maxEpochCatchup : ℕ := 4

inductive Reach where
  | current
  | previous
  | ahead (count : ℕ)
  | unreachable
  deriving DecidableEq

structure KeySchedule (Secret Key : Type*) where
  send : Ratchet Secret
  sendKey : Key
  sending : Direction
  recv : Ratchet Secret
  recvKey : Key
  recvPrevious : Option (Epoch × Key)
  ahead : List (Option Key)

namespace KeySchedule

def new (root : Secret) (sending : Direction) : KeySchedule Secret Key where
  send := .new root
  sendKey := c.derive sending root
  sending
  recv := .new root
  recvKey := c.derive sending.opposite root
  recvPrevious := none
  ahead := List.replicate maxEpochCatchup none

variable (ks : KeySchedule Secret Key)

def rotate : Option (KeySchedule Secret Key) :=
  (ks.send.advance c).map fun send => { ks with send, sendKey := c.derive ks.sending send.secret }

def reach (epoch : Epoch) : Reach :=
  if epoch = ks.recv.epoch then .current
  else if ks.recvPrevious.map Prod.fst = some epoch then .previous
  else if ks.recv.epoch.val ≤ epoch.val ∧ epoch.val - ks.recv.epoch.val ≤ maxEpochCatchup then
    .ahead (epoch.val - ks.recv.epoch.val)
  else .unreachable

def reading : Reach → Option Key
  | .current => some ks.recvKey
  | .previous => ks.recvPrevious.map Prod.snd
  | .ahead _ | .unreachable => none

/-- The keys of the epochs after `epoch`, up to the last epoch there is. -/
def deriveAhead (direction : Direction) : Epoch → Secret → List (Option Key) → List (Option Key)
  | _, _, [] => []
  | epoch, secret, slot :: slots =>
    match epoch.next with
    | none => slot :: slots
    | some next => some (c.derive direction (c.ratchet secret)) :: deriveAhead direction next (c.ratchet secret) slots

/-- Derived without committing, and kept until the ratchet moves. -/
def peekAhead (count : ℕ) : KeySchedule Secret Key × Option Key :=
  if count = 0 ∨ maxEpochCatchup < count then (ks, none)
  else
    let ks := if (ks.ahead.getD (count - 1) none).isNone then
      { ks with ahead := deriveAhead c ks.sending.opposite ks.recv.epoch ks.recv.secret ks.ahead } else ks
    (ks, ks.ahead.getD (count - 1) none)

def follow (count : ℕ) : KeySchedule Secret Key × Option Epoch :=
  if count = 0 ∨ maxEpochCatchup < count then (ks, none)
  else
    match ks.recv.advanceBy c count with
    | (recv, false) => ({ ks with recv }, none)
    | (recv, true) => ({ ks with
        recv
        recvKey := c.derive ks.sending.opposite recv.secret
        recvPrevious := some (ks.recv.epoch, ks.recvKey)
        ahead := List.replicate maxEpochCatchup none }, some recv.epoch)

/-- The epoch is the one being read, the one last retired, or close enough ahead. -/
def Reached (epoch : Epoch) : Prop :=
  epoch = ks.recv.epoch ∨ ks.recvPrevious.map Prod.fst = some epoch ∨
    (ks.recv.epoch.val < epoch.val ∧ epoch.val ≤ ks.recv.epoch.val + maxEpochCatchup)

theorem reach_cases (epoch : Epoch) :
    (ks.reach epoch = .current ∧ epoch = ks.recv.epoch) ∨
    (ks.reach epoch = .previous ∧ ∃ key, ks.recvPrevious = some (epoch, key)) ∨
    (∃ count, ks.reach epoch = .ahead count ∧ 0 < count ∧ count ≤ maxEpochCatchup ∧
      epoch.val = ks.recv.epoch.val + count) ∨
    (ks.reach epoch = .unreachable ∧ ¬ ks.Reached epoch) := by
  unfold reach
  split_ifs with hcurrent hprevious hahead
  · exact .inl ⟨rfl, hcurrent⟩
  · obtain ⟨⟨_, key⟩, heq, rfl⟩ := Option.map_eq_some_iff.mp hprevious
    exact .inr (.inl ⟨rfl, key, heq⟩)
  · have hne : epoch.val ≠ ks.recv.epoch.val := fun heq => hcurrent (Fin.ext heq)
    exact .inr (.inr (.inl ⟨_, rfl, by omega, hahead.2, by omega⟩))
  · refine .inr (.inr (.inr ⟨rfl, ?_⟩))
    rintro (h | h | h)
    · exact hcurrent h
    · exact hprevious h
    · exact hahead (by omega)

/-! ### Coherence -/

/-- Every key held is that of its epoch. -/
structure Coherent (root : Secret) (ks : KeySchedule Secret Key) : Prop where
  sendSecret : ks.send.secret = c.ratchet^[ks.send.epoch.val] root
  sendKey : ks.sendKey = c.keyAt ks.sending root ks.send.epoch.val
  recvSecret : ks.recv.secret = c.ratchet^[ks.recv.epoch.val] root
  recvKey : ks.recvKey = c.keyAt ks.sending.opposite root ks.recv.epoch.val
  previous : ∀ e k, ks.recvPrevious = some (e, k) → e < ks.recv.epoch ∧ k = c.keyAt ks.sending.opposite root e.val
  aheadLength : ks.ahead.length = maxEpochCatchup
  ahead : ∀ i k, ks.ahead[i]? = some (some k) →
    ks.recv.epoch.val + i + 1 < 256 ∧ k = c.keyAt ks.sending.opposite root (ks.recv.epoch.val + i + 1)

variable {c} {root : Secret} {ks ks' : KeySchedule Secret Key}

theorem coherent_new (root : Secret) (sending : Direction) : Coherent c root (new c root sending) where
  sendSecret := rfl
  sendKey := rfl
  recvSecret := rfl
  recvKey := rfl
  previous := nofun
  aheadLength := rfl
  ahead i k h := by
    rw [new, List.getElem?_replicate] at h
    split_ifs at h
    cases h

theorem Coherent.rotate (h : Coherent c root ks) (hks : ks.rotate c = some ks') : Coherent c root ks' ∧
    ks'.send.epoch.val = ks.send.epoch.val + 1 ∧ ks'.sending = ks.sending ∧ ks'.recv = ks.recv ∧
    ks'.recvPrevious = ks.recvPrevious := by
  obtain ⟨send, hsend, rfl⟩ := Option.map_eq_some_iff.mp hks
  obtain ⟨next, hnext, rfl⟩ := Option.map_eq_some_iff.mp hsend
  have hval := Epoch.val_next hnext
  have hsecret : c.ratchet ks.send.secret = c.ratchet^[next.val] root := by
    rw [h.sendSecret, hval, Function.iterate_succ_apply']
  refine ⟨⟨hsecret, ?_, h.recvSecret, h.recvKey, h.previous, h.aheadLength, h.ahead⟩, hval, rfl, rfl, rfl⟩
  exact congrArg _ hsecret

theorem getElem?_deriveAhead (direction : Direction) (epoch : Epoch) (secret : Secret) (slots : List (Option Key)) (i : ℕ) :
    (deriveAhead c direction epoch secret slots)[i]? =
      if i < slots.length ∧ epoch.val + i + 1 < 256 then some (some (c.derive direction (c.ratchet^[i + 1] secret)))
      else slots[i]? := by
  induction slots generalizing epoch secret i with
  | nil => simp [deriveAhead]
  | cons slot slots ih =>
    rw [deriveAhead]
    cases hnext : epoch.next with
    | none =>
      have hlast : ¬ epoch.val + 1 < 256 := fun hlt => by
        rw [Epoch.next, dif_pos hlt] at hnext
        cases hnext
      rw [if_neg (by omega)]
    | some next =>
      have hval := Epoch.val_next hnext
      cases i with
      | zero => rw [if_pos ⟨by simp, by omega⟩]; rfl
      | succ i =>
        rw [List.getElem?_cons_succ, List.getElem?_cons_succ, ih, List.length_cons, hval,
          Function.iterate_succ_apply _ (i + 1)]
        simp only [Nat.add_lt_add_iff_right, show epoch.val + 1 + i + 1 = epoch.val + (i + 1) + 1 by omega]

theorem length_deriveAhead (direction : Direction) (epoch : Epoch) (secret : Secret) (slots : List (Option Key)) :
    (deriveAhead c direction epoch secret slots).length = slots.length := by
  induction slots generalizing epoch secret with
  | nil => rfl
  | cons slot slots ih =>
    rw [deriveAhead]
    split
    · rfl
    · rw [List.length_cons, ih, List.length_cons]

theorem Coherent.deriveAhead (h : Coherent c root ks) :
    Coherent c root { ks with ahead := deriveAhead c ks.sending.opposite ks.recv.epoch ks.recv.secret ks.ahead } where
  sendSecret := h.sendSecret
  sendKey := h.sendKey
  recvSecret := h.recvSecret
  recvKey := h.recvKey
  previous := h.previous
  aheadLength := (length_deriveAhead _ _ _ _).trans h.aheadLength
  ahead i k hk := by
    rw [getElem?_deriveAhead] at hk
    split_ifs at hk with hderived
    · refine ⟨hderived.2, ?_⟩
      rw [← Option.some.inj (Option.some.inj hk), h.recvSecret, ← Function.iterate_add_apply, Cipher.keyAt, Nat.add_comm,
        Nat.add_assoc]
    · exact h.ahead i k hk

theorem Coherent.getD_ahead (h : Coherent c root ks) {i : ℕ} {k : Key} (hk : ks.ahead.getD i none = some k) :
    k = c.keyAt ks.sending.opposite root (ks.recv.epoch.val + i + 1) := by
  rw [List.getD_eq_getElem?_getD] at hk
  cases hslot : ks.ahead[i]? with
  | none => rw [hslot] at hk; cases hk
  | some slot =>
    rw [hslot, Option.getD_some] at hk
    exact (h.ahead i k (hslot.trans (congrArg some hk))).2

theorem Coherent.peekAhead (h : Coherent c root ks) (count : ℕ) :
    Coherent c root (ks.peekAhead c count).1 ∧
      (∃ ahead, (ks.peekAhead c count).1 = { ks with ahead }) ∧
      (0 < count → count ≤ maxEpochCatchup → ks.recv.epoch.val + count < 256 →
        (ks.peekAhead c count).2 = some (c.keyAt ks.sending.opposite root (ks.recv.epoch.val + count))) := by
  unfold KeySchedule.peekAhead
  split_ifs with hout hempty
  · exact ⟨h, ⟨ks.ahead, rfl⟩, by omega⟩
  · refine ⟨h.deriveAhead, ⟨_, rfl⟩, fun hpos hle hlt => ?_⟩
    have hlen := h.aheadLength
    dsimp only
    rw [List.getD_eq_getElem?_getD, getElem?_deriveAhead, if_pos (by omega), Option.getD_some, h.recvSecret,
      ← Function.iterate_add_apply, Cipher.keyAt, Nat.sub_add_cancel hpos, Nat.add_comm]
  · refine ⟨h, ⟨ks.ahead, rfl⟩, fun hpos hle hlt => ?_⟩
    obtain ⟨k, hk⟩ := Option.ne_none_iff_exists'.mp fun hnone => hempty (Option.isNone_iff_eq_none.mpr hnone)
    dsimp only
    rw [hk, h.getD_ahead hk, Nat.add_assoc, Nat.sub_add_cancel hpos]

theorem advanceBy_spec {r : Ratchet Secret} (hr : r.secret = c.ratchet^[r.epoch.val] root) (count : ℕ)
    (hlt : r.epoch.val + count < 256) : ∃ r', r.advanceBy c count = (r', true) ∧ r'.epoch.val = r.epoch.val + count ∧
      r'.secret = c.ratchet^[r'.epoch.val] root := by
  induction count generalizing r with
  | zero => exact ⟨r, rfl, rfl, hr⟩
  | succ count ih =>
    have hnext : r.epoch.next = some ⟨r.epoch.val + 1, by omega⟩ := dif_pos _
    have hadvance : r.advance c = some ⟨⟨r.epoch.val + 1, by omega⟩, c.ratchet r.secret⟩ := by
      rw [Ratchet.advance, hnext]
      rfl
    have hsecret : c.ratchet r.secret = c.ratchet^[r.epoch.val + 1] root := by
      rw [hr, Function.iterate_succ_apply']
    obtain ⟨r', hr', hepoch, hroot⟩ := @ih ⟨⟨r.epoch.val + 1, by omega⟩, c.ratchet r.secret⟩ hsecret (by dsimp only; omega)
    refine ⟨r', ?_, by rw [hepoch]; dsimp only; omega, hroot⟩
    rw [Ratchet.advanceBy, hadvance]
    exact hr'

/-- Following the peer into an epoch that exists retires the current one. -/
theorem Coherent.follow (h : Coherent c root ks) {count : ℕ} (hpos : 0 < count) (hle : count ≤ maxEpochCatchup)
    (hlt : ks.recv.epoch.val + count < 256) : ∃ ks' epoch, ks.follow c count = (ks', some epoch) ∧ Coherent c root ks' ∧
      ks'.send = ks.send ∧ ks'.sendKey = ks.sendKey ∧ ks'.sending = ks.sending ∧
      ks'.recv.epoch.val = ks.recv.epoch.val + count ∧ ks'.recvPrevious = some (ks.recv.epoch, ks.recvKey) := by
  obtain ⟨recv, hadvance, hepoch, hsecret⟩ := advanceBy_spec h.recvSecret count hlt
  have hfollow : ks.follow c count = ({ ks with
      recv
      recvKey := c.derive ks.sending.opposite recv.secret
      recvPrevious := some (ks.recv.epoch, ks.recvKey)
      ahead := List.replicate maxEpochCatchup none }, some recv.epoch) := by
    rw [KeySchedule.follow, if_neg (by omega), hadvance]
  refine ⟨_, _, hfollow, ⟨h.sendSecret, h.sendKey, hsecret, congrArg _ hsecret, ?_, rfl, ?_⟩, rfl, rfl, rfl, hepoch, rfl⟩
  · rintro e k heq
    cases heq
    exact ⟨Fin.lt_def.mpr (by dsimp only; omega), h.recvKey⟩
  · intro i k hk
    rw [List.getElem?_replicate] at hk
    split_ifs at hk
    cases hk

end KeySchedule

end Braid.Dgram
