import Braid.Foundation.System
import Braid.Dgram.Keys

/-! A key schedule over a whole connection. Its owner rotates the sending key, looks ahead
at keys that a peer may have rotated to, and follows the peer by the distance that `reach`
answered for the epoch of a datagram. Whatever the order, every key held is that of the epoch
it is held for, and an epoch within reach is read with the key the peer seals it under. -/

namespace Braid.Dgram

open Foundation

variable {Secret Key : Type*}

inductive ScheduleAction where
  | rotate
  | peekAhead (count : ℕ)
  /-- Follow the peer into an epoch that `reach` places ahead. -/
  | follow (epoch : Epoch)
  deriving DecidableEq

namespace KeySchedule

/-- A rotation past the last epoch changes nothing, and an epoch that is not ahead is not followed. -/
def act (c : Cipher Secret Key) (ks : KeySchedule Secret Key) : ScheduleAction → Option (KeySchedule Secret Key)
  | .rotate => some ((ks.rotate c).getD ks)
  | .peekAhead count => some (ks.peekAhead c count).1
  | .follow epoch =>
    match ks.reach epoch with
    | .ahead count => some (ks.follow c count).1
    | _ => none

def system (c : Cipher Secret Key) (root : Secret) (sending : Direction) :
    System (KeySchedule Secret Key) ScheduleAction := ⟨(· = new c root sending), act c⟩

/-- The key for a datagram of an epoch, as a receiver asks for it. -/
def keyFor (c : Cipher Secret Key) (ks : KeySchedule Secret Key) (epoch : Epoch) : Option Key :=
  match ks.reach epoch with
  | .ahead count => (ks.peekAhead c count).2
  | reach => ks.reading reach

variable {c : Cipher Secret Key} {root : Secret} {ks ks' : KeySchedule Secret Key} {sending : Direction} {epoch : Epoch}

theorem Coherent.act {a : ScheduleAction} (h : Coherent c root ks) (hs : ks.act c a = some ks') :
    Coherent c root ks' ∧ ks'.sending = ks.sending := by
  cases a with
  | rotate =>
    cases hs
    cases hrotate : ks.rotate c with
    | none => exact ⟨h, rfl⟩
    | some rotated =>
      obtain ⟨hcoh, -, hsending, -⟩ := h.rotate hrotate
      exact ⟨hcoh, hsending⟩
  | peekAhead count =>
    cases hs
    obtain ⟨hcoh, ⟨ahead, heq⟩, -⟩ := h.peekAhead count
    exact ⟨hcoh, by rw [heq]⟩
  | follow epoch =>
    rw [KeySchedule.act] at hs
    obtain ⟨hreach, -⟩ | ⟨hreach, -⟩ | ⟨count, hreach, hpos, hle, hepoch⟩ | ⟨hreach, -⟩ := ks.reach_cases epoch
    · rw [hreach] at hs
      cases hs
    · rw [hreach] at hs
      cases hs
    · rw [hreach] at hs
      cases hs
      -- an epoch that a header names exists, so following it does not stop midway
      obtain ⟨ks', _, hfollow, hcoh, -, -, hsending, -⟩ := h.follow hpos hle (by have := epoch.isLt; omega)
      rw [hfollow]
      exact ⟨hcoh, hsending⟩
    · rw [hreach] at hs
      cases hs

theorem reachable_coherent (h : (system c root sending).Reachable ks) : Coherent c root ks ∧ ks.sending = sending := by
  refine h.invariant (P := fun ks => Coherent c root ks ∧ ks.sending = sending) ?_ ?_
  · rintro _ rfl
    exact ⟨coherent_new root sending, rfl⟩
  · rintro ks a ks' ⟨hcoh, hsending⟩ hs
    obtain ⟨hcoh', hsame⟩ := hcoh.act hs
    exact ⟨hcoh', hsame.trans hsending⟩

theorem Coherent.keyFor (h : Coherent c root ks) (hreach : ks.reach epoch ≠ .unreachable) :
    ks.keyFor c epoch = some (c.keyAt ks.sending.opposite root epoch.val) := by
  unfold KeySchedule.keyFor
  obtain ⟨hcase, rfl⟩ | ⟨hcase, key, hprevious⟩ | ⟨count, hcase, hpos, hle, hepoch⟩ | ⟨hcase, -⟩ := ks.reach_cases epoch
  · rw [hcase]
    exact congrArg some h.recvKey
  · rw [hcase]
    simp only [reading, hprevious, Option.map_some, Option.some.injEq]
    exact (h.previous epoch key hprevious).2
  · rw [hcase, hepoch]
    exact (h.peekAhead count).2.2 hpos hle (by have := epoch.isLt; omega)
  · exact absurd hcase hreach

/-- Over every interleaving of rotations, looks ahead and catching up, each key of a schedule
is the root ratcheted as often as its epoch says, and every epoch within reach is read with
the key that the peer's schedule seals it under. -/
theorem schedule_coherent (h : (system c root sending).Reachable ks) :
    ks.sending = sending ∧
    ks.sendKey = c.keyAt sending root ks.send.epoch.val ∧
    ks.recvKey = c.keyAt sending.opposite root ks.recv.epoch.val ∧
    (∀ e k, ks.recvPrevious = some (e, k) → k = c.keyAt sending.opposite root e.val) ∧
    (∀ i k, ks.ahead[i]? = some (some k) → k = c.keyAt sending.opposite root (ks.recv.epoch.val + i + 1)) ∧
    ∀ epoch, ks.reach epoch ≠ .unreachable →
      ks.keyFor c epoch = some (c.keyAt sending.opposite root epoch.val) ∧
      ∀ peer, (system c root sending.opposite).Reachable peer → peer.send.epoch = epoch →
        ks.keyFor c epoch = some peer.sendKey := by
  obtain ⟨hcoh, rfl⟩ := reachable_coherent h
  refine ⟨rfl, hcoh.sendKey, hcoh.recvKey, fun e k hk => (hcoh.previous e k hk).2, fun i k hk => (hcoh.ahead i k hk).2,
    fun epoch hreach => ⟨hcoh.keyFor hreach, fun peer hpeer hepoch => ?_⟩⟩
  obtain ⟨hpeer, hopposite⟩ := reachable_coherent hpeer
  rw [hcoh.keyFor hreach, hpeer.sendKey, hopposite, hepoch]

def counting : Cipher ℕ (Direction × ℕ) where
  ratchet := (· + 1)
  derive direction secret := (direction, secret)
  encrypt _ _ _ body := (body, [])
  decrypt _ _ _ body _ := some body

theorem schedule_coherent_caughtUp : ∃ ks, (system counting 0 .clientToServer).Reachable ks ∧ ks.recv.epoch = 2 ∧
    ks.reach 4 = .ahead 2 ∧ ks.keyFor counting 4 = some (.serverToClient, 4) ∧
    ks.keyFor counting 0 = some (.serverToClient, 0) := by
  obtain ⟨ks, hreach, hepoch, hahead, hprevious⟩ : ∃ ks, (system counting 0 .clientToServer).Reachable ks ∧
      ks.recv.epoch = 2 ∧ ks.reach 4 = .ahead 2 ∧ ks.reach 0 = .previous :=
    System.Reachable.of_run (new counting 0 .clientToServer) [.rotate, .peekAhead 3, .follow 2, .peekAhead 1, .rotate] rfl
      (by decide +kernel)
  obtain ⟨-, -, -, -, -, hkeys⟩ := schedule_coherent hreach
  refine ⟨ks, hreach, hepoch, hahead, ?_, ?_⟩
  · exact (hkeys 4 (by rw [hahead]; decide)).1
  · exact (hkeys 0 (by rw [hprevious]; decide)).1

end KeySchedule

end Braid.Dgram
