import Braid.Dgram.Sealing

/-! What receiving a datagram does. It is opened if it is this connection's, if its epoch
is one the reader has or can reach and if it verifies under the key of that epoch; what
opens moves the keys to its epoch and is then put to the replay window, and only what is
admitted there does anything more. -/

namespace Braid.Dgram

variable {Secret Key τ Addr : Type*} (c : Cipher Secret Key) (t : Transport τ Addr) (root : Secret)

/-- What a datagram holds, opened under the key of the epoch it names. -/
def Cipher.openDatagram (reading : Direction) (datagram : List UInt8) : Option (Header × List UInt8) :=
  match Header.decode datagram with
  | .error _ => none
  | .ok header =>
    (c.decrypt (c.keyAt reading root header.epoch.val) (datagram.take headerBytes) header.number
      ((datagram.take (datagram.length - tagBytes)).drop headerBytes)
      (datagram.drop (datagram.length - tagBytes))).map fun body => (header, body)

variable {c root} in
theorem decode_of_openDatagram {reading : Direction} {datagram body : List UInt8} {header : Header}
    (h : c.openDatagram root reading datagram = some (header, body)) : Header.decode datagram = .ok header := by
  unfold Cipher.openDatagram at h
  split at h
  · cases h
  · obtain ⟨_, -, heq⟩ := Option.map_eq_some_iff.mp h
    obtain ⟨rfl, -⟩ := Prod.mk.inj heq
    assumption

namespace KeySchedule

/-- The keys stay if the epoch is not ahead, and read it from then on if it is. -/
def Follows (ks : KeySchedule Secret Key) (epoch : Epoch) (ks' : KeySchedule Secret Key) : Prop :=
  (epoch.val ≤ ks.recv.epoch.val ∧ ks' = ks) ∨ (ks.recv.epoch.val < epoch.val ∧ ks'.recv.epoch = epoch)

variable {c root} {ks : KeySchedule Secret Key} {epoch : Epoch}

theorem reached_new (root : Secret) (sending : Direction) (epoch : Epoch) :
    (new c root sending).Reached epoch ↔ epoch.val ≤ maxEpochCatchup := by
  constructor
  · rintro (rfl | h | ⟨-, hle⟩)
    · exact Nat.zero_le _
    · cases h
    · rwa [show (new c root sending).recv.epoch.val = 0 from rfl, Nat.zero_add] at hle
  · intro hle
    obtain hzero | hpos := Nat.eq_zero_or_pos epoch.val
    · exact .inl (Fin.ext hzero)
    · exact .inr (.inr ⟨hpos, hle.trans (Nat.le_add_left _ _)⟩)

end KeySchedule

namespace Endpoint

variable {c t root} {e : Endpoint Secret Key τ Addr}

/-- A datagram in reach is tried under the key of its epoch; if it opens, the keys move there. -/
theorem recv_reached (h : e.keys.Coherent c root) (src : Addr) (now : ℕ) {datagram : List UInt8} {header : Header}
    (hdecode : Header.decode datagram = .ok header) (hcid : header.cid = e.cid) (hreached : e.keys.Reached header.epoch) :
    ∃ keys ahead, keys.Coherent c root ∧ keys.send = e.keys.send ∧ keys.sending = e.keys.sending ∧
      e.keys.Follows header.epoch keys ∧ KeySchedule.Coherent c root { e.keys with ahead } ∧
      e.recv c t src now datagram = match c.openDatagram root e.keys.sending.opposite datagram with
        | none => ({ e with keys := { e.keys with ahead } }, .error .auth)
        | some (_, body) => { e with keys }.admitted c t src now datagram.length header body := by
  unfold recv Cipher.openDatagram
  rw [hdecode]
  dsimp only
  rw [if_neg (not_not_intro hcid)]
  obtain ⟨hreach, hepoch⟩ | ⟨hreach, key, hkey⟩ | ⟨count, hreach, hpos, hle, hepoch⟩ | ⟨-, hout⟩ :=
    e.keys.reach_cases header.epoch
  · refine ⟨e.keys, e.keys.ahead, h, rfl, rfl, .inl ⟨by rw [hepoch], rfl⟩, h, ?_⟩
    rw [hreach, hepoch, ← h.recvKey]
    dsimp only [KeySchedule.reading]
    cases c.decrypt e.keys.recvKey _ _ _ _ <;> rfl
  · refine ⟨e.keys, e.keys.ahead, h, rfl, rfl, .inl ⟨(h.previous _ _ hkey).1.le, rfl⟩, h, ?_⟩
    have hreading : e.keys.reading .previous = some key := by
      rw [KeySchedule.reading, hkey]
      rfl
    rw [hreach, ← (h.previous _ _ hkey).2]
    dsimp only
    rw [hreading]
    dsimp only
    cases c.decrypt key _ _ _ _ <;> rfl
  · have hlt : e.keys.recv.epoch.val + count < 256 := hepoch ▸ header.epoch.isLt
    obtain ⟨hpeeked, ⟨ahead, hahead⟩, hsome⟩ := h.peekAhead count
    have hkey := hsome hpos hle hlt
    rw [hahead] at hpeeked
    obtain ⟨keys, epoch, hfollow, hcoh, hsend, -, hsending, hmoved, -⟩ := hpeeked.follow hpos hle hlt
    have hfollows : e.keys.Follows header.epoch keys := .inr ⟨by omega, Fin.ext (hmoved.trans hepoch.symm)⟩
    refine ⟨keys, ahead, hcoh, hsend, hsending, hfollows, hpeeked, ?_⟩
    rw [hreach]
    simp only [hahead, hkey, hfollow, ← hepoch]
    cases c.decrypt _ _ _ _ _ <;> rfl
  · exact absurd hreached hout

/-- A datagram opens and is put to the window with the keys at its epoch, or changes at most
the keys derived ahead. -/
theorem recv_cases (h : e.keys.Coherent c root) (src : Addr) (now : ℕ) (datagram : List UInt8) :
    (∃ header body keys, c.openDatagram root e.keys.sending.opposite datagram = some (header, body) ∧
      header.cid = e.cid ∧ e.keys.Reached header.epoch ∧ keys.Coherent c root ∧ keys.send = e.keys.send ∧
      keys.sending = e.keys.sending ∧ e.keys.Follows header.epoch keys ∧
      e.recv c t src now datagram = { e with keys }.admitted c t src now datagram.length header body) ∨
    (∃ error ahead, (∀ header body, c.openDatagram root e.keys.sending.opposite datagram = some (header, body) →
        header.cid = e.cid → ¬ e.keys.Reached header.epoch) ∧
      KeySchedule.Coherent c root { e.keys with ahead } ∧
      e.recv c t src now datagram = ({ e with keys := { e.keys with ahead } }, .error error)) := by
  cases hdecode : Header.decode datagram with
  | error error =>
    refine .inr ⟨.malformed error, e.keys.ahead, fun header body hopen => ?_, h, ?_⟩
    · cases hdecode.symm.trans (decode_of_openDatagram hopen)
    · rw [recv, hdecode]
  | ok header =>
    have hheader : ∀ header' body, c.openDatagram root e.keys.sending.opposite datagram = some (header', body) →
        header' = header := fun header' body hopen =>
      (Except.ok.inj (hdecode.symm.trans (decode_of_openDatagram hopen))).symm
    by_cases hcid : header.cid = e.cid
    · by_cases hreached : e.keys.Reached header.epoch
      · obtain ⟨keys, ahead, hcoh, hsend, hsending, hfollows, hpeeked, hrecv⟩ := recv_reached (t := t) h src now hdecode hcid hreached
        cases hopen : c.openDatagram root e.keys.sending.opposite datagram with
        | none =>
          rw [hopen] at hrecv
          exact .inr ⟨.auth, ahead, nofun, hpeeked, hrecv⟩
        | some opened =>
          obtain ⟨header', body⟩ := opened
          obtain rfl := hheader header' body hopen
          rw [hopen] at hrecv
          exact .inl ⟨header', body, keys, rfl, hcid, hreached, hcoh, hsend, hsending, hfollows, hrecv⟩
      · obtain ⟨-, hepoch⟩ | ⟨-, key, hkey⟩ | ⟨count, -, hpos, hle, hepoch⟩ | ⟨hreach, -⟩ :=
          e.keys.reach_cases header.epoch
        · exact absurd (.inl hepoch) hreached
        · exact absurd (.inr (.inl (by rw [hkey]; rfl))) hreached
        · exact absurd (.inr (.inr (by omega))) hreached
        · refine .inr ⟨.unknownEpoch, e.keys.ahead, fun header' body hopen _ => hheader header' body hopen ▸ hreached, h, ?_⟩
          rw [recv, hdecode]
          dsimp only
          rw [if_neg (not_not_intro hcid), hreach]
    · refine .inr ⟨.wrongConnection, e.keys.ahead,
        fun header' body hopen hcid' => absurd (hheader header' body hopen ▸ hcid') hcid, h, ?_⟩
      rw [recv, hdecode]
      dsimp only
      rw [if_pos hcid]

section

variable {cid : ConnectionId} {claimed : Addr → τ} {src : Addr} {now : ℕ} {datagram : List UInt8}

theorem recv_of_accept {received : Received Addr} (h : accept c t cid root claimed src now datagram = .ok (e, received)) :
    recv c t (new c cid root (claimed src) .serverToClient) src now datagram = (e, .ok received) := by
  unfold accept at h
  split at h
  · obtain ⟨rfl, rfl⟩ := Prod.mk.inj (Except.ok.inj h)
    assumption
  · cases h

theorem accept_isOk_iff :
    (∃ accepted, accept c t cid root claimed src now datagram = .ok accepted) ↔ ∃ received,
      (recv c t (new c cid root (claimed src) .serverToClient) src now datagram).2 = .ok received := by
  rw [accept]
  generalize recv c t (new c cid root (claimed src) .serverToClient) src now datagram = outcome
  obtain ⟨e, error | received⟩ := outcome
  · simp
  · simp

end

/-! ### What is opened -/

variable {kind : Kind} {src : Addr} {now : ℕ} {body : List UInt8}

theorem sameReading_dispatch (h : e.keys.Coherent c root) :
    Advances c root e (e.dispatch c t src now kind body).1 none ∧ SameReading e (e.dispatch c t src now kind body).1 := by
  have hidle : ∀ e' : Endpoint Secret Key τ Addr, e'.cid = e.cid → e'.keys = e.keys → e'.next = e.next →
      e'.rekeyEvery = e.rekeyEvery → e'.rekeyAt = e.rekeyAt → e'.window = e.window →
      Advances c root e e' none ∧ SameReading e e' := fun e' hcid hkeys hnext hevery hat hwindow =>
    ⟨advances_of_eq h hcid hkeys hnext hevery hat, hwindow, by rw [hkeys], by rw [hkeys]⟩
  cases kind with
  | frame => exact hidle _ rfl rfl rfl rfl rfl rfl
  | challenge =>
    dsimp only [dispatch]
    split_ifs
    · exact hidle _ rfl rfl rfl rfl rfl rfl
    · exact hidle _ rfl rfl rfl rfl rfl rfl
  | response =>
    dsimp only [dispatch]
    split_ifs
    · split
      · exact hidle _ rfl rfl rfl rfl rfl rfl
      · exact hidle _ rfl rfl rfl rfl rfl rfl
      · -- the move rotates the keys
        have hrotate := @advances_rotate _ _ _ _ c root { e with transport := (t.answered e.transport src body).1 } h
        have hmoved := hidle { e with transport := (t.answered e.transport src body).1 } rfl rfl rfl rfl rfl rfl
        exact ⟨(hmoved.1.trans hrotate.1).trans_eq rfl rfl rfl rfl rfl,
          (hmoved.2.trans hrotate.2).trans ⟨rfl, rfl, rfl⟩⟩
    · exact hidle _ rfl rfl rfl rfl rfl rfl
  | alive => exact hidle _ rfl rfl rfl rfl rfl rfl
  | close => exact hidle _ rfl rfl rfl rfl rfl rfl
  | ack =>
    dsimp only [dispatch]
    split
    · exact hidle _ rfl rfl rfl rfl rfl rfl
    · exact hidle _ rfl rfl rfl rfl rfl rfl
  | probe => exact hidle _ rfl rfl rfl rfl rfl rfl

theorem dispatch_eq_frame {frame : List UInt8} (h : (e.dispatch c t src now kind body).2 = .frame frame) :
    kind = .frame ∧ frame = body := by
  cases kind with
  | frame => exact ⟨rfl, (Received.frame.inj h).symm⟩
  | challenge | alive | close | probe => cases h
  | response =>
    dsimp only [dispatch] at h
    split_ifs at h
    split at h <;> cases h
  | ack =>
    dsimp only [dispatch] at h
    split at h <;> cases h

theorem admitted_spec (h : e.keys.Coherent c root) (src : Addr) (now size : ℕ) (header : Header) (body : List UInt8) :
    ((e.window.admit_ header.number).2 = .fresh → ∃ e' received,
      e.admitted c t src now size header body = (e', .ok received) ∧ Advances c root e e' none ∧
      e'.window = (e.window.admit_ header.number).1 ∧ e'.keys.recv = e.keys.recv ∧
      e'.keys.recvPrevious = e.keys.recvPrevious ∧
      ∀ frame, received = .frame frame → header.kind = .frame ∧ frame = body) ∧
    ((e.window.admit_ header.number).2 ≠ .fresh →
      e.admitted c t src now size header body =
        ({ e with window := (e.window.admit_ header.number).1 }, .error (.replayed header.number))) := by
  refine ⟨fun hfresh => ?_, fun hstale => ?_⟩
  · unfold admitted
    dsimp only
    rw [if_neg (not_not_intro hfresh)]
    generalize hbefore : (if header.kind.ackEliciting then _ else _ : Endpoint Secret Key τ Addr) = before
    have hsame : before.cid = e.cid ∧ before.keys = e.keys ∧ before.next = e.next ∧ before.rekeyEvery = e.rekeyEvery ∧
        before.rekeyAt = e.rekeyAt ∧ before.window = (e.window.admit_ header.number).1 := by
      rw [← hbefore]
      split_ifs <;> exact ⟨rfl, rfl, rfl, rfl, rfl, rfl⟩
    obtain ⟨hcid, hkeys, hnext, hevery, hat, hwindow⟩ := hsame
    have hcoh : before.keys.Coherent c root := hkeys ▸ h
    obtain ⟨hadv, hsame⟩ := @sameReading_dispatch _ _ _ _ c t root before header.kind src now body hcoh
    refine ⟨_, _, rfl, (advances_of_eq h hcid hkeys hnext hevery hat).trans hadv, hsame.window.trans hwindow, ?_, ?_,
      fun frame => dispatch_eq_frame⟩
    · rw [hsame.recv, hkeys]
    · rw [hsame.recvPrevious, hkeys]
  · unfold admitted
    exact if_pos hstale

section

variable {e' : Endpoint Secret Key τ Addr} {datagram : List UInt8}

theorem advances_recv {result : Except RecvError (Received Addr)}
    (hrecv : e.recv c t src now datagram = (e', result)) (h : e.keys.Coherent c root) : Advances c root e e' none := by
  obtain ⟨header, body, keys, -, -, -, hcoh, hsend, hsending, -, heq⟩ | ⟨error, ahead, -, hcoh, heq⟩ :=
    recv_cases (t := t) h src now datagram
  · have hmoved : Advances c root e { e with keys } none := by
      refine ⟨rfl, hsending, hcoh, ?_, rfl, nofun, fun hp => ⟨hp.every, hp.next_le, ?_⟩⟩
      · exact Nat.le_of_eq (by rw [hsend])
      · change e.rekeyAt ≤ (keys.send.epoch.val + 1) * rekeyAfter
        rw [hsend]
        exact hp.rekeyAt_le
    obtain ⟨htake, hdrop⟩ := admitted_spec (t := t) (e := { e with keys }) hcoh src now datagram.length header body
    rw [heq] at hrecv
    by_cases hfresh : (e.window.admit_ header.number).2 = .fresh
    · obtain ⟨e₁, received, htaken, hadv, -⟩ := htake hfresh
      obtain ⟨rfl, -⟩ := Prod.mk.inj (htaken.symm.trans hrecv)
      exact hmoved.trans hadv
    · obtain ⟨rfl, -⟩ := Prod.mk.inj ((hdrop hfresh).symm.trans hrecv)
      exact hmoved.trans_eq rfl rfl rfl rfl rfl
  · obtain ⟨rfl, -⟩ := Prod.mk.inj (heq.symm.trans hrecv)
    exact ⟨rfl, rfl, hcoh, Nat.le_refl _, rfl, nofun, fun hp => { hp with }⟩

theorem recv_ok {received : Received Addr}
    (hrecv : e.recv c t src now datagram = (e', .ok received)) (h : e.keys.Coherent c root) :
    ∃ header body, c.openDatagram root e.keys.sending.opposite datagram = some (header, body) ∧
      (e.window.admit_ header.number).2 = .fresh ∧ e'.window = (e.window.admit_ header.number).1 ∧
      ∀ frame, received = .frame frame → header.kind = .frame ∧ frame = body := by
  obtain ⟨header, body, keys, hopen, -, -, hcoh, -, -, -, heq⟩ | ⟨error, ahead, -, -, heq⟩ :=
    recv_cases (t := t) h src now datagram
  · obtain ⟨htake, hdrop⟩ := admitted_spec (t := t) (e := { e with keys }) hcoh src now datagram.length header body
    rw [heq] at hrecv
    by_cases hfresh : (e.window.admit_ header.number).2 = .fresh
    · obtain ⟨e₁, received₁, htaken, -, hwindow, -, -, hframe⟩ := htake hfresh
      obtain ⟨rfl, hreceived⟩ := Prod.mk.inj (htaken.symm.trans hrecv)
      obtain rfl := Except.ok.inj hreceived
      exact ⟨header, body, hopen, hfresh, hwindow, hframe⟩
    · cases (hdrop hfresh).symm.trans hrecv
  · cases heq.symm.trans hrecv

theorem recv_error {error : RecvError}
    (hrecv : e.recv c t src now datagram = (e', .error error)) (h : e.keys.Coherent c root) :
    e'.window = e.window ∨ ∃ n, (e.window.admit_ n).2 ≠ .fresh ∧ e'.window = (e.window.admit_ n).1 := by
  obtain ⟨header, body, keys, -, -, -, hcoh, -, -, -, heq⟩ | ⟨error, ahead, -, -, heq⟩ :=
    recv_cases (t := t) h src now datagram
  · obtain ⟨htake, hdrop⟩ := admitted_spec (t := t) (e := { e with keys }) hcoh src now datagram.length header body
    rw [heq] at hrecv
    by_cases hfresh : (e.window.admit_ header.number).2 = .fresh
    · obtain ⟨e₁, received₁, htaken, -⟩ := htake hfresh
      cases htaken.symm.trans hrecv
    · obtain ⟨rfl, -⟩ := Prod.mk.inj ((hdrop hfresh).symm.trans hrecv)
      exact .inr ⟨header.number, hfresh, rfl⟩
  · obtain ⟨rfl, -⟩ := Prod.mk.inj (heq.symm.trans hrecv)
    exact .inl rfl

end

/-- A datagram of this connection that opens is taken exactly if its epoch is in reach and the window finds it fresh. -/
theorem recv_isOk_iff (h : e.keys.Coherent c root) (src : Addr) (now : ℕ) {datagram body : List UInt8} {header : Header}
    (hopen : c.openDatagram root e.keys.sending.opposite datagram = some (header, body)) (hcid : header.cid = e.cid) :
    (∃ received, (e.recv c t src now datagram).2 = .ok received) ↔
      e.keys.Reached header.epoch ∧ (e.window.admit_ header.number).2 = .fresh := by
  obtain ⟨header₁, body₁, keys, hopen₁, -, hreached, hcoh, -, -, -, heq⟩ | ⟨error, ahead, hnot, -, heq⟩ :=
    recv_cases (t := t) h src now datagram
  · obtain ⟨rfl, rfl⟩ := Prod.mk.inj (Option.some.inj (hopen₁.symm.trans hopen))
    obtain ⟨htake, hdrop⟩ := admitted_spec (t := t) (e := { e with keys }) hcoh src now datagram.length header₁ body₁
    rw [heq]
    by_cases hfresh : (e.window.admit_ header₁.number).2 = .fresh
    · obtain ⟨e₁, received, htaken, -⟩ := htake hfresh
      rw [htaken]
      exact iff_of_true ⟨received, rfl⟩ ⟨hreached, hfresh⟩
    · rw [hdrop hfresh]
      exact iff_of_false nofun fun hboth => hfresh hboth.2
  · rw [heq]
    exact iff_of_false nofun fun hboth => hnot header body hopen hcid hboth.1

end Endpoint

end Braid.Dgram
