import Braid.Dgram.Polling

/-! What each call does to the sending half of an endpoint. A call emits at most one
datagram, under the number that is next and the key of the epoch it is then in; numbers
go up by the datagrams emitted and epochs only go up. With the default interval between
rotations the numbers stay below the one the wire cannot carry, and no call fails. -/

namespace Braid.Dgram

/-- A datagram with the header and the body that were sealed into it. -/
structure Packet where
  header : Header
  body : List UInt8
  datagram : List UInt8

variable {Secret Key τ Addr : Type*} (c : Cipher Secret Key) (t : Transport τ Addr) (root : Secret)

/-- The datagram is the header and the body sealed under the key of the header's epoch and its number. -/
def Packet.Sealed (sending : Direction) (p : Packet) : Prop :=
  ∃ head payload tag, p.header.encode = some head ∧
    c.encrypt (c.keyAt sending root p.header.epoch.val) head p.header.number p.body = (payload, tag) ∧
    p.datagram = head ++ payload ++ tag

/-- An authenticated cipher keeps the length of what it seals and appends its tag. -/
structure Cipher.KeepsLength (c : Cipher Secret Key) : Prop where
  payload : ∀ key head number body, (c.encrypt key head number body).1.length = body.length
  tag : ∀ key head number body, (c.encrypt key head number body).2.length = tagBytes

namespace Endpoint

/-- The rotations keep up with the numbers. -/
structure Paced (e : Endpoint Secret Key τ Addr) : Prop where
  every : e.rekeyEvery = rekeyAfter
  next_le : e.next ≤ e.rekeyAt
  rekeyAt_le : e.rekeyAt ≤ (e.keys.send.epoch.val + 1) * rekeyAfter

/-- What a call that emits `out` does to the sending half. -/
structure Advances (e e' : Endpoint Secret Key τ Addr) (out : Option Packet) : Prop where
  cid : e'.cid = e.cid
  sending : e'.keys.sending = e.keys.sending
  coherent : e'.keys.Coherent c root
  epoch : e.keys.send.epoch ≤ e'.keys.send.epoch
  next : e'.next = e.next + out.toList.length
  packet : ∀ p ∈ out, p.Sealed c root e.keys.sending ∧ p.header.cid = e.cid ∧ p.header.number = e.next ∧
    p.header.epoch = e'.keys.send.epoch
  paced : e.Paced → e'.Paced

/-- What the receiving half knows is as it was. -/
structure SameReading (e e' : Endpoint Secret Key τ Addr) : Prop where
  window : e'.window = e.window
  recv : e'.keys.recv = e.keys.recv
  recvPrevious : e'.keys.recvPrevious = e.keys.recvPrevious

variable {c t root} {e e' e₁ : Endpoint Secret Key τ Addr} {kind : Kind} {body : List UInt8} {dest : Addr} {now : ℕ}

theorem SameReading.refl (e : Endpoint Secret Key τ Addr) : SameReading e e := ⟨rfl, rfl, rfl⟩

theorem SameReading.trans (h₁ : SameReading e e₁) (h₂ : SameReading e₁ e') : SameReading e e' :=
  ⟨h₂.window.trans h₁.window, h₂.recv.trans h₁.recv, h₂.recvPrevious.trans h₁.recvPrevious⟩

theorem advances_of_eq (h : e.keys.Coherent c root) (hcid : e'.cid = e.cid) (hkeys : e'.keys = e.keys)
    (hnext : e'.next = e.next) (hevery : e'.rekeyEvery = e.rekeyEvery) (hat : e'.rekeyAt = e.rekeyAt) :
    Advances c root e e' none where
  cid := hcid
  sending := by rw [hkeys]
  coherent := hkeys ▸ h
  epoch := hkeys ▸ Nat.le_refl _
  next := hnext
  packet := nofun
  paced hp := ⟨hevery.trans hp.every, by rw [hnext, hat]; exact hp.next_le, by rw [hat, hkeys]; exact hp.rekeyAt_le⟩

theorem Advances.trans {out : Option Packet} (h₁ : Advances c root e e₁ none) (h₂ : Advances c root e₁ e' out) :
    Advances c root e e' out where
  cid := h₂.cid.trans h₁.cid
  sending := h₂.sending.trans h₁.sending
  coherent := h₂.coherent
  epoch := Nat.le_trans h₁.epoch h₂.epoch
  next := by rw [h₂.next, h₁.next]; rfl
  packet p hp := by
    obtain ⟨hsealed, hcid, hnumber, hepoch⟩ := h₂.packet p hp
    exact ⟨h₁.sending ▸ hsealed, hcid.trans h₁.cid, hnumber.trans h₁.next, hepoch⟩
  paced := h₂.paced ∘ h₁.paced

theorem Advances.trans_eq {out : Option Packet} (h : Advances c root e e₁ out) (hcid : e'.cid = e₁.cid)
    (hkeys : e'.keys = e₁.keys) (hnext : e'.next = e₁.next) (hevery : e'.rekeyEvery = e₁.rekeyEvery)
    (hat : e'.rekeyAt = e₁.rekeyAt) : Advances c root e e' out where
  cid := hcid.trans h.cid
  sending := by rw [hkeys, h.sending]
  coherent := hkeys ▸ h.coherent
  epoch := by rw [hkeys]; exact h.epoch
  next := hnext.trans h.next
  packet := by rw [hkeys]; exact h.packet
  paced := (advances_of_eq h.coherent hcid hkeys hnext hevery hat).paced ∘ h.paced

/-! ### Sealing -/

theorem advances_rotate (h : e.keys.Coherent c root) : Advances c root e (e.rotate c).1 none ∧
    SameReading e (e.rotate c).1 := by
  unfold rotate
  cases hrotate : e.keys.rotate c with
  | none => exact ⟨advances_of_eq h rfl rfl rfl rfl rfl, .refl e⟩
  | some keys =>
    obtain ⟨hcoh, hepoch, hsending, hrecv, hprevious⟩ := h.rotate hrotate
    refine ⟨⟨rfl, hsending, hcoh, Fin.le_def.mpr (by dsimp only; omega), rfl, nofun, fun hp => ?_⟩, rfl, hrecv, hprevious⟩
    refine ⟨hp.every, hp.next_le, hp.rekeyAt_le.trans ?_⟩
    rw [hepoch]
    exact Nat.mul_le_mul_right _ (by omega)

theorem rekey_spec (h : e.keys.Coherent c root) (hr : e.rekey c = some e₁) :
    Advances c root e e₁ none ∧ SameReading e e₁ ∧ (e.Paced → e₁.next < e₁.rekeyAt) := by
  unfold rekey at hr
  split_ifs at hr with hspent
  · obtain ⟨keys, hrotate, rfl⟩ := Option.map_eq_some_iff.mp hr
    obtain ⟨hcoh, hepoch, hsending, hrecv, hprevious⟩ := h.rotate hrotate
    have hat : e.Paced → e.next + e.rekeyEvery ≤ (keys.send.epoch.val + 1) * rekeyAfter := fun hp => by
      have hle := hp.next_le.trans hp.rekeyAt_le
      rw [hp.every, hepoch, Nat.add_mul (_ + 1), Nat.one_mul]
      exact Nat.add_le_add_right hle _
    have hmin : e.Paced → min (e.next + e.rekeyEvery) u64Max = e.next + e.rekeyEvery := fun hp => by
      have := hat hp
      unfold rekeyAfter at this
      unfold u64Max
      omega
    refine ⟨⟨rfl, hsending, hcoh, Fin.le_def.mpr (by dsimp only; omega), rfl, nofun, fun hp => ⟨hp.every, ?_, ?_⟩⟩,
      ⟨rfl, hrecv, hprevious⟩, fun hp => ?_⟩
    · change e.next ≤ min _ _
      rw [hmin hp]
      exact Nat.le_add_right _ _
    · change min _ _ ≤ _
      rw [hmin hp]
      exact hat hp
    · change e.next < min _ _
      rw [hmin hp, hp.every]
      exact Nat.lt_add_of_pos_right (by decide)
  · cases hr
    exact ⟨advances_of_eq h rfl rfl rfl rfl rfl, .refl e, fun _ => by omega⟩

/-- A datagram goes out under the next number, or nothing does. -/
theorem seal_spec (h : e.keys.Coherent c root) {result : Except SendError (List UInt8)}
    (hs : e.seal_ c t kind body dest now = some (e', result)) : SameReading e e' ∧ ∃ out : Option Packet,
      Advances c root e e' out ∧ result.toOption = out.map Packet.datagram ∧
      ∀ p ∈ out, p.header.kind = kind ∧ p.body = body := by
  cases seals hs with
  | refused => exact ⟨.refl e, none, advances_of_eq h rfl rfl rfl rfl rfl, rfl, nofun⟩
  | blocked hdrafts =>
    obtain ⟨hadv, hsame, -⟩ := rekey_spec h hdrafts.rekey
    exact ⟨hsame, none, hadv, rfl, nofun⟩
  | @sealed e₁ datagram hdrafts =>
    obtain ⟨hadv, hsame, hpaced⟩ := rekey_spec h hdrafts.rekey
    obtain ⟨head, hhead, hdatagram⟩ := hdrafts.sealed
    refine ⟨hsame.trans ⟨rfl, rfl, rfl⟩, some ⟨⟨kind, e₁.cid, e₁.keys.send.epoch, e₁.next⟩, body, datagram⟩, ?_, rfl, ?_⟩
    · refine ⟨hadv.cid, hadv.sending, hadv.coherent, hadv.epoch, congrArg (· + 1) hadv.next, ?_, fun hp => ?_⟩
      · rintro p ⟨⟩
        refine ⟨⟨head, _, _, hhead, ?_, hdatagram⟩, hadv.cid, hadv.next, rfl⟩
        rw [← hadv.sending, hadv.coherent.sendKey]
      · exact ⟨(hadv.paced hp).every, hpaced hp, (hadv.paced hp).rekeyAt_le⟩
    · rintro p ⟨⟩
      exact ⟨rfl, rfl⟩

theorem toOption_map {α β ε : Type*} (f : α → β) (result : Except ε α) : (result.map f).toOption = result.toOption.map f := by
  cases result <;> rfl

variable {result : Except SendError (Addr × List UInt8)} {frame : List UInt8}

theorem send_attempt
    (hs : e.send c t frame now = some (e', result)) : e' = e ∧ result.toOption = none ∨
      e.attempt c t .frame frame (t.current e.transport) now = some (e', result.toOption) := by
  unfold send at hs
  split at hs
  · cases hs
    exact .inl ⟨rfl, rfl⟩
  split at hs
  · cases hs
    exact .inl ⟨rfl, rfl⟩
  · obtain ⟨⟨e₁, sealed⟩, hseal, heq⟩ := Option.map_eq_some_iff.mp hs
    cases heq
    rw [toOption_map]
    exact .inr (Option.map_eq_some_iff.mpr ⟨_, hseal, rfl⟩)

theorem close_attempt (hs : e.close c t now = some (e', result)) :
    ∃ e₁, e.attempt c t .close [] (t.current e.transport) now = some (e₁, result.toOption) ∧ e' = { e₁ with closed := true } := by
  obtain ⟨⟨e₁, sealed⟩, hseal, heq⟩ := Option.map_eq_some_iff.mp hs
  cases heq
  rw [toOption_map]
  exact ⟨e₁, Option.map_eq_some_iff.mpr ⟨_, hseal, rfl⟩, rfl⟩

theorem attempt_spec {sent : Option (Addr × List UInt8)} (hs : e.attempt c t kind body dest now = some (e', sent))
    (h : e.keys.Coherent c root) : SameReading e e' ∧ ∃ out : Option Packet, Advances c root e e' out ∧
      sent.map Prod.snd = out.map Packet.datagram ∧ ∀ p ∈ out, p.header.kind = kind ∧ p.body = body := by
  obtain ⟨⟨e₁, result⟩, hseal, heq⟩ := Option.map_eq_some_iff.mp hs
  cases heq
  obtain ⟨hsame, out, hadv, hresult, hout⟩ := seal_spec h hseal
  refine ⟨hsame, out, hadv, ?_, hout⟩
  rw [Option.map_map, ← hresult]
  exact Option.map_id'

theorem send_spec
    (hs : e.send c t frame now = some (e', result)) (h : e.keys.Coherent c root) : SameReading e e' ∧ ∃ out : Option Packet,
      Advances c root e e' out ∧ result.toOption.map Prod.snd = out.map Packet.datagram ∧
      ∀ p ∈ out, p.header.kind = .frame ∧ p.body = frame := by
  obtain ⟨rfl, hnone⟩ | hattempt := send_attempt hs
  · rw [hnone]
    exact ⟨.refl _, none, advances_of_eq h rfl rfl rfl rfl rfl, rfl, nofun⟩
  · exact attempt_spec hattempt h

theorem close_spec (hs : e.close c t now = some (e', result))
    (h : e.keys.Coherent c root) : SameReading e e' ∧ ∃ out : Option Packet,
      Advances c root e e' out ∧ result.toOption.map Prod.snd = out.map Packet.datagram ∧
      ∀ p ∈ out, p.header.kind ≠ .frame := by
  obtain ⟨e₁, hattempt, rfl⟩ := close_attempt hs
  obtain ⟨hsame, out, hadv, hsent, hout⟩ := attempt_spec hattempt h
  refine ⟨hsame.trans ⟨rfl, rfl, rfl⟩, out, hadv.trans_eq rfl rfl rfl rfl rfl, hsent, fun p hp => ?_⟩
  rw [(hout p hp).1]
  nofun

theorem seal_isSome (h : e.keys.Coherent c root) (hp : e.Paced) : (e.seal_ c t kind body dest now).isSome = true := by
  unfold seal_
  split
  · rfl
  split
  · rfl
  cases hrekey : e.rekey c with
  | none => rfl
  | some e₁ =>
    obtain ⟨hadv, -, hnext⟩ := rekey_spec h hrekey
    have hfits : e₁.next ≤ maxPacketNumber := by
      have hle := (hnext hp).trans_le (hadv.paced hp).rekeyAt_le
      unfold rekeyAfter at hle
      unfold maxPacketNumber
      omega
    rw [Option.isSome_map, Header.encode, if_pos hfits]
    rfl

theorem send_isSome (h : e.keys.Coherent c root) (hp : e.Paced) :
    (e.send c t frame now).isSome = true := by
  unfold send
  split
  · rfl
  split
  · rfl
  · dsimp only
    rw [Option.isSome_map]
    exact seal_isSome h hp

theorem close_isSome (h : e.keys.Coherent c root) (hp : e.Paced) : (e.close c t now).isSome = true := by
  unfold close
  rw [Option.isSome_map]
  exact seal_isSome h hp

theorem seal_exhausted (hp : e.Paced) (hnext : maxPacketNumber < e.next) (hclosed : e.closed = false)
    (hadmits : kind.tracked = true → t.admits e.transport = true) :
    e.seal_ c t kind body dest now = some (e, .error .exhausted) := by
  have hat := hp.rekeyAt_le
  have hle := hp.next_le
  have hlast : ¬ e.keys.send.epoch.val + 1 < 256 := by
    unfold rekeyAfter at hat
    unfold maxPacketNumber at hnext
    omega
  have hdue : e.rekeyAt ≤ e.next := by
    unfold rekeyAfter at hat
    unfold maxPacketNumber at hnext
    omega
  have hrekey : e.rekey c = none := by
    rw [rekey, if_pos hdue, KeySchedule.rotate, Ratchet.advance, Epoch.next, dif_neg hlast]
    rfl
  have hroom : ¬ (kind.tracked && !t.admits e.transport) = true := by
    simpa using hadmits
  rw [seal_, if_neg (by rw [hclosed]; exact Bool.false_ne_true), if_neg hroom, hrekey]

theorem send_exhausted (hp : e.Paced) (hnext : maxPacketNumber < e.next)
    (hsize : frame.length ≤ e.payloadLimit t) (hwritable : e.writable t now frame.length = true) :
    e.send c t frame now = some (e, .error .exhausted) := by
  have hroom := hwritable
  simp only [writable, admits, Bool.and_eq_true, Bool.not_eq_true'] at hroom
  have hseal := @seal_exhausted _ _ _ _ c t e .frame frame (t.current e.transport) now hp hnext hroom.1.1
    fun _ => hroom.1.2.1
  unfold send
  rw [if_neg (Nat.not_lt.mpr hsize), hwritable, Bool.not_true, if_neg Bool.false_ne_true]
  dsimp only
  rw [hseal]
  rfl

/-! ### Polling -/

/-- What a poll does: it emits at most one datagram, and no frame. -/
def Polls (c : Cipher Secret Key) (root : Secret) (e e' : Endpoint Secret Key τ Addr)
    (sent : Option (Addr × List UInt8)) : Prop :=
  SameReading e e' ∧ ∃ out : Option Packet, Advances c root e e' out ∧ sent.map Prod.snd = out.map Packet.datagram ∧
    ∀ p ∈ out, p.header.kind ≠ .frame

variable {sent : Option (Addr × List UInt8)}

theorem Polls.after (e₁ : Endpoint Secret Key τ Addr) (h : e.keys.Coherent c root) (hcid : e₁.cid = e.cid) (hkeys : e₁.keys = e.keys)
    (hnext : e₁.next = e.next) (hevery : e₁.rekeyEvery = e.rekeyEvery) (hat : e₁.rekeyAt = e.rekeyAt)
    (hwindow : e₁.window = e.window) (hpolls : Polls c root e₁ e' sent) : Polls c root e e' sent := by
  obtain ⟨hsame, out, hadv, hsent, hkind⟩ := hpolls
  exact ⟨SameReading.trans ⟨hwindow, by rw [hkeys], by rw [hkeys]⟩ hsame, out,
    (advances_of_eq h hcid hkeys hnext hevery hat).trans hadv, hsent, hkind⟩

theorem Polls.before (hpolls : Polls c root e e₁ sent) (hcid : e'.cid = e₁.cid) (hkeys : e'.keys = e₁.keys)
    (hnext : e'.next = e₁.next) (hevery : e'.rekeyEvery = e₁.rekeyEvery) (hat : e'.rekeyAt = e₁.rekeyAt)
    (hwindow : e'.window = e₁.window) : Polls c root e e' sent := by
  obtain ⟨hsame, out, hadv, hsent, hkind⟩ := hpolls
  exact ⟨hsame.trans ⟨hwindow, by rw [hkeys], by rw [hkeys]⟩, out, hadv.trans_eq hcid hkeys hnext hevery hat, hsent, hkind⟩

theorem polls_nothing (h : e.keys.Coherent c root) : Polls c root e e none :=
  ⟨.refl e, none, advances_of_eq h rfl rfl rfl rfl rfl, rfl, nofun⟩

theorem Polls.trans (h₁ : Polls c root e e₁ none) (h₂ : Polls c root e₁ e' sent) : Polls c root e e' sent := by
  obtain ⟨hsame₁, out₁, hadv₁, hsent₁, -⟩ := h₁
  obtain ⟨hsame₂, out, hadv₂, hsent, hkind⟩ := h₂
  obtain rfl := Option.map_eq_none_iff.mp hsent₁.symm
  exact ⟨hsame₁.trans hsame₂, out, hadv₁.trans hadv₂, hsent, hkind⟩

theorem Polls.coherent (h : Polls c root e e' sent) : e'.keys.Coherent c root := by
  obtain ⟨-, out, hadv, -⟩ := h
  exact hadv.coherent

theorem Polls.paced (h : Polls c root e e' sent) (hp : e.Paced) : e'.Paced := by
  obtain ⟨-, out, hadv, -⟩ := h
  exact hadv.paced hp

theorem polls_attempt (hs : e.attempt c t kind body dest now = some (e', sent)) (h : e.keys.Coherent c root)
    (hkind : kind ≠ .frame) : Polls c root e e' sent := by
  obtain ⟨hsame, out, hadv, hsent, hout⟩ := attempt_spec hs h
  exact ⟨hsame, out, hadv, hsent, fun p hp => (hout p hp).1 ▸ hkind⟩

theorem attempt_isSome (h : e.keys.Coherent c root) (hp : e.Paced) :
    (e.attempt c t kind body dest now).isSome = true := by
  rw [attempt, Option.isSome_map]
  exact seal_isSome h hp

theorem Timed.polls (h : Timed e e') (hcoh : e.keys.Coherent c root) : Polls c root e e' none :=
  (polls_nothing hcoh).before h.cid h.keys h.next h.rekeyEvery h.rekeyAt h.window

/-- Every piece of a poll is one. -/
theorem Polled.polls (h : Polled c t now e e' sent) (hcoh : e.keys.Coherent c root) : Polls c root e e' sent := by
  induction h with
  | timed hidle => exact hidle.polls hcoh
  | expired | unchallenged | starved | searched => exact (polls_nothing hcoh).before rfl rfl rfl rfl rfl rfl
  | @answered e _ _ _ _ _ hattempt => exact .after { e with answer := none } hcoh rfl rfl rfl rfl rfl rfl (polls_attempt hattempt hcoh nofun)
  | acknowledged hattempt | unprobed hattempt | kept hattempt => exact polls_attempt hattempt hcoh nofun
  | @challenged e _ _ _ _ _ hattempt =>
    exact .after { e with transport := (t.pollChallenge e.transport now).1 } hcoh rfl rfl rfl rfl rfl rfl
      (polls_attempt hattempt hcoh nofun)
  | @probed e _ _ _ _ hattempt =>
    have hpolls := polls_attempt hattempt hcoh nofun
    exact .after { e with transport := (t.pollProbe e.transport now).1 } hcoh rfl rfl rfl rfl rfl rfl
      (hpolls.before rfl rfl rfl rfl rfl rfl)
  | before _ _ ih₁ ih₂ =>
    have hfirst := ih₁ hcoh
    exact hfirst.trans (ih₂ hfirst.coherent)
  | after _ hidle ih => exact (ih hcoh).before hidle.cid hidle.keys hidle.next hidle.rekeyEvery hidle.rekeyAt hidle.window

section

variable (h : e.keys.Coherent c root) (hp : e.Paced)

include h hp

theorem sendAnswer_isSome : (e.sendAnswer c t now).isSome = true := by
  unfold sendAnswer
  split
  · rfl
  · exact attempt_isSome h { hp with }

theorem acknowledge_isSome (htop : e.window.top ≤ maxPacketNumber) :
    (e.acknowledge c t now).isSome = true := by
  unfold acknowledge
  split
  · rfl
  · split_ifs
    · rfl
    · split
      · rfl
      · rename_i largest map hack
        have hlargest : largest ≤ maxPacketNumber := by
          unfold ReplayWindow.acknowledgement at hack
          split_ifs at hack
          cases hack
          exact htop
        rw [Ack.encode, if_pos hlargest, Option.bind_some, Option.isSome_map]
        exact attempt_isSome h hp

theorem probePathMtu_isSome : (e.probePathMtu c t now).isSome = true := by
  unfold probePathMtu
  dsimp only
  split
  · rfl
  · split_ifs
    · rfl
    · rw [Option.isSome_map]
      exact attempt_isSome h { hp with }

theorem keepalive_isSome : (e.keepalive c t now).isSome = true := by
  unfold keepalive
  dsimp only
  split_ifs
  · rfl
  · rfl
  · rfl
  · rw [Option.isSome_map]
    exact attempt_isSome h { hp with }

end

theorem bind_isSome {first : Option (Endpoint Secret Key τ Addr × Option (Addr × List UInt8))}
    {rest : Endpoint Secret Key τ Addr → Option (Endpoint Secret Key τ Addr × Option (Addr × List UInt8))}
    (hfirst : first.isSome = true) (hrest : ∀ e₁, first = some (e₁, none) → (rest e₁).isSome = true) :
    (first.bind fun
      | (e, some sent) => some (e, some sent)
      | (e, none) => rest e).isSome = true := by
  obtain ⟨⟨e₁, sent₁⟩, hsome⟩ := Option.isSome_iff_exists.mp hfirst
  rw [hsome, Option.bind_some]
  cases sent₁ with
  | none => exact hrest e₁ hsome
  | some sent₁ => rfl

theorem challengeOrRest_isSome (h : e.keys.Coherent c root) (hp : e.Paced) :
    (e.challengeOrRest c t now).isSome = true := by
  have hp' : Paced { e with transport := (t.pollChallenge e.transport now).1 } := { hp with }
  unfold challengeOrRest
  dsimp only
  split
  · split_ifs
    · rfl
    · exact attempt_isSome h hp'
  · refine bind_isSome (probePathMtu_isSome h hp') fun e₁ hfirst => ?_
    have hpolls := (polled_probePathMtu hfirst).polls h
    exact keepalive_isSome hpolls.coherent (hpolls.paced hp')

theorem pollTransmit_isSome (h : e.keys.Coherent c root) (hp : e.Paced) (htop : e.window.top ≤ maxPacketNumber) :
    (e.pollTransmit c t now).isSome = true := by
  have hp' : Paced { e with transport := t.expire e.transport now } := { hp with }
  refine bind_isSome (sendAnswer_isSome h hp') fun e₁ hfirst => ?_
  have hanswered := (polled_sendAnswer hfirst).polls h
  have htop₁ : e₁.window.top ≤ maxPacketNumber := by
    rw [hanswered.1.window]
    exact htop
  refine bind_isSome (acknowledge_isSome hanswered.coherent (hanswered.paced hp') htop₁) fun e₂ hsecond => ?_
  have hacked := (polled_acknowledge hsecond).polls hanswered.coherent
  exact challengeOrRest_isSome hacked.coherent (hacked.paced (hanswered.paced hp'))

end Endpoint

end Braid.Dgram
