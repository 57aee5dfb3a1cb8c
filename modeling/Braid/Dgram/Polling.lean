import Braid.Dgram.Endpoint

/-! What a poll of an endpoint is made of. It expires what is due and then speaks of one thing
at most: the answer owed, an acknowledgement, a challenge, a probe of the path's width, or that
it is alive. Whatever holds of these pieces, one after another, holds of a poll. -/

namespace Braid.Dgram

namespace Endpoint

variable {Secret Key τ Addr : Type*} {c : Cipher Secret Key} {t : Transport τ Addr} {now : ℕ}
  {e e' e₁ : Endpoint Secret Key τ Addr} {sent : Option (Addr × List UInt8)}

/-! ### Sealing -/

/-- The body sealed by an open endpoint, with the key renewed if that is due. -/
structure Drafts (c : Cipher Secret Key) (kind : Kind) (body : List UInt8) (e e₁ : Endpoint Secret Key τ Addr)
    (datagram : List UInt8) : Prop where
  opened : e.closed = false
  rekey : e.rekey c = some e₁
  sealed : ∃ head, Header.encode ⟨kind, e₁.cid, e₁.keys.send.epoch, e₁.next⟩ = some head ∧ datagram =
    head ++ (c.encrypt e₁.keys.sendKey head e₁.next body).1 ++ (c.encrypt e₁.keys.sendKey head e₁.next body).2

/-- The ways sealing ends. -/
inductive Seals (c : Cipher Secret Key) (t : Transport τ Addr) (kind : Kind) (body : List UInt8) (dest : Addr) (now : ℕ)
    (e : Endpoint Secret Key τ Addr) : Endpoint Secret Key τ Addr → Except SendError (List UInt8) → Prop where
  | refused {error : SendError} : e.closed = true ∨ (kind.tracked && !t.admits e.transport) = true ∨ e.rekey c = none →
      Seals c t kind body dest now e e (.error error)
  | blocked {e₁ : Endpoint Secret Key τ Addr} {datagram : List UInt8} : Drafts c kind body e e₁ datagram →
      t.maySend e₁.transport dest datagram.length = false → Seals c t kind body dest now e e₁ (.error .blocked)
  | sealed {e₁ : Endpoint Secret Key τ Addr} {datagram : List UInt8} : Drafts c kind body e e₁ datagram →
      (kind.tracked && !t.admits e.transport) = false → t.maySend e₁.transport dest datagram.length = true →
      Seals c t kind body dest now e
        { e₁ with
          next := e₁.next + 1
          sealedSincePoll := true
          transport :=
            if kind.tracked then t.sealed (t.spent e₁.transport dest datagram.length) e₁.next datagram.length now
            else t.spent e₁.transport dest datagram.length }
        (.ok datagram)

theorem seals {kind : Kind} {body : List UInt8} {dest : Addr} {result : Except SendError (List UInt8)}
    (h : e.seal_ c t kind body dest now = some (e', result)) : Seals c t kind body dest now e e' result := by
  unfold seal_ at h
  split at h
  · cases h
    exact .refused (.inl ‹_›)
  rename_i hopen
  split at h
  · cases h
    exact .refused (.inr (.inl ‹_›))
  rename_i hadmits
  split at h
  · cases h
    exact .refused (.inr (.inr ‹_›))
  · rename_i hrekey
    obtain ⟨head, hhead, h⟩ := Option.map_eq_some_iff.mp h
    have hdrafts : Drafts c kind body e _ _ := ⟨Bool.eq_false_iff.mpr hopen, hrekey, head, hhead, rfl⟩
    dsimp only at h
    split at h <;> rename_i hmay <;> rw [Bool.not_eq_true'] at hmay <;> cases h
    · exact .blocked hdrafts hmay
    · exact .sealed hdrafts (Bool.eq_false_iff.mpr hadmits) (Bool.not_eq_false _ ▸ hmay)

/-! ### The pieces of a poll -/

/-- The same endpoint but for the timers of its acknowledgement and its keep-alive. -/
structure Timed (e e' : Endpoint Secret Key τ Addr) : Prop where
  cid : e'.cid = e.cid
  keys : e'.keys = e.keys
  next : e'.next = e.next
  window : e'.window = e.window
  transport : e'.transport = e.transport
  answer : e'.answer = e.answer
  closed : e'.closed = e.closed
  rekeyEvery : e'.rekeyEvery = e.rekeyEvery
  rekeyAt : e'.rekeyAt = e.rekeyAt

theorem Timed.refl (e : Endpoint Secret Key τ Addr) : Timed e e := ⟨rfl, rfl, rfl, rfl, rfl, rfl, rfl, rfl, rfl⟩

/-- The pieces of a poll at one instant, with what is emitted. -/
inductive Polled (c : Cipher Secret Key) (t : Transport τ Addr) (now : ℕ) :
    Endpoint Secret Key τ Addr → Endpoint Secret Key τ Addr → Option (Addr × List UInt8) → Prop where
  | timed {e e' : Endpoint Secret Key τ Addr} : Timed e e' → Polled c t now e e' none
  | expired (e : Endpoint Secret Key τ Addr) : Polled c t now e { e with transport := t.expire e.transport now } none
  | answered {e e' : Endpoint Secret Key τ Addr} {dest : Addr} {token : List UInt8} {sent : Option (Addr × List UInt8)} :
      e.answer = some (dest, token) → { e with answer := none }.attempt c t .response token dest now = some (e', sent) →
      Polled c t now e e' sent
  | acknowledged {e e' : Endpoint Secret Key τ Addr} {body : List UInt8} {sent : Option (Addr × List UInt8)} :
      e.attempt c t .ack body (t.current e.transport) now = some (e', sent) → Polled c t now e e' sent
  | unchallenged {e : Endpoint Secret Key τ Addr} : (t.pollChallenge e.transport now).2 = none →
      Polled c t now e { e with transport := (t.pollChallenge e.transport now).1 } none
  /-- The challenge is counted, and the address has not earned it. -/
  | starved {e : Endpoint Secret Key τ Addr} {dest : Addr} {token : List UInt8} :
      (t.pollChallenge e.transport now).2 = some (dest, token) →
      t.maySend (t.pollChallenge e.transport now).1 dest (headerBytes + token.length + tagBytes) = false →
      Polled c t now e { e with transport := (t.pollChallenge e.transport now).1 } none
  | challenged {e e' : Endpoint Secret Key τ Addr} {dest : Addr} {token : List UInt8} {sent : Option (Addr × List UInt8)} :
      (t.pollChallenge e.transport now).2 = some (dest, token) →
      { e with transport := (t.pollChallenge e.transport now).1 }.attempt c t .challenge token dest now = some (e', sent) →
      Polled c t now e e' sent
  | searched (e : Endpoint Secret Key τ Addr) : Polled c t now e { e with transport := (t.pollProbe e.transport now).1 } none
  /-- The probe is of the size that is offered, and the search is told its number. -/
  | probed {e e₁ : Endpoint Secret Key τ Addr} {candidate : ℕ} {sent : Addr × List UInt8} :
      (t.pollProbe e.transport now).2 = some candidate →
      { e with transport := (t.pollProbe e.transport now).1 }.attempt c t .probe
        (List.replicate (candidate - headerBytes - tagBytes) 0) (t.current (t.pollProbe e.transport now).1) now =
          some (e₁, some sent) →
      Polled c t now e { e₁ with transport := t.probing e₁.transport e.next } (some sent)
  | unprobed {e e' : Endpoint Secret Key τ Addr} {body : List UInt8} {dest : Addr} :
      e.attempt c t .probe body dest now = some (e', none) → Polled c t now e e' none
  | kept {e e' : Endpoint Secret Key τ Addr} {sent : Option (Addr × List UInt8)} :
      e.attempt c t .alive [] (t.current e.transport) now = some (e', sent) → Polled c t now e e' sent
  | before {e e₁ e' : Endpoint Secret Key τ Addr} {sent : Option (Addr × List UInt8)} : Polled c t now e e₁ none →
      Polled c t now e₁ e' sent → Polled c t now e e' sent
  | after {e e₁ e' : Endpoint Secret Key τ Addr} {sent : Option (Addr × List UInt8)} : Polled c t now e e₁ sent →
      Timed e₁ e' → Polled c t now e e' sent

theorem polled_sendAnswer (h : e.sendAnswer c t now = some (e', sent)) : Polled c t now e e' sent := by
  unfold sendAnswer at h
  split at h
  · cases h
    exact .timed (.refl e)
  · rename_i hanswer
    exact .answered hanswer h

theorem polled_acknowledge (h : e.acknowledge c t now = some (e', sent)) : Polled c t now e e' sent := by
  unfold acknowledge at h
  split at h
  · cases h
    exact .timed (.refl e)
  split at h
  · cases h
    exact .timed (.refl e)
  split at h
  · cases h
    exact .timed (.refl e)
  · obtain ⟨body, -, h⟩ := Option.bind_eq_some_iff.mp h
    obtain ⟨⟨e₁, sent⟩, hattempt, heq⟩ := Option.map_eq_some_iff.mp h
    cases heq
    refine .after (.acknowledged hattempt) ?_
    split_ifs <;> exact ⟨rfl, rfl, rfl, rfl, rfl, rfl, rfl, rfl, rfl⟩

theorem polled_probePathMtu (h : e.probePathMtu c t now = some (e', sent)) : Polled c t now e e' sent := by
  unfold probePathMtu at h
  dsimp only at h
  split at h
  · cases h
    exact .searched e
  rename_i candidate hoffered
  split at h
  · cases h
    exact .searched e
  · obtain ⟨⟨e₁, sent⟩, hattempt, heq⟩ := Option.map_eq_some_iff.mp h
    cases heq
    cases sent with
    | none => exact .before (.searched e) (.unprobed hattempt)
    | some sent => exact .probed hoffered hattempt

theorem polled_keepalive (h : e.keepalive c t now = some (e', sent)) : Polled c t now e e' sent := by
  unfold keepalive at h
  dsimp only at h
  split_ifs at h
  · cases h
    exact .timed (.refl e)
  · cases h
    exact .timed ⟨rfl, rfl, rfl, rfl, rfl, rfl, rfl, rfl, rfl⟩
  · cases h
    exact .timed ⟨rfl, rfl, rfl, rfl, rfl, rfl, rfl, rfl, rfl⟩
  · obtain ⟨⟨e₁, sent⟩, hattempt, heq⟩ := Option.map_eq_some_iff.mp h
    cases heq
    have hsince : Timed e { e with quietSince := some (e.quietSince.getD now) } :=
      ⟨rfl, rfl, rfl, rfl, rfl, rfl, rfl, rfl, rfl⟩
    refine .before (.timed hsince) (.after (.kept hattempt) ?_)
    split_ifs <;> exact ⟨rfl, rfl, rfl, rfl, rfl, rfl, rfl, rfl, rfl⟩

/-- One piece, and if it had nothing to say the next. -/
theorem polled_bind {first : Option (Endpoint Secret Key τ Addr × Option (Addr × List UInt8))}
    {rest : Endpoint Secret Key τ Addr → Option (Endpoint Secret Key τ Addr × Option (Addr × List UInt8))}
    (hfirst : ∀ e₁ sent₁, first = some (e₁, sent₁) → Polled c t now e e₁ sent₁)
    (hrest : ∀ e₁ e₂ sent₂, rest e₁ = some (e₂, sent₂) → Polled c t now e₁ e₂ sent₂)
    (h : (first.bind fun
      | (e, some sent) => some (e, some sent)
      | (e, none) => rest e) = some (e', sent)) : Polled c t now e e' sent := by
  obtain ⟨⟨e₁, sent₁⟩, hsome, h⟩ := Option.bind_eq_some_iff.mp h
  have hpolled := hfirst e₁ sent₁ hsome
  cases sent₁ with
  | none => exact .before hpolled (hrest e₁ e' sent h)
  | some sent₁ =>
    cases h
    exact hpolled

theorem polled_challengeOrRest (h : e.challengeOrRest c t now = some (e', sent)) : Polled c t now e e' sent := by
  unfold challengeOrRest at h
  dsimp only at h
  split at h
  · rename_i dest token hchallenge
    split_ifs at h with hmay
    · cases h
      exact .starved hchallenge (by simpa using hmay)
    · exact .challenged hchallenge h
  · rename_i hnone
    exact .before (.unchallenged hnone)
      (polled_bind (fun _ _ hfirst => polled_probePathMtu hfirst) (fun _ _ _ hrest => polled_keepalive hrest) h)

theorem polled_pollTransmit (h : e.pollTransmit c t now = some (e', sent)) : Polled c t now e e' sent :=
  .before (.expired e) <| polled_bind (fun _ _ hfirst => polled_sendAnswer hfirst)
    (fun _ _ _ hrest => polled_bind (fun _ _ hfirst => polled_acknowledge hfirst)
      (fun _ _ _ hrest => polled_challengeOrRest hrest) hrest) h

/-! ### What a piece that says nothing leaves -/

/-- What the timers are read from. -/
def timers (e : Endpoint Secret Key τ Addr) : τ × AckDebt × Bool × Direction × Option ℕ × Bool :=
  (e.transport, e.debt, e.closed, e.role, e.quietSince, e.sealedSincePoll)

theorem timers_attempt {kind : Kind} {body : List UInt8} {dest : Addr}
    (h : e.attempt c t kind body dest now = some (e', none)) : e'.timers = e.timers := by
  obtain ⟨⟨e₁, result⟩, hseal, heq⟩ := Option.map_eq_some_iff.mp h
  obtain ⟨rfl, hnone⟩ := Prod.mk.inj heq
  cases seals hseal with
  | refused => rfl
  | blocked hdrafts =>
    have hrekey := hdrafts.rekey
    unfold rekey at hrekey
    split_ifs at hrekey
    · obtain ⟨keys, -, rfl⟩ := Option.map_eq_some_iff.mp hrekey
      rfl
    · cases hrekey
      rfl
  | sealed => cases hnone

theorem timers_sendAnswer (h : e.sendAnswer c t now = some (e', none)) : e'.timers = e.timers := by
  unfold sendAnswer at h
  split at h
  · cases h
    rfl
  · have htimers := timers_attempt h
    exact htimers

theorem timers_acknowledge (h : e.acknowledge c t now = some (e', none)) : e'.timers = e.timers := by
  unfold acknowledge at h
  split at h
  · cases h
    rfl
  split at h
  · cases h
    rfl
  split at h
  · cases h
    rfl
  · obtain ⟨ack, -, h⟩ := Option.bind_eq_some_iff.mp h
    obtain ⟨⟨e₁, sent⟩, hattempt, heq⟩ := Option.map_eq_some_iff.mp h
    cases heq
    exact timers_attempt hattempt

theorem timers_probePathMtu (h : e.probePathMtu c t now = some (e', none)) :
    e'.timers = { e with transport := (t.pollProbe e.transport now).1 }.timers := by
  unfold probePathMtu at h
  dsimp only at h
  split at h
  · cases h
    rfl
  split at h
  · cases h
    rfl
  · obtain ⟨⟨e₁, sent⟩, hattempt, heq⟩ := Option.map_eq_some_iff.mp h
    cases heq
    exact timers_attempt hattempt

end Endpoint

end Braid.Dgram
