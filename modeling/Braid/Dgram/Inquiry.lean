import Braid.Dgram.Amplification
import Braid.Dgram.Delivery

/-! The challenges of an endpoint, counted and emitted. A poll counts a challenge when the path
gives it out and emits it after that, if the address has earned the bytes, the endpoint is open
and a key is left to seal it with. A challenge that is not emitted then stays counted. -/

namespace Braid.Dgram

open Foundation

variable {Secret Key Addr : Type*} {c : Cipher Secret Key} {root : Secret}

/-- The challenges in what a side emitted, with the address they went to. -/
def challengesIn (c : Cipher Secret Key) (root : Secret) (sending : Direction) (out : Option (Addr × List UInt8)) :
    List (Addr × List UInt8) :=
  match out with
  | none => []
  | some (dest, datagram) => match c.openDatagram root sending datagram with
    | some (header, body) => if header.kind = .challenge then [(dest, body)] else []
    | none => []

def challengeBytes : ℕ := headerBytes + 8 + tagBytes

namespace PathValidator

variable [DecidableEq Addr] {p p' : PathValidator Addr} {s s' : Entropy}

def chances (p : PathValidator Addr) (dest : Addr) : ℕ := p.weigh Probe.sent dest

theorem chances_spent (p : PathValidator Addr) (dest : Addr) (size : ℕ) (at_ : Addr) :
    (p.spent dest size).chances at_ = p.chances at_ := by
  unfold chances weigh
  rw [unproven_spent]
  split_ifs
  · cases p.unproven at_ <;> rfl
  · rfl

theorem chances_arrived (p : PathValidator Addr) (src : Addr) (size now : ℕ) (at_ : Addr) :
    (p.arrived src size now).chances at_ ≤ p.chances at_ := by
  unfold chances weigh
  by_cases hat : at_ = src
  · subst hat
    have hheard := p.heard_arrived at_ size now
    generalize p.unproven at_ = before, (p.arrived at_ size now).unproven at_ = after at hheard ⊢
    cases hheard with
    | proven | proposed | renewed => exact Nat.zero_le _
    | earned probe => exact le_rfl
  · obtain hsame | hnone := p.unproven_arrived size now hat
    · rw [hsame]
    · rw [hnone]
      exact Nat.zero_le _

theorem chances_answered (p : PathValidator Addr) (src : Addr) (token : List UInt8) (at_ : Addr) :
    (p.answered src token).1.chances at_ ≤ p.chances at_ := by
  unfold chances answered
  split_ifs
  · rw [weigh_eq, weigh_eq]
    split_ifs
    · exact Nat.zero_le _
    · exact le_rfl
  · split
    · exact le_rfl
    · split_ifs
      · exact le_rfl
      · rw [weigh_eq]
        dsimp only [Standing.weigh, Option.map_none, Option.getD_none]
        rw [ite_self]
        exact Nat.zero_le _

/-- The poll that asks an address leaves what it may be sent. -/
theorem Asks.maySend {dest : Addr} {token : Token} (h : Asks p s p' s' (some (dest, token))) (hapart : p.Apart) (bytes : ℕ) :
    p'.maySend dest bytes = p.maySend dest bytes := by
  unfold PathValidator.maySend unproven
  cases h with
  | current hstanding hasks => simp [hstanding, hasks.credit]
  | candidate hpasses hcandidate hasks =>
    have hcurrent := hpasses.eases.apart hapart _ hcandidate
    cases hpasses with
    | proven | claimed => simp_all [Candidate.probe_modify, hasks.credit]

/-- Who is asked has one more counted, and nobody else has. -/
theorem Asks.chances {dest : Addr} {token : Token} (h : Asks p s p' s' (some (dest, token))) (hapart : p.Apart) (at_ : Addr) :
    p'.chances at_ = p.chances at_ + if at_ = dest then 1 else 0 := by
  unfold PathValidator.chances
  cases h with
  | current hstanding hasks =>
    rw [weigh_eq, weigh_eq, hstanding]
    dsimp only [Standing.weigh]
    rw [hasks.sent]
    split_ifs <;> rfl
  | candidate hpasses hcandidate hasks =>
    rw [← hpasses.weigh Probe.Asks.sent, weigh_eq, weigh_eq, hcandidate]
    dsimp only [Option.map_some, Option.getD_some]
    rw [Candidate.probe_modify, hasks.sent]
    have hcurrent := hpasses.eases.apart hapart _ hcandidate
    by_cases hat : at_ = dest
    · subst hat
      simp only [if_neg hcurrent, if_true]
      rfl
    · simp only [if_neg hat, if_neg (Ne.symm hat), Nat.add_zero]

theorem Asks.chances_le (h : Asks p s p' s' none) (at_ : Addr) : p'.chances at_ ≤ p.chances at_ := by
  unfold PathValidator.chances
  cases h with
  | alone hpasses => exact (hpasses.weigh Probe.Asks.sent at_).le
  | waits hpasses hcandidate hasks =>
    rw [← hpasses.weigh Probe.Asks.sent, weigh_eq, weigh_eq, hcandidate]
    dsimp only [Option.map_some, Option.getD_some]
    rw [Candidate.probe_modify, hasks.sent]
    exact le_rfl
  | dropped hpasses =>
    rw [← hpasses.weigh Probe.Asks.sent, weigh_eq, weigh_eq]
    split_ifs
    · exact le_rfl
    · exact Nat.zero_le _

end PathValidator

namespace Endpoint

variable [DecidableEq Addr] {e e' e₁ : Endpoint Secret Key (Carrier Addr) Addr} {kind : Kind} {body : List UInt8} {dest : Addr}
  {now : ℕ} {out : Option (Addr × List UInt8)}

def asking (e : Endpoint Secret Key (Carrier Addr) Addr) : PathValidator Addr × Entropy :=
  (e.transport.path, e.transport.entropy)

/-- Nobody is challenged, and credit is all that may be spent. -/
structure Quiet (c : Cipher Secret Key) (root : Secret) (sending : Direction) (a a' : PathValidator Addr × Entropy)
    (out : Option (Addr × List UInt8)) : Prop where
  said : challengesIn c root sending out = []
  entropy : a'.2 = a.2
  path : a'.1 = a.1 ∨ ∃ dest size, a'.1 = a.1.spent dest size

theorem quiet_refl (sending : Direction) (a : PathValidator Addr × Entropy) : Quiet c root sending a a none :=
  ⟨rfl, rfl, .inl rfl⟩

variable {result : Except SendError (List UInt8)}

theorem asking_seal
    (h : e.seal_ c (carriage Addr) kind body dest now = some (e', result)) :
    e'.asking = match result with
      | .ok datagram => (e.transport.path.spent dest datagram.length, e.transport.entropy)
      | .error _ => e.asking := by
  have hdeed := seal_deed h
  cases result with
  | error error =>
    have hsame : e'.transport = e.transport := congrArg Prod.snd hdeed
    dsimp only [asking]
    rw [hsame]
  | ok datagram =>
    obtain ⟨-, hpath⟩ := path_emit hdeed
    obtain ⟨-, -, hstanding⟩ := Transport.of_emit hdeed
    have htransport : e'.transport = _ := congrArg Prod.snd hstanding
    refine Prod.ext hpath ?_
    dsimp only [asking]
    rw [htransport]
    split_ifs
    · exact (Carrier.absorb_entropy _ now).trans rfl
    · rfl

theorem challengesIn_seal {datagram : List UInt8} (hc : c.Lawful) (hcoh : e.keys.Coherent c root)
    (h : e.seal_ c (carriage Addr) kind body dest now = some (e', .ok datagram)) :
    challengesIn c root e.keys.sending (some (dest, datagram)) = if kind = .challenge then [(dest, body)] else [] := by
  obtain ⟨-, sealed, hadv, hout, hbody⟩ := seal_spec hcoh h
  obtain ⟨q, hq, rfl⟩ := Option.map_eq_some_iff.mp hout.symm
  obtain ⟨hsealed, -⟩ := hadv.packet q hq
  obtain ⟨rfl, rfl⟩ := hbody q hq
  rw [challengesIn, hsealed.openDatagram hc]

theorem quiet_seal (hc : c.Lawful) (hcoh : e.keys.Coherent c root)
    (h : e.seal_ c (carriage Addr) kind body dest now = some (e', result)) (hkind : kind ≠ .challenge) :
    Quiet c root e.keys.sending e.asking e'.asking (result.toOption.map fun datagram => (dest, datagram)) := by
  have hasking := asking_seal h
  cases result with
  | error error =>
    rw [hasking]
    exact quiet_refl _ _
  | ok datagram =>
    rw [hasking]
    refine ⟨?_, rfl, .inr ⟨dest, datagram.length, rfl⟩⟩
    exact (challengesIn_seal hc hcoh h).trans (if_neg hkind)

theorem quiet_attempt (hc : c.Lawful) (hcoh : e.keys.Coherent c root)
    (h : e.attempt c (carriage Addr) kind body dest now = some (e', out)) (hkind : kind ≠ .challenge) :
    Quiet c root e.keys.sending e.asking e'.asking out := by
  obtain ⟨⟨e₁, result⟩, hseal, heq⟩ := Option.map_eq_some_iff.mp h
  cases heq
  exact quiet_seal hc hcoh hseal hkind

/-- An untracked datagram of this size can be emitted: the endpoint is open, has a key to seal it with, and the address
may be sent it. -/
def Clear (c : Cipher Secret Key) (e : Endpoint Secret Key (Carrier Addr) Addr) (dest : Addr) (bytes : ℕ) : Prop :=
  e.closed = false ∧ (e.rekey c).isSome = true ∧ e.transport.path.maySend dest bytes = true

instance (e : Endpoint Secret Key (Carrier Addr) Addr) (bytes : ℕ) : Decidable (e.Clear c dest bytes) :=
  inferInstanceAs (Decidable (_ ∧ _ ∧ _))

theorem Drafts.clear {datagram : List UInt8} (h : Drafts c kind body e e₁ datagram) (hk : c.KeepsLength) (dest : Addr) :
    e.Clear c dest (headerBytes + body.length + tagBytes) ↔
      (carriage Addr).maySend e₁.transport dest datagram.length = true := by
  obtain ⟨head, hhead, rfl⟩ := h.sealed
  have htransport : e₁.transport = e.transport := congrArg Prod.snd (rekey_standing h.rekey).1
  rw [Clear, h.opened, h.rekey, htransport, List.length_append, List.length_append, Header.length_encode hhead, hk.payload,
    hk.tag]
  simp [carriage]

theorem clear_iff (hk : c.KeepsLength) (hkind : kind.tracked = false)
    (h : e.attempt c (carriage Addr) kind body dest now = some (e', out)) :
    out.isSome = true ↔ e.Clear c dest (headerBytes + body.length + tagBytes) := by
  obtain ⟨⟨e₁, result⟩, hseal, heq⟩ := Option.map_eq_some_iff.mp h
  cases heq
  cases seals hseal with
  | refused hrefused =>
    rw [hkind] at hrefused
    obtain hclosed | hnever | hnone := hrefused
    · simp [Clear, hclosed, Except.toOption]
    · cases hnever
    · simp [Clear, hnone, Except.toOption]
  | blocked hdrafts hmay => simp [hdrafts.clear hk, hmay, Except.toOption]
  | sealed hdrafts _ hmay => simp [hdrafts.clear hk, hmay, Except.toOption]

/-! ### A poll -/

/-- A piece that says nothing leaves what the next one rests on. -/
structure Blocked (c : Cipher Secret Key) (root : Secret) (e e₁ : Endpoint Secret Key (Carrier Addr) Addr) : Prop where
  asking : e₁.asking = e.asking
  closed : e₁.closed = e.closed
  sending : e₁.keys.sending = e.keys.sending
  coherent : e₁.keys.Coherent c root
  rekey : (e₁.rekey c).isSome = (e.rekey c).isSome
  every : e₁.rekeyEvery = e.rekeyEvery

omit [DecidableEq Addr] in
theorem blocked_refl (h : e.keys.Coherent c root) : Blocked c root e e := ⟨rfl, rfl, rfl, h, rfl, rfl⟩

omit [DecidableEq Addr] in
theorem Blocked.trans {e₂ : Endpoint Secret Key (Carrier Addr) Addr} (h₁ : Blocked c root e e₁) (h₂ : Blocked c root e₁ e₂) :
    Blocked c root e e₂ :=
  ⟨h₂.asking.trans h₁.asking, h₂.closed.trans h₁.closed, h₂.sending.trans h₁.sending, h₂.coherent, h₂.rekey.trans h₁.rekey,
    h₂.every.trans h₁.every⟩

omit [DecidableEq Addr] in
/-- A key that was rotated for a datagram that is then blocked is there for the next. -/
theorem rekey_rekey (hevery : 0 < e.rekeyEvery) (hnext : e.next < u64Max) (h : e.rekey c = some e₁) : e₁.rekey c = some e₁ := by
  unfold rekey at h
  split_ifs at h with hdue
  · obtain ⟨keys, -, rfl⟩ := Option.map_eq_some_iff.mp h
    refine if_neg (Nat.not_le.mpr ?_)
    exact lt_min (Nat.lt_add_of_pos_right hevery) hnext
  · cases h
    exact if_neg hdue

theorem blocked_attempt (hcoh : e.keys.Coherent c root) (hevery : 0 < e.rekeyEvery)
    (h : e.attempt c (carriage Addr) kind body dest now = some (e₁, none)) : Blocked c root e e₁ := by
  obtain ⟨⟨e₂, result⟩, hseal, heq⟩ := Option.map_eq_some_iff.mp h
  obtain ⟨rfl, hnone⟩ := Prod.mk.inj heq
  have hasking := asking_seal hseal
  obtain ⟨-, sealed, hadv, -⟩ := seal_spec hcoh hseal
  cases seals hseal with
  | sealed => cases hnone
  | refused => exact blocked_refl hcoh
  | blocked hdrafts =>
    obtain ⟨head, hhead, -⟩ := hdrafts.sealed
    obtain ⟨hstanding, hclosed, hsame⟩ := rekey_standing hdrafts.rekey
    have hnumber := (Header.encode_some hhead).1
    have hmax : maxPacketNumber < u64Max := by decide
    have hnext := congrArg Prod.fst hstanding
    refine ⟨hasking, hclosed, hadv.sending, hadv.coherent, ?_, hsame⟩
    rw [rekey_rekey hevery (hnext.ge.trans_lt (hnumber.trans_lt hmax)) hdrafts.rekey, hdrafts.rekey]

omit [DecidableEq Addr] in
theorem blocked_of_eq (hcoh : e.keys.Coherent c root) (hasking : e₁.asking = e.asking) (hclosed : e₁.closed = e.closed)
    (hkeys : e₁.keys = e.keys) (hnext : e₁.next = e.next) (hat : e₁.rekeyAt = e.rekeyAt)
    (hevery : e₁.rekeyEvery = e.rekeyEvery) : Blocked c root e e₁ := by
  refine ⟨hasking, hclosed, congrArg _ hkeys, hkeys ▸ hcoh, ?_, hevery⟩
  unfold rekey
  rw [hkeys, hnext, hat]
  split_ifs
  · rw [Option.isSome_map, Option.isSome_map]
  · rfl

theorem Blocked.clear (h : Blocked c root e e₁) (dest : Addr) (bytes : ℕ) : e₁.Clear c dest bytes ↔ e.Clear c dest bytes := by
  have hpath : e₁.transport.path = e.transport.path := congrArg Prod.fst h.asking
  rw [Clear, Clear, h.closed, h.rekey, hpath]

omit [DecidableEq Addr] in
theorem blocked_expire (hcoh : e.keys.Coherent c root) (now : ℕ) :
    Blocked c root e { e with transport := e.transport.expire now } := by
  refine blocked_of_eq hcoh (Prod.ext ?_ ?_) rfl rfl rfl rfl rfl
  · exact (Carrier.absorb_frame _ now).2.1
  · exact (Carrier.absorb_entropy _ now).trans rfl

/-- What one piece of a poll says is no challenge, and if it says nothing it leaves the next all it needs. -/
def Passing (c : Cipher Secret Key) (root : Secret) (e e₁ : Endpoint Secret Key (Carrier Addr) Addr)
    (sent : Option (Addr × List UInt8)) : Prop :=
  Quiet c root e.keys.sending e.asking e₁.asking sent ∧ (sent = none → Blocked c root e e₁)

theorem passing_attempt (hc : c.Lawful) (hcoh : e.keys.Coherent c root) (hevery : 0 < e.rekeyEvery)
    (h : e.attempt c (carriage Addr) kind body dest now = some (e₁, out)) (hkind : kind ≠ .challenge) : Passing c root e e₁ out :=
  ⟨quiet_attempt hc hcoh h hkind, fun hnone => blocked_attempt hcoh hevery (hnone ▸ h)⟩

theorem passing_refl (hcoh : e.keys.Coherent c root) : Passing c root e e none := ⟨quiet_refl _ _, fun _ => blocked_refl hcoh⟩

theorem Blocked.passing (h : Blocked c root e e₁) (h' : Passing c root e₁ e' out) : Passing c root e e' out := by
  obtain ⟨hquiet, hblocked⟩ := h'
  rw [h.asking, h.sending] at hquiet
  exact ⟨hquiet, fun hnone => h.trans (hblocked hnone)⟩

section

variable (hc : c.Lawful) (hcoh : e.keys.Coherent c root) (hevery : 0 < e.rekeyEvery)

include hc hcoh hevery

theorem sendAnswer_spec (hk : c.KeepsLength) (h : e.sendAnswer c (carriage Addr) now = some (e₁, out)) :
    Passing c root e e₁ out ∧
      (out.isSome = true ↔ ∃ owed ∈ e.answer, e.Clear c owed.1 (headerBytes + owed.2.length + tagBytes)) := by
  unfold sendAnswer at h
  split at h
  · rename_i hnone
    cases h
    exact ⟨passing_refl hcoh, by simp [hnone]⟩
  · rename_i hanswer
    have htaken : Blocked c root e { e with answer := none } := blocked_of_eq hcoh rfl rfl rfl rfl rfl rfl
    rw [clear_iff hk rfl h, htaken.clear, hanswer]
    exact ⟨htaken.passing (passing_attempt hc htaken.coherent hevery h nofun), by simp⟩

theorem acknowledge_spec (hk : c.KeepsLength) (h : e.acknowledge c (carriage Addr) now = some (e₁, out)) :
    Passing c root e e₁ out ∧ (out.isSome = true ↔ (∃ due ∈ e.owedDeadline, due ≤ now) ∧
      e.window.acknowledgement.isSome = true ∧ e.Clear c e.transport.path.current (headerBytes + Ack.bodyBytes + tagBytes)) := by
  unfold acknowledge at h
  unfold owedDeadline
  split at h
  · cases h
    exact ⟨passing_refl hcoh, by simp [*]⟩
  split at h
  · cases h
    exact ⟨passing_refl hcoh, by simp [*]⟩
  rename_i hdue
  split at h
  · obtain ⟨rfl, rfl⟩ := Prod.mk.inj (Option.some.inj h)
    exact ⟨passing_refl hcoh, by simp [*]⟩
  · obtain ⟨body, hbody, h⟩ := Option.bind_eq_some_iff.mp h
    obtain ⟨⟨e₂, sent⟩, hattempt, heq⟩ := Option.map_eq_some_iff.mp h
    obtain ⟨rfl, rfl⟩ := Prod.mk.inj heq
    have hpassing := passing_attempt hc hcoh hevery hattempt nofun
    have hlength : body.length = Ack.bodyBytes := by
      unfold Ack.encode at hbody
      split_ifs at hbody
      cases hbody
      simp [length_beBytes, Ack.bodyBytes]
    refine ⟨?_, ?_⟩
    · cases sent with
      | none => exact hpassing
      | some sent => exact ⟨hpassing.1, nofun⟩
    · rw [clear_iff hk rfl hattempt, hlength]
      simp_all [carriage]

theorem passing_probePathMtu (h : e.probePathMtu c (carriage Addr) now = some (e₁, out)) : Passing c root e e₁ out := by
  have hsearched : Blocked c root e { e with transport := ((carriage Addr).pollProbe e.transport now).1 } :=
    blocked_of_eq hcoh rfl rfl rfl rfl rfl rfl
  unfold probePathMtu at h
  dsimp only at h
  split at h
  · cases h
    exact hsearched.passing (passing_refl hsearched.coherent)
  split at h
  · cases h
    exact hsearched.passing (passing_refl hsearched.coherent)
  · obtain ⟨⟨e₂, sent⟩, hattempt, heq⟩ := Option.map_eq_some_iff.mp h
    cases heq
    have hpassing := hsearched.passing (passing_attempt hc hsearched.coherent hevery hattempt nofun)
    cases sent with
    | none => exact hpassing
    | some sent => exact ⟨hpassing.1, nofun⟩

theorem passing_keepalive (h : e.keepalive c (carriage Addr) now = some (e₁, out)) : Passing c root e e₁ out := by
  unfold keepalive at h
  dsimp only at h
  split_ifs at h
  · cases h
    exact passing_refl hcoh
  · cases h
    exact ⟨quiet_refl _ _, fun _ => blocked_of_eq hcoh rfl rfl rfl rfl rfl rfl⟩
  · cases h
    exact ⟨quiet_refl _ _, fun _ => blocked_of_eq hcoh rfl rfl rfl rfl rfl rfl⟩
  · obtain ⟨⟨e₂, sent⟩, hattempt, heq⟩ := Option.map_eq_some_iff.mp h
    cases heq
    have hsince : Blocked c root e { e with quietSince := some (e.quietSince.getD now) } :=
      blocked_of_eq hcoh rfl rfl rfl rfl rfl rfl
    have hpassing := hsince.passing (passing_attempt hc hsince.coherent hevery hattempt nofun)
    cases sent with
    | none => exact hpassing
    | some sent => exact ⟨hpassing.1, nofun⟩

end

/-- An answer is owed, or an acknowledgement due, that can be emitted. -/
def Owes (c : Cipher Secret Key) (e : Endpoint Secret Key (Carrier Addr) Addr) (now : ℕ) : Prop :=
  (∃ owed ∈ e.answer, e.Clear c owed.1 (headerBytes + owed.2.length + tagBytes)) ∨
    (∃ due ∈ e.owedDeadline, due ≤ now) ∧ e.window.acknowledgement.isSome = true ∧
      e.Clear c e.transport.path.current (headerBytes + Ack.bodyBytes + tagBytes)

instance (e : Endpoint Secret Key (Carrier Addr) Addr) : Decidable (e.Owes c now) := inferInstanceAs (Decidable (_ ∨ _))

/-- A poll says what it owes first, and goes on to the challenges if it owes nothing. -/
theorem pollTransmit_owes (hc : c.Lawful) (hk : c.KeepsLength) (hcoh : e.keys.Coherent c root) (hevery : 0 < e.rekeyEvery)
    (h : e.pollTransmit c (carriage Addr) now = some (e', out)) :
    e.Owes c now ∧ Quiet c root e.keys.sending e.asking e'.asking out ∨
      ¬e.Owes c now ∧ ∃ e₁, Blocked c root e e₁ ∧ e₁.challengeOrRest c (carriage Addr) now = some (e', out) := by
  have hexpired := blocked_expire hcoh now
  obtain ⟨⟨e₁, sent⟩, hanswer, h⟩ := Option.bind_eq_some_iff.mp h
  obtain ⟨hpassing, hanswers⟩ := sendAnswer_spec hc hexpired.coherent hevery hk hanswer
  simp only [hexpired.clear] at hanswers
  have hpassing := hexpired.passing hpassing
  cases sent with
  | some sent =>
    cases h
    exact .inl ⟨.inl (hanswers.mp rfl), hpassing.1⟩
  | none =>
    have hblocked := hpassing.2 rfl
    obtain ⟨⟨e₂, sent⟩, hack, h⟩ := Option.bind_eq_some_iff.mp h
    obtain ⟨hpassing, hsaid⟩ := acknowledge_spec hc hblocked.coherent (hblocked.every ▸ hevery) hk hack
    have hpassing := hblocked.passing hpassing
    have howes : sent.isSome = true ↔ e.Owes c now := by
      have hpath : e₁.transport.path = e.transport.path := congrArg Prod.fst hblocked.asking
      have hwindow : e₁.window = e.window := ((polled_sendAnswer hanswer).polls hexpired.coherent).1.window
      have hdebt : e₁.debt = e.debt := congrArg (fun timers => timers.2.1) (timers_sendAnswer hanswer)
      have hdue : e₁.owedDeadline = e.owedDeadline := by rw [owedDeadline, owedDeadline, hdebt]
      rw [hsaid, Owes, or_iff_right fun howed => Bool.false_ne_true (hanswers.mpr howed), hdue, hwindow,
        hblocked.clear, hpath]
    cases sent with
    | some sent =>
      cases h
      exact .inl ⟨howes.mp rfl, hpassing.1⟩
    | none => exact .inr ⟨fun hnot => Bool.false_ne_true (howes.mpr hnot), e₂, hpassing.2 rfl, h⟩

/-- The ways a poll ends. -/
inductive Inquires (c : Cipher Secret Key) (root : Secret) (now : ℕ) (e e' : Endpoint Secret Key (Carrier Addr) Addr)
    (out : Option (Addr × List UInt8)) : Prop where
  | first : e.Owes c now → Quiet c root e.keys.sending e.asking e'.asking out →
      Inquires c root now e e' out
  | rest {p : PathValidator Addr} {s : Entropy} : e.asking.1.pollChallenge now e.asking.2 = (p, s, none) →
      Quiet c root e.keys.sending (p, s) e'.asking out → Inquires c root now e e' out
  | starved {p : PathValidator Addr} {s : Entropy} {dest : Addr} {token : Token} :
      ¬e.Owes c now → e.asking.1.pollChallenge now e.asking.2 = (p, s, some (dest, token)) →
      ¬e.Clear c dest challengeBytes → e'.asking = (p, s) → out = none → Inquires c root now e e' out
  | asked {p : PathValidator Addr} {s : Entropy} {dest : Addr} {token : Token} {size : ℕ} :
      e.asking.1.pollChallenge now e.asking.2 = (p, s, some (dest, token)) → e.Clear c dest challengeBytes →
      e'.asking = (p.spent dest size, s) → challengesIn c root e.keys.sending out = [(dest, token.bytes)] →
      Inquires c root now e e' out

/-- The same endpoint with its path there. -/
def turned (e : Endpoint Secret Key (Carrier Addr) Addr) (a : PathValidator Addr × Entropy) :
    Endpoint Secret Key (Carrier Addr) Addr :=
  { e with transport := { e.transport with path := a.1, entropy := a.2 } }

theorem inquires_pollTransmit (hc : c.Lawful) (hk : c.KeepsLength) (hcoh : e.keys.Coherent c root) (hevery : 0 < e.rekeyEvery)
    (hapart : e.transport.path.Apart) (h : e.pollTransmit c (carriage Addr) now = some (e', out)) :
    Inquires c root now e e' out := by
  obtain ⟨howes, hquiet⟩ | ⟨hnot, e₁, hblocked, h⟩ := pollTransmit_owes hc hk hcoh hevery h
  · exact .first howes hquiet
  have hpath : e₁.transport.path = e.transport.path := congrArg Prod.fst hblocked.asking
  have hentropy : e₁.transport.entropy = e.transport.entropy := congrArg Prod.snd hblocked.asking
  have hasks := e.transport.path.asks_pollChallenge now e.transport.entropy
  generalize hpolled : e.transport.path.pollChallenge now e.transport.entropy = polled at hasks
  obtain ⟨p, s, asked⟩ := polled
  have hturn : (carriage Addr).pollChallenge e₁.transport now =
      ((e₁.turned (p, s)).transport, asked.map fun asked => (asked.1, asked.2.bytes)) := by
    change Carrier.pollChallenge e₁.transport now = _
    rw [Carrier.pollChallenge, hpath, hentropy, hpolled]
    rfl
  unfold challengeOrRest at h
  rw [hturn] at h
  have hcoh₂ : (e₁.turned (p, s)).keys.Coherent c root := hblocked.coherent
  have hevery₂ : 0 < (e₁.turned (p, s)).rekeyEvery := hblocked.every.symm ▸ hevery
  cases asked with
  | none =>
    obtain ⟨⟨e₂, sent⟩, hprobe, h⟩ := Option.bind_eq_some_iff.mp h
    have hpassing := passing_probePathMtu hc hcoh₂ hevery₂ hprobe
    cases sent with
    | some sent =>
      cases h
      exact .rest hpolled (hblocked.sending ▸ hpassing.1)
    | none =>
      have hprobed := hpassing.2 rfl
      have hkept := hprobed.passing (passing_keepalive hc hprobed.coherent (hprobed.every ▸ hevery₂) h)
      exact .rest hpolled (hblocked.sending ▸ hkept.1)
  | some asked =>
    obtain ⟨dest, token⟩ := asked
    have hmay : p.maySend dest challengeBytes = e.transport.path.maySend dest challengeBytes := hasks.maySend hapart _
    have hbytes : headerBytes + token.bytes.length + tagBytes = challengeBytes := by
      rw [token.length_eq]
      rfl
    have hclear : (e₁.turned (p, s)).Clear c dest challengeBytes ↔ e.Clear c dest challengeBytes := by
      have hkey : ((e₁.turned (p, s)).rekey c).isSome = (e₁.rekey c).isSome := by
        unfold rekey turned
        split_ifs
        · rw [Option.isSome_map, Option.isSome_map]
        · rfl
      rw [Clear, Clear, hkey, hblocked.rekey, ← hblocked.closed, ← hmay]
      rfl
    change (if (!p.maySend dest (headerBytes + token.bytes.length + tagBytes)) = true then some (e₁.turned (p, s), none)
      else (e₁.turned (p, s)).attempt c (carriage Addr) .challenge token.bytes dest now) = some (e', out) at h
    rw [hbytes] at h
    split_ifs at h with hstarved
    · cases h
      refine .starved hnot hpolled (fun ⟨_, _, hallowed⟩ => ?_) rfl rfl
      rw [hmay, hallowed] at hstarved
      cases hstarved
    · have hsaid := clear_iff hk rfl h
      rw [hbytes, hclear] at hsaid
      obtain ⟨⟨e₃, result⟩, hseal, heq⟩ := Option.map_eq_some_iff.mp h
      cases heq
      have hsealed := asking_seal hseal
      cases result with
      | ok datagram => exact .asked hpolled (hsaid.mp rfl) hsealed (hblocked.sending ▸ challengesIn_seal hc hcoh₂ hseal)
      | error error => exact .starved hnot hpolled (fun hallowed => Bool.false_ne_true (hsaid.mpr hallowed)) hsealed rfl

/-! ### How often keys are renewed -/

section

variable {τ : Type*} {t : Transport τ Addr} {e e' : Endpoint Secret Key τ Addr} {a : Call Addr} {took : Option (Addr × ℕ)}

omit [DecidableEq Addr]

theorem every_seal (h : e.seal_ c t kind body dest now = some (e', result)) :
    e'.rekeyEvery = e.rekeyEvery := by
  cases seals h with
  | refused => rfl
  | blocked hdrafts | sealed hdrafts => exact (rekey_standing hdrafts.rekey).2.2

theorem every_attempt (h : e.attempt c t kind body dest now = some (e', out)) : e'.rekeyEvery = e.rekeyEvery := by
  obtain ⟨⟨e₁, result⟩, hseal, heq⟩ := Option.map_eq_some_iff.mp h
  obtain ⟨rfl, -⟩ := Prod.mk.inj heq
  exact every_seal hseal

theorem Polled.every (h : Polled c t now e e' out) : e'.rekeyEvery = e.rekeyEvery := by
  induction h with
  | timed h => exact h.rekeyEvery
  | expired | unchallenged | starved | searched => rfl
  | answered _ h | challenged _ h | probed _ h => exact (every_attempt h).trans rfl
  | acknowledged h | unprobed h | kept h => exact every_attempt h
  | before _ _ ih₁ ih₂ => exact ih₂.trans ih₁
  | after _ h ih => exact h.rekeyEvery.trans ih

theorem every_dispatch (src : Addr) : (e.dispatch c t src now kind body).1.rekeyEvery = e.rekeyEvery := by
  cases kind with
  | frame | alive | probe | close => rfl
  | challenge =>
    dsimp only [dispatch]
    split_ifs <;> rfl
  | response =>
    dsimp only [dispatch]
    split_ifs
    · split
      · rfl
      · rfl
      · unfold rotate
        split <;> rfl
    · rfl
  | ack =>
    dsimp only [dispatch]
    split <;> rfl

theorem every_admitted (src : Addr) (size : ℕ) (header : Header) :
    (e.admitted c t src now size header body).1.rekeyEvery = e.rekeyEvery := by
  unfold admitted
  dsimp only
  split_ifs
  · rfl
  · exact (every_dispatch src).trans rfl
  · exact (every_dispatch src).trans rfl

theorem every_call (hcoh : e.keys.Coherent c root) (h : e.call c t a = some (e', out, took)) (hevery : 0 < e.rekeyEvery) :
    0 < e'.rekeyEvery := by
  have hrecv : ∀ src now datagram, (e.recv c t src now datagram).1.rekeyEvery = e.rekeyEvery := fun src now datagram => by
    obtain ⟨header, body, keys, -, -, -, -, -, -, -, heq⟩ | ⟨error, ahead, -, -, heq⟩ := recv_cases (t := t) hcoh src now datagram
    · rw [heq]
      exact (every_admitted src _ header).trans rfl
    · rw [heq]
  cases called_call h with
  | refused hsame | narrowed hsame =>
    subst hsame
    exact hevery
  | sent hattempt => exact (every_attempt hattempt).symm ▸ hevery
  | closed hattempt hclosed =>
    subst hclosed
    exact (every_attempt hattempt).symm ▸ hevery
  | polled hpoll => exact (polled_pollTransmit hpoll).every.symm ▸ hevery
  | rotated hrotated =>
    subst hrotated
    unfold rotate
    split <;> exact hevery
  | @paced packets hpaced =>
    subst hpaced
    dsimp only [rekeyEveryPackets]
    split_ifs with hzero
    · exact Nat.one_pos
    · exact Nat.pos_of_ne_zero hzero
  | @taken src now datagram _ htaken =>
    have hevery' := hrecv src now datagram
    rw [htaken] at hevery'
    exact hevery'.symm ▸ hevery
  | @dropped src now datagram _ hdropped =>
    have hevery' := hrecv src now datagram
    rw [hdropped] at hevery'
    exact hevery'.symm ▸ hevery

end

/-! ### A call -/

variable {a : Call Addr} {took : Option (Addr × ℕ)} {cid : ConnectionId} {dialling listening : Side}

variable (c root) in
structure Fit (e : Endpoint Secret Key (Carrier Addr) Addr) : Prop where
  coherent : e.keys.Coherent c root
  apart : e.transport.path.Apart
  every : 0 < e.rekeyEvery

/-- What a call does with the path, and the challenge it says. -/
inductive Course (c : Cipher Secret Key) (root : Secret) (e e' : Endpoint Secret Key (Carrier Addr) Addr) :
    Call Addr → Option (Addr × List UInt8) → Option (Addr × ℕ) → Prop where
  | quiet {a : Call Addr} {out : Option (Addr × List UInt8)} : (∀ now, a ≠ .pollTransmit now) →
      Quiet c root e.keys.sending e.asking e'.asking out → Course c root e e' a out none
  | polled {now : ℕ} {out : Option (Addr × List UInt8)} : Inquires c root now e e' out →
      Course c root e e' (.pollTransmit now) out none
  | heard {src : Addr} {now : ℕ} {datagram body : List UInt8} {header : Header} :
      c.openDatagram root e.keys.sending.opposite datagram = some (header, body) →
      e'.transport.entropy = e.transport.entropy → (e'.transport.path = e.transport.path.arrived src datagram.length now ∨
        header.kind = .response ∧
          e'.transport.path = ((e.transport.path.arrived src datagram.length now).answered src body).1) →
      Course c root e e' (.recv src now datagram) none (some (src, datagram.length))

theorem course_call (hc : c.Lawful) (hk : c.KeepsLength) (hfit : e.Fit c root)
    (h : e.call c (carriage Addr) a = some (e', out, took)) : Course c root e e' a out took := by
  have hsame : e'.standing = e.standing → Quiet c root e.keys.sending e.asking e'.asking none := fun hstanding => by
    have htransport : e'.transport = e.transport := congrArg Prod.snd hstanding
    dsimp only [asking]
    rw [htransport]
    exact quiet_refl _ _
  cases called_call h with
  | refused hrefused => exact .quiet nofun (hsame (congrArg standing hrefused))
  | sent hattempt => exact .quiet nofun (quiet_attempt hc hfit.coherent hattempt nofun)
  | closed hattempt hclosed =>
    subst hclosed
    have hquiet := quiet_attempt hc hfit.coherent hattempt nofun
    exact .quiet nofun hquiet
  | polled hpoll => exact .polled (inquires_pollTransmit hc hk hfit.coherent hfit.every hfit.apart hpoll)
  | rotated hrotated => exact .quiet nofun (hsame ((congrArg standing hrotated).trans (standing_rotate e)))
  | paced hpaced =>
    subst hpaced
    exact .quiet nofun (hsame rfl)
  | narrowed hnarrowed =>
    subst hnarrowed
    exact .quiet nofun (quiet_refl _ _)
  | taken hrecv =>
    obtain ⟨hnone, -⟩ | ⟨header, body, deeds, hopen, -, hreplies, hrun⟩ := recv_deeds hrecv hfit.coherent
    · cases hnone
    · obtain ⟨hentropy, hpath⟩ := replies_turn hreplies hrun
      exact .heard hopen hentropy hpath
  | dropped hrecv =>
    obtain ⟨-, hstanding⟩ | ⟨_, _, _, -, hsome, -⟩ := recv_deeds hrecv hfit.coherent
    · exact .quiet nofun (hsame hstanding)
    · cases hsome

theorem Fit.call (hfit : e.Fit c root) (h : e.call c (carriage Addr) a = some (e', out, took)) : e'.Fit c root := by
  refine ⟨(call_coherent hfit.coherent h).1, ?_, every_call hfit.coherent h hfit.every⟩
  obtain ⟨-, deeds, hrun, hspeaks, -⟩ | ⟨-, -, carries, now, hdeed⟩ | ⟨_, _, _, _, _, _, -, -, -, -, hreplies, hrun⟩ :=
    call_deeds hfit.coherent h
  · exact (speaks_path hspeaks hrun).1.apart hfit.apart
  · have hpath : e'.transport.path = e.transport.path := (congrArg (fun s => s.2.path) (Option.some.inj hdeed)).symm
    rw [hpath]
    exact hfit.apart
  · exact (replies_path hfit.apart hreplies hrun).1

theorem Opened.fit {role : Direction} (h : Opened (carried c root cid dialling listening) role e) : e.Fit c root := by
  have hafter : 0 < rekeyAfter := by decide
  have hclaimed : ∀ peer, Fit c root (new c cid root ((carried c root cid dialling listening).claimed peer) .serverToClient :
      Endpoint Secret Key (Carrier Addr) Addr) := fun peer => ⟨KeySchedule.coherent_new _ _, nofun, hafter⟩
  cases h with
  | connect peer => exact ⟨KeySchedule.coherent_new _ _, nofun, hafter⟩
  | listen peer => exact hclaimed peer
  | @accept src now datagram _ received haccept =>
    have hrecv : recv c (carriage Addr) (new c cid root ((carried c root cid dialling listening).claimed src) .serverToClient)
        src now datagram = (e, .ok received) := recv_of_accept haccept
    have hcall : (new c cid root ((carried c root cid dialling listening).claimed src) .serverToClient :
        Endpoint Secret Key (Carrier Addr) Addr).call c (carriage Addr) (.recv src now datagram) =
          some (e, none, some (src, datagram.length)) := by
      dsimp only [call]
      rw [hrecv]
    exact (hclaimed src).call hcall

end Endpoint

theorem keepsLength_sample : sample.cipher.KeepsLength where
  payload _ _ _ _ := rfl
  tag key head number body := Pair.lawful_plain.tag_length key head number body

end Braid.Dgram
