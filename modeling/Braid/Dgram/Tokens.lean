import Braid.Dgram.Asking
import Braid.Dgram.Flight

/-! Which tokens a path waits for, and where they come from. A token is drawn when the first
challenge of an address goes out and is kept for as long as the address is challenged. No
other call brings a token in, so a path's tokens were all drawn from its pool, and a token
that is drawn later is a new one. -/

namespace Braid.Dgram

namespace Entropy

def Distinct (s : Entropy) : Prop :=
  ∀ i < s.drawn, ∀ j < s.drawn, (s.pool i).isSome = true → s.pool i = s.pool j → i = j

instance (s : Entropy) : Decidable s.Distinct :=
  inferInstanceAs (Decidable (∀ i < s.drawn, ∀ j < s.drawn, _ → _ → i = j))

def Gave (s : Entropy) (token : Token) : Prop := ∃ k < s.drawn, s.pool k = some token

/-- The pool is the same one, and `s'` has drawn at least as much. -/
structure Later (s s' : Entropy) : Prop where
  pool : s'.pool = s.pool
  drawn : s.drawn ≤ s'.drawn

variable {s s' s'' : Entropy} {token : Token}

theorem Later.refl (s : Entropy) : Later s s := ⟨rfl, Nat.le_refl _⟩

theorem Later.trans (h : Later s s') (h' : Later s' s'') : Later s s'' :=
  ⟨h'.pool.trans h.pool, h.drawn.trans h'.drawn⟩

theorem later_draw (s : Entropy) : Later s s.draw.1 := ⟨rfl, Nat.le_succ _⟩

theorem Later.gave (h : Later s s') : s.Gave token → s'.Gave token := fun ⟨k, hk, hpool⟩ =>
  ⟨k, hk.trans_le h.drawn, by rw [h.pool]; exact hpool⟩

/-- Drawn on the way from `s` to `s'`. -/
def New (s s' : Entropy) (token : Token) : Prop := ∃ k, s.drawn ≤ k ∧ k < s'.drawn ∧ s.pool k = some token

theorem New.gave (h : Later s s') : s.New s' token → s'.Gave token := fun ⟨k, _, hk, hpool⟩ =>
  ⟨k, hk, by rw [h.pool]; exact hpool⟩

theorem New.not_gave (h : Later s s') (hd : s'.Distinct) : s.New s' token → ¬ s.Gave token := by
  rintro ⟨k, hle, hlt, hk⟩ ⟨j, hj, hgave⟩
  have hsame : j = k := by
    refine hd j (hj.trans_le h.drawn) k hlt ?_ ?_
    · rw [h.pool, hgave]
      rfl
    · rw [h.pool, hgave, hk]
  exact (hj.trans_le hle).ne hsame

theorem New.of_later (h : Later s s') : s'.New s'' token → s.New s'' token := fun ⟨k, hle, hlt, hpool⟩ =>
  ⟨k, h.drawn.trans hle, hlt, h.pool ▸ hpool⟩

theorem New.later (h : Later s' s'') : s.New s' token → s.New s'' token := fun ⟨k, hle, hlt, hpool⟩ =>
  ⟨k, hle, hlt.trans_le h.drawn, hpool⟩

end Entropy

def Standing.token : Standing → Option Token
  | .proven => none
  | .claimed probe => probe.token

namespace Probe

variable {p p' : Probe} {s s' : Entropy} {drawn : Option Token}

theorem Asks.later (h : p.Asks s p' s' drawn) : s.Later s' := by
  cases h with
  | quiet | again => exact .refl s
  | failed | fresh => exact s.later_draw

theorem Asks.token (h : p.Asks s p' s' drawn) {held : Token} (hheld : p'.token = some held) :
    p.token = some held ∨ s.New s' held := by
  cases h with
  | quiet | failed | again => exact .inl hheld
  | fresh _ hpool => exact .inr ⟨s.drawn, Nat.le_refl _, Nat.lt_succ_self _, hpool.trans hheld⟩

theorem Asks.asked {token : Token} (h : p.Asks s p' s' (some token)) : p'.token = some token := by
  cases h with
  | again hheld => exact hheld
  | fresh => rfl

end Probe

namespace PathValidator

variable {Addr : Type*} {p p' p'' : PathValidator Addr} {s s' s'' : Entropy}

def token (p : PathValidator Addr) : Option Token := p.candidate.bind fun (_, candidate) => candidate.probe.token

/-- Every token `p'` waits for was one of `p`, or was drawn in between. -/
structure Mints (p : PathValidator Addr) (s : Entropy) (p' : PathValidator Addr) (s' : Entropy) : Prop where
  later : s.Later s'
  standing : ∀ token, p'.standing.token = some token → p.standing.token = some token ∨ s.New s' token
  candidate : ∀ token, p'.token = some token → p.token = some token ∨ s.New s' token

theorem Mints.trans (h : Mints p s p' s') (h' : Mints p' s' p'' s'') : Mints p s p'' s'' := by
  refine ⟨h.later.trans h'.later, fun token ht => ?_, fun token ht => ?_⟩
  · obtain ht | hnew := h'.standing token ht
    · exact (h.standing token ht).imp_right (Entropy.New.later h'.later)
    · exact .inr (hnew.of_later h.later)
  · obtain ht | hnew := h'.candidate token ht
    · exact (h.candidate token ht).imp_right (Entropy.New.later h'.later)
    · exact .inr (hnew.of_later h.later)

theorem mints_of_eq (hstanding : p'.standing.token = p.standing.token) (htoken : p'.token = p.token) : Mints p s p' s :=
  ⟨.refl s, fun _ h => .inl (hstanding ▸ h), fun _ h => .inl (htoken ▸ h)⟩

def awaiting (p : PathValidator Addr) : Option (Addr × Token) :=
  p.candidate.bind fun (at_, candidate) => candidate.probe.token.map (at_, ·)

theorem token_eq (p : PathValidator Addr) : p.token = p.awaiting.map Prod.snd := by
  unfold token awaiting
  obtain _ | ⟨at_, candidate⟩ := p.candidate
  · rfl
  · dsimp only [Option.bind_some]
    rw [Option.map_map]
    exact Option.map_id'.symm

theorem awaiting_modify {current : Addr} {standing : Standing} {at_ : Addr} {candidate : Candidate} {probe : Probe} :
    awaiting ⟨current, standing, some (at_, candidate.modify fun _ => probe)⟩ = probe.token.map (at_, ·) := by
  dsimp only [awaiting, Option.bind_some]
  rw [Candidate.probe_modify]

theorem awaiting_candidate {at_ : Addr} {candidate : Candidate} (h : p.candidate = some (at_, candidate)) :
    p.awaiting = candidate.probe.token.map (at_, ·) := by
  rw [awaiting, h]
  rfl

/-- Every token `p'` waits for `p` waited for from the same address, or it was drawn in between. -/
structure Turns (p : PathValidator Addr) (s : Entropy) (p' : PathValidator Addr) (s' : Entropy) : Prop where
  later : s.Later s'
  standing : ∀ token, p'.standing.token = some token → p.standing.token = some token ∨ s.New s' token
  awaiting : ∀ q, p'.awaiting = some q → p.awaiting = some q ∨ s.New s' q.2

theorem Turns.refl (p : PathValidator Addr) (s : Entropy) : Turns p s p s := ⟨.refl s, fun _ h => .inl h, fun _ h => .inl h⟩

theorem Turns.trans (h : Turns p s p' s') (h' : Turns p' s' p'' s'') : Turns p s p'' s'' := by
  refine ⟨h.later.trans h'.later, fun token ht => ?_, fun q hq => ?_⟩
  · obtain ht | hnew := h'.standing token ht
    · exact (h.standing token ht).imp_right (Entropy.New.later h'.later)
    · exact .inr (hnew.of_later h.later)
  · obtain hq | hnew := h'.awaiting q hq
    · exact (h.awaiting q hq).imp_right (Entropy.New.later h'.later)
    · exact .inr (hnew.of_later h.later)

theorem Turns.mints (h : Turns p s p' s') : Mints p s p' s' := by
  refine ⟨h.later, h.standing, fun token ht => ?_⟩
  rw [token_eq] at ht ⊢
  obtain ⟨q, hq, rfl⟩ := Option.map_eq_some_iff.mp ht
  exact (h.awaiting q hq).imp_left fun hbefore => Option.map_eq_some_iff.mpr ⟨q, hbefore, rfl⟩

theorem Passes.turns (h : Passes p s p' s') : Turns p s p' s' := by
  cases h with
  | proven => exact .refl p s
  | claimed hstanding hasks =>
    refine ⟨hasks.later, fun token ht => ?_, fun _ hq => .inl hq⟩
    rw [hstanding]
    exact hasks.token ht

/-- Only who is asked gets a token: the address in use first, and the candidate after that. -/
theorem Asks.turns {asked : Option (Addr × Token)} (h : Asks p s p' s' asked) :
    ∃ p₁ s₁, Turns p s p₁ s₁ ∧ p₁.awaiting = p.awaiting ∧ Turns p₁ s₁ p' s' ∧ p'.standing = p₁.standing := by
  have hpassed : ∀ {p₁ : PathValidator Addr} {s₁ : Entropy}, Passes p s p₁ s₁ → p₁.awaiting = p.awaiting := fun h => by
    cases h <;> rfl
  have hcandidate : ∀ {p₁ : PathValidator Addr} {s₁ : Entropy} {at_ : Addr} {candidate : Candidate} {probe' : Probe}
      {token : Option Token}, p₁.candidate = some (at_, candidate) → candidate.probe.Asks s₁ probe' s' token →
      Turns p₁ s₁ { p₁ with candidate := some (at_, candidate.modify fun _ => probe') } s' := by
    intro p₁ s₁ at_ candidate probe' token hsome hasks
    refine ⟨hasks.later, fun _ ht => .inl ht, fun q hq => ?_⟩
    rw [awaiting_modify] at hq
    obtain ⟨held, hheld, rfl⟩ := Option.map_eq_some_iff.mp hq
    rw [awaiting_candidate hsome]
    exact (hasks.token hheld).imp_left fun hbefore => Option.map_eq_some_iff.mpr ⟨held, hbefore, rfl⟩
  cases h with
  | @current probe probe' _ token hstanding hasks =>
    refine ⟨{ p with standing := .claimed probe' }, _, ⟨hasks.later, fun token ht => ?_, fun _ hq => .inl hq⟩, rfl, .refl _ _, rfl⟩
    rw [hstanding]
    exact hasks.token ht
  | alone hpasses => exact ⟨_, _, hpasses.turns, hpassed hpasses, .refl _ _, rfl⟩
  | candidate hpasses hsome hasks | waits hpasses hsome hasks =>
    exact ⟨_, _, hpasses.turns, hpassed hpasses, hcandidate hsome hasks, rfl⟩
  | dropped hpasses _ hasks =>
    exact ⟨_, _, hpasses.turns, hpassed hpasses, ⟨hasks.later, fun _ ht => .inl ht, nofun⟩, rfl⟩

theorem Asks.mints {asked : Option (Addr × Token)} (h : Asks p s p' s' asked) : Mints p s p' s' := by
  obtain ⟨p₁, s₁, hfirst, -, hrest, -⟩ := h.turns
  exact (hfirst.trans hrest).mints

theorem Asks.asked {dest : Addr} {token : Token} (h : Asks p s p' s' (some (dest, token))) :
    p'.standing.token = some token ∨ p'.awaiting = some (dest, token) := by
  cases h with
  | current _ hasks => exact .inl hasks.asked
  | candidate _ _ hasks =>
    rw [awaiting_modify, hasks.asked]
    exact .inr rfl

variable [DecidableEq Addr]

theorem spent_token (p : PathValidator Addr) (dest : Addr) (bytes : ℕ) :
    (p.spent dest bytes).standing.token = p.standing.token ∧ (p.spent dest bytes).awaiting = p.awaiting := by
  obtain ⟨current, standing, candidate⟩ := p
  unfold spent
  split_ifs
  · refine ⟨?_, rfl⟩
    cases standing <;> rfl
  · refine ⟨rfl, ?_⟩
    obtain _ | ⟨at_, candidate⟩ := candidate
    · rfl
    · dsimp only [awaiting, Option.map_some, Option.bind_some]
      split_ifs
      · rw [Candidate.probe_modify]
      · rfl

theorem turns_arrived (p : PathValidator Addr) (src : Addr) (bytes now : ℕ) (s : Entropy) :
    Turns p s (p.arrived src bytes now) s := by
  obtain ⟨current, standing, candidate⟩ := p
  unfold arrived
  split_ifs
  · refine ⟨.refl s, fun token h => .inl ?_, fun q h => .inl ?_⟩
    · cases standing <;> exact h
    · obtain _ | ⟨at_, proposed | retiring⟩ := candidate <;> exact h
  · refine ⟨.refl s, fun _ h => .inl h, fun q h => .inl ?_⟩
    obtain _ | ⟨at_, candidate⟩ := candidate
    · cases h
    · dsimp only [PathValidator.awaiting, Option.bind_some] at h ⊢
      split_ifs at h
      · cases candidate <;> exact h
      · cases h

/-- An echo settles a token and brings none; only an echo of the candidate's token from there moves the path. -/
theorem turns_answered (p : PathValidator Addr) (src : Addr) (body : List UInt8) (s : Entropy) :
    Turns p s (p.answered src body).1 s ∧
      ((p.answered src body).1.current = p.current ∧ (∀ dest, (p.answered src body).2 ≠ some (.migrated dest)) ∨
        ∃ token, p.awaiting = some (src, token) ∧ token.bytes = body ∧ (p.answered src body).1 = ⟨src, .proven, none⟩) := by
  obtain ⟨current, standing, candidate⟩ := p
  unfold answered
  split_ifs
  · exact ⟨⟨.refl s, nofun, fun _ h => .inl h⟩, .inl ⟨rfl, nofun⟩⟩
  · obtain _ | ⟨at_, candidate⟩ := candidate
    · exact ⟨.refl _ s, .inl ⟨rfl, nofun⟩⟩
    · dsimp only
      split_ifs with hwrong
      · exact ⟨.refl _ s, .inl ⟨rfl, nofun⟩⟩
      · obtain ⟨hat, htoken⟩ := not_or.mp hwrong
        obtain ⟨token, hsome, hbytes⟩ := Option.map_eq_some_iff.mp (of_not_not htoken)
        refine ⟨⟨.refl s, nofun, nofun⟩, .inr ⟨token, ?_, hbytes, rfl⟩⟩
        obtain rfl := of_not_not hat
        dsimp only [awaiting, Option.bind_some]
        rw [hsome]
        rfl

end PathValidator

namespace Carrier

variable {Addr : Type*} {r r' r'' : Carrier Addr}

def Mints (r r' : Carrier Addr) : Prop := r.path.Mints r.entropy r'.path r'.entropy

theorem Mints.trans (h : r.Mints r') (h' : r'.Mints r'') : r.Mints r'' := PathValidator.Mints.trans h h'

def Awaits (r : Carrier Addr) (body : List UInt8) : Prop :=
  ∃ token : Token, token.bytes = body ∧ (r.path.standing.token = some token ∨ r.path.token = some token)

/-- The same tokens are waited for, and none was drawn. -/
structure SameTokens (r r' : Carrier Addr) : Prop where
  standing : r'.path.standing.token = r.path.standing.token
  candidate : r'.path.token = r.path.token
  entropy : r'.entropy = r.entropy

theorem SameTokens.refl (r : Carrier Addr) : r.SameTokens r := ⟨rfl, rfl, rfl⟩

theorem SameTokens.trans (h : r.SameTokens r') (h' : r'.SameTokens r'') : r.SameTokens r'' :=
  ⟨h'.standing.trans h.standing, h'.candidate.trans h.candidate, h'.entropy.trans h.entropy⟩

theorem SameTokens.mints (h : r.SameTokens r') : r.Mints r' := by
  rw [Mints, h.entropy]
  exact PathValidator.mints_of_eq h.standing h.candidate

theorem SameTokens.awaits {body : List UInt8} (h : r.SameTokens r') : r.Awaits body → r'.Awaits body :=
  fun ⟨token, hbytes, htoken⟩ => ⟨token, hbytes, by rwa [h.standing, h.candidate]⟩

theorem sameTokens_of_eq (hpath : r'.path = r.path) (hentropy : r'.entropy = r.entropy) : r.SameTokens r' :=
  ⟨by rw [hpath], by rw [hpath], hentropy⟩

theorem sameTokens_absorb (told : Carrier Addr) (now : ℕ) (hpath : told.path = r.path)
    (hentropy : told.entropy = r.entropy) : r.SameTokens (told.absorb now) :=
  sameTokens_of_eq ((told.absorb_frame now).2.1.trans hpath) ((told.absorb_entropy now).trans hentropy)

theorem sameTokens_expire (r : Carrier Addr) (now : ℕ) : r.SameTokens (r.expire now) :=
  sameTokens_absorb { r with loss := r.loss.expire now } now rfl rfl

theorem sameTokens_sealed (r : Carrier Addr) (number bytes now : ℕ) : r.SameTokens (r.sealed number bytes now) := by
  unfold Carrier.sealed
  cases r.congestion.sealed bytes now with
  | mk congestion limited => exact sameTokens_absorb { r with congestion, loss := r.loss.sealed _ } now rfl rfl

theorem sameTokens_spent [DecidableEq Addr] (r : Carrier Addr) (dest : Addr) (bytes : ℕ) :
    r.SameTokens { r with path := r.path.spent dest bytes } :=
  ⟨(r.path.spent_token dest bytes).1, by
    rw [PathValidator.token_eq, PathValidator.token_eq, (r.path.spent_token dest bytes).2], rfl⟩

theorem sameTokens_acknowledged (r : Carrier Addr) (ack : Ack) (next now : ℕ) :
    r.SameTokens (r.acknowledged ack next now) := by
  unfold acknowledged
  split_ifs
  · have habsorb := sameTokens_absorb (r := r) { r with loss := r.loss.acknowledged ack now } now rfl rfl
    exact { habsorb with }
  · exact .refl r

end Carrier

namespace Endpoint

variable {Secret Key Addr : Type*} {c : Cipher Secret Key} {root : Secret}
  {e e' e₁ : Endpoint Secret Key (Carrier Addr) Addr} {kind : Kind} {body : List UInt8} {dest src : Addr} {now : ℕ}
  {sent : Option (Addr × List UInt8)}

/-- A call that speaks before the rotation is due: a response echoes the answer that was
owed, and a challenge asks for a token that is waited for. -/
structure Voices (c : Cipher Secret Key) (root : Secret) (e e' : Endpoint Secret Key (Carrier Addr) Addr)
    (sent : Option (Addr × List UInt8)) : Prop where
  mints : e.transport.Mints e'.transport
  keys : e'.keys = e.keys
  rekeyAt : e'.rekeyAt = e.rekeyAt
  answer : e'.answer = e.answer ∨ e'.answer = none
  next : sent = none → e'.next = e.next
  packet : ∀ datagram, sent.map Prod.snd = some datagram → ∃ q : Packet, q.datagram = datagram ∧
    q.Sealed c root e.keys.sending ∧ q.header.epoch = e.keys.send.epoch ∧
    (q.header.kind = .response → ∃ dest, e.answer = some (dest, q.body)) ∧
    (q.header.kind = .challenge → e'.transport.Awaits q.body)

theorem voices_nothing (hmints : e.transport.Mints e'.transport) (hkeys : e'.keys = e.keys) (hat : e'.rekeyAt = e.rekeyAt)
    (hanswer : e'.answer = e.answer) (hnext : e'.next = e.next) : Voices c root e e' none :=
  ⟨hmints, hkeys, hat, .inl hanswer, fun _ => hnext, nofun⟩

theorem Voices.trans (h : Voices c root e e₁ none) (h' : Voices c root e₁ e' sent) : Voices c root e e' sent := by
  refine ⟨h.mints.trans h'.mints, h'.keys.trans h.keys, h'.rekeyAt.trans h.rekeyAt, ?_,
    fun hsent => (h'.next hsent).trans (h.next rfl), fun datagram hdatagram => ?_⟩
  · obtain hanswer | hanswer := h'.answer
    · rw [hanswer]
      exact h.answer
    · exact .inr hanswer
  · obtain ⟨q, hq, hsealed, hepoch, hresponse, hchallenge⟩ := h'.packet datagram hdatagram
    rw [h.keys] at hsealed hepoch
    refine ⟨q, hq, hsealed, hepoch, fun hkind => ?_, hchallenge⟩
    obtain ⟨dest, hanswer⟩ := hresponse hkind
    obtain hkept | hnone := h.answer
    · exact ⟨dest, hkept.symm.trans hanswer⟩
    · cases hnone.symm.trans hanswer

theorem Voices.trans_same (h : Voices c root e e₁ sent) (hsame : e₁.transport.SameTokens e'.transport)
    (hkeys : e'.keys = e₁.keys) (hat : e'.rekeyAt = e₁.rekeyAt) (hanswer : e'.answer = e₁.answer)
    (hnext : e'.next = e₁.next) : Voices c root e e' sent := by
  refine ⟨h.mints.trans hsame.mints, hkeys.trans h.keys, hat.trans h.rekeyAt, hanswer ▸ h.answer,
    fun hsent => hnext.trans (h.next hsent), fun datagram hdatagram => ?_⟩
  obtain ⟨q, hq, hsealed, hepoch, hresponse, hchallenge⟩ := h.packet datagram hdatagram
  exact ⟨q, hq, hsealed, hepoch, hresponse, fun hkind => hsame.awaits (hchallenge hkind)⟩

theorem Timed.voices (h : Timed e e') : Voices c root e e' none :=
  voices_nothing (Carrier.sameTokens_of_eq (by rw [h.transport]) (by rw [h.transport])).mints h.keys h.rekeyAt h.answer h.next

variable [DecidableEq Addr]

theorem seal_tokens {result : Except SendError (List UInt8)} (hnext : e.next < e.rekeyAt)
    (h : e.seal_ c (carriage Addr) kind body dest now = some (e', result)) :
    e.transport.SameTokens e'.transport ∧ e'.keys = e.keys ∧ e'.rekeyAt = e.rekeyAt ∧ e'.answer = e.answer ∧
      (result.toOption = none → e'.next = e.next) := by
  have hrekey : e.rekey c = some e := if_neg (not_le.mpr hnext)
  cases seals h with
  | refused => exact ⟨.refl _, rfl, rfl, rfl, fun _ => rfl⟩
  | blocked hdrafts =>
    obtain rfl := Option.some.inj (hrekey.symm.trans hdrafts.rekey)
    exact ⟨.refl _, rfl, rfl, rfl, fun _ => rfl⟩
  | sealed hdrafts =>
    obtain rfl := Option.some.inj (hrekey.symm.trans hdrafts.rekey)
    refine ⟨?_, rfl, rfl, rfl, nofun⟩
    have hspent := e.transport.sameTokens_spent dest
    split_ifs
    · exact (hspent _).trans (Carrier.sameTokens_sealed _ _ _ _)
    · exact hspent _

section

variable (hcoh : e.keys.Coherent c root) (hnext : e.next < e.rekeyAt)
  (h : e.attempt c (carriage Addr) kind body dest now = some (e', sent))

include hcoh hnext h

theorem attempt_tokens :
    e.transport.SameTokens e'.transport ∧ e'.keys = e.keys ∧ e'.rekeyAt = e.rekeyAt ∧ e'.answer = e.answer ∧
      (sent = none → e'.next = e.next) ∧
      ∀ datagram, sent.map Prod.snd = some datagram → ∃ q : Packet, q.datagram = datagram ∧
        q.Sealed c root e.keys.sending ∧ q.header.epoch = e.keys.send.epoch ∧ q.header.kind = kind ∧ q.body = body := by
  obtain ⟨⟨e₁, result⟩, hseal, heq⟩ := Option.map_eq_some_iff.mp h
  cases heq
  obtain ⟨hsame, hkeys, hat, hanswer, hnone⟩ := seal_tokens hnext hseal
  obtain ⟨-, out, hadv, hresult, hout⟩ := seal_spec hcoh hseal
  refine ⟨hsame, hkeys, hat, hanswer, fun hsent => hnone (Option.map_eq_none_iff.mp hsent), fun datagram hdatagram => ?_⟩
  rw [Option.map_map] at hdatagram
  obtain ⟨bytes, hbytes, rfl⟩ := Option.map_eq_some_iff.mp hdatagram
  obtain ⟨q, rfl, rfl⟩ := Option.map_eq_some_iff.mp (hresult.symm.trans hbytes)
  obtain ⟨hsealed, -, -, hepoch⟩ := hadv.packet q rfl
  rw [hkeys] at hepoch
  exact ⟨q, rfl, hsealed, hepoch, hout q rfl⟩

theorem voices_attempt (hresponse : kind ≠ .response)
    (hchallenge : kind = .challenge → e.transport.Awaits body) : Voices c root e e' sent := by
  obtain ⟨hsame, hkeys, hat, hanswer, hnone, hpacket⟩ := attempt_tokens hcoh hnext h
  refine ⟨hsame.mints, hkeys, hat, .inl hanswer, hnone, fun datagram hdatagram => ?_⟩
  obtain ⟨q, hq, hsealed, hepoch, hkind, rfl⟩ := hpacket datagram hdatagram
  refine ⟨q, hq, hsealed, hepoch, fun hq => absurd (hkind.symm.trans hq) hresponse, fun hq => ?_⟩
  exact hsame.awaits (hchallenge (hkind.symm.trans hq))

end

/-- Every piece of a poll before the rotation is due. -/
theorem Polled.voices (h : Polled c (carriage Addr) now e e' sent) (hcoh : e.keys.Coherent c root) (hnext : e.next < e.rekeyAt) :
    Voices c root e e' sent := by
  induction h with
  | timed h => exact h.voices
  | expired e => exact voices_nothing (Carrier.sameTokens_expire e.transport now).mints rfl rfl rfl rfl
  | @answered e _ dest _ _ hanswer hattempt =>
    obtain ⟨hsame, hkeys, hat, htaken, hnone, hpacket⟩ := attempt_tokens (e := { e with answer := none }) hcoh hnext hattempt
    refine ⟨hsame.mints, hkeys, hat, .inr htaken, hnone, fun datagram hdatagram => ?_⟩
    obtain ⟨q, hq, hsealed, hepoch, hkind, rfl⟩ := hpacket datagram hdatagram
    exact ⟨q, hq, hsealed, hepoch, fun _ => ⟨dest, hanswer⟩, fun hq => nomatch hkind.symm.trans hq⟩
  | acknowledged hattempt | unprobed hattempt | kept hattempt => exact voices_attempt hcoh hnext hattempt nofun nofun
  | @unchallenged e | @starved e =>
    exact voices_nothing (e.transport.path.asks_pollChallenge now e.transport.entropy).mints rfl rfl rfl rfl
  | @challenged e _ _ _ _ hchallenge hattempt =>
    have hasks := e.transport.path.asks_pollChallenge now e.transport.entropy
    have hpoll : Voices c root e { e with transport := ((carriage Addr).pollChallenge e.transport now).1 } none :=
      voices_nothing hasks.mints rfl rfl rfl rfl
    obtain ⟨⟨dest', drawn⟩, hdrawn, heq⟩ := Option.map_eq_some_iff.mp hchallenge
    obtain ⟨rfl, rfl⟩ := Prod.mk.inj heq
    have hasked : (e.transport.path.pollChallenge now e.transport.entropy).2.2 = some (dest', drawn) := hdrawn
    rw [hasked] at hasks
    refine hpoll.trans (voices_attempt hcoh hnext hattempt nofun fun _ => ⟨drawn, rfl, hasks.asked.imp_right fun hawaiting => ?_⟩)
    exact (PathValidator.token_eq _).trans (congrArg _ hawaiting)
  | searched e => exact voices_nothing (Carrier.sameTokens_of_eq rfl rfl).mints rfl rfl rfl rfl
  | @probed e _ _ _ _ hattempt =>
    have hpoll : Voices c root e { e with transport := ((carriage Addr).pollProbe e.transport now).1 } none :=
      voices_nothing (Carrier.sameTokens_of_eq rfl rfl).mints rfl rfl rfl rfl
    have hvoices := hpoll.trans (voices_attempt hcoh hnext hattempt nofun nofun)
    exact hvoices.trans_same (Carrier.sameTokens_of_eq rfl rfl) rfl rfl rfl rfl
  | before _ _ ih₁ ih₂ =>
    have hfirst := ih₁ hcoh hnext
    refine hfirst.trans (ih₂ (hfirst.keys ▸ hcoh) ?_)
    rw [hfirst.next rfl, hfirst.rekeyAt]
    exact hnext
  | after _ h ih =>
    exact (ih hcoh hnext).trans_same (Carrier.sameTokens_of_eq (by rw [h.transport]) (by rw [h.transport])) h.keys h.rekeyAt
      h.answer h.next

theorem voices_send {frame : List UInt8} {result : Except SendError (Addr × List UInt8)} (hcoh : e.keys.Coherent c root)
    (hnext : e.next < e.rekeyAt) (h : e.send c (carriage Addr) frame now = some (e', result)) :
    Voices c root e e' result.toOption := by
  obtain ⟨rfl, hnone⟩ | hattempt := send_attempt h
  · rw [hnone]
    exact voices_nothing (Carrier.SameTokens.refl _).mints rfl rfl rfl rfl
  · exact voices_attempt hcoh hnext hattempt nofun nofun

theorem voices_close {result : Except SendError (Addr × List UInt8)} (hcoh : e.keys.Coherent c root)
    (hnext : e.next < e.rekeyAt) (h : e.close c (carriage Addr) now = some (e', result)) :
    Voices c root e e' result.toOption := by
  obtain ⟨e₁, hattempt, rfl⟩ := close_attempt h
  exact (voices_attempt hcoh hnext hattempt nofun nofun).trans_same (.refl _) rfl rfl rfl rfl

/-! ### Hearing -/

/-- What hearing a datagram does to the tokens, to the answer owed and to the epoch sealed in. -/
structure Hears (c : Cipher Secret Key) (root : Secret) (e e' : Endpoint Secret Key (Carrier Addr) Addr)
    (datagram : List UInt8) (result : Except RecvError (Received Addr)) : Prop where
  mints : e.transport.Mints e'.transport
  rekeyAt : e'.rekeyAt = e.rekeyAt
  answer : e'.answer = e.answer ∨ result.isOk = true ∧ ∃ header body src, header.kind = .challenge ∧
    c.openDatagram root e.keys.sending.opposite datagram = some (header, body) ∧ e'.answer = some (src, body)
  epoch : e'.keys.send.epoch = e.keys.send.epoch ∨
    e'.keys.send.epoch.val = e.keys.send.epoch.val + 1 ∧ e'.transport.path.token = none ∧ ∃ header body,
      header.kind = .response ∧ c.openDatagram root e.keys.sending.opposite datagram = some (header, body) ∧
      e.transport.path.token.map Token.bytes = some body

theorem dispatch_tokens (e : Endpoint Secret Key (Carrier Addr) Addr) (src : Addr) (now : ℕ) (kind : Kind)
    (body : List UInt8) (hcoh : e.keys.Coherent c root) :
    e.transport.Mints (e.dispatch c (carriage Addr) src now kind body).1.transport ∧
    (e.dispatch c (carriage Addr) src now kind body).1.rekeyAt = e.rekeyAt ∧
    ((e.dispatch c (carriage Addr) src now kind body).1.answer = e.answer ∨
      kind = .challenge ∧ (e.dispatch c (carriage Addr) src now kind body).1.answer = some (src, body)) ∧
    ((e.dispatch c (carriage Addr) src now kind body).1.keys.send.epoch = e.keys.send.epoch ∨
      (e.dispatch c (carriage Addr) src now kind body).1.keys.send.epoch.val = e.keys.send.epoch.val + 1 ∧
      (e.dispatch c (carriage Addr) src now kind body).1.transport.path.token = none ∧ kind = .response ∧
      e.transport.path.token.map Token.bytes = some body) := by
  have hsame := (Carrier.SameTokens.refl e.transport).mints
  cases kind with
  | frame | alive | probe | close => exact ⟨hsame, rfl, .inl rfl, .inl rfl⟩
  | challenge =>
    dsimp only [dispatch]
    split_ifs
    · exact ⟨hsame, rfl, .inr ⟨rfl, rfl⟩, .inl rfl⟩
    · exact ⟨hsame, rfl, .inl rfl, .inl rfl⟩
  | response =>
    obtain ⟨hturns, hmoved⟩ := e.transport.path.turns_answered src body e.transport.entropy
    have hmints := hturns.mints
    dsimp only [dispatch]
    split_ifs
    · split
      · exact ⟨hmints, rfl, .inl rfl, .inl rfl⟩
      · exact ⟨hmints, rfl, .inl rfl, .inl rfl⟩
      · rename_i dest hmigrated
        obtain ⟨token, hawaiting, hbytes, hpath⟩ := hmoved.resolve_left fun h => h.2 dest hmigrated
        have hheld : e.transport.path.token.map Token.bytes = some body := by
          rw [PathValidator.token_eq, hawaiting, ← hbytes]
          rfl
        have hnone : (e.transport.path.answered src body).1.token = none := congrArg PathValidator.token hpath
        unfold rotate
        cases hrotate : e.keys.rotate c with
        | none => exact ⟨hmints, rfl, .inl rfl, .inl rfl⟩
        | some keys =>
          obtain ⟨-, hepoch, -⟩ := hcoh.rotate hrotate
          exact ⟨hmints, rfl, .inl rfl, .inr ⟨hepoch, hnone, rfl, hheld⟩⟩
    · exact ⟨hsame, rfl, .inl rfl, .inl rfl⟩
  | ack =>
    dsimp only [dispatch]
    split
    · exact ⟨hsame, rfl, .inl rfl, .inl rfl⟩
    · exact ⟨(Carrier.sameTokens_acknowledged _ _ _ _).mints, rfl, .inl rfl, .inl rfl⟩

theorem hears_recv {datagram : List UInt8} {result : Except RecvError (Received Addr)} (hcoh : e.keys.Coherent c root)
    (h : e.recv c (carriage Addr) src now datagram = (e', result)) : Hears c root e e' datagram result := by
  obtain ⟨header, body, keys, hopen, -, -, hcoh', hsend, -, -, heq⟩ | ⟨error, ahead, -, -, heq⟩ :=
    recv_cases (t := carriage Addr) hcoh src now datagram
  · rw [heq] at h
    unfold admitted at h
    dsimp only at h
    split at h
    · cases h
      exact ⟨(Carrier.SameTokens.refl _).mints, rfl, .inl rfl, .inl (by rw [← hsend])⟩
    · generalize hbefore : (if header.kind.ackEliciting then _ else _ : Endpoint Secret Key (Carrier Addr) Addr) = before at h
      cases h
      obtain ⟨htransport, hkeys, hat, hanswer⟩ : before.transport = (carriage Addr).arrived e.transport src datagram.length now ∧
          before.keys = keys ∧ before.rekeyAt = e.rekeyAt ∧ before.answer = e.answer := by
        rw [← hbefore]
        split <;> exact ⟨rfl, rfl, rfl, rfl⟩
      obtain ⟨hmints, hat', hanswered, hepoch⟩ := before.dispatch_tokens src now header.kind body
        (hkeys ▸ hcoh' : before.keys.Coherent c root)
      have harrived := (e.transport.path.turns_arrived src datagram.length now e.transport.entropy).mints
      rw [htransport] at hmints
      refine ⟨PathValidator.Mints.trans harrived hmints, hat'.trans hat, ?_, ?_⟩
      · obtain hkept | ⟨hkind, htaken⟩ := hanswered
        · exact .inl (hkept.trans hanswer)
        · exact .inr ⟨rfl, header, body, src, hkind, hopen, htaken⟩
      · rw [hkeys, hsend] at hepoch
        obtain hkept | ⟨hnext, hnone, hkind, hbytes⟩ := hepoch
        · exact .inl hkept
        · refine .inr ⟨hnext, hnone, header, body, hkind, hopen, ?_⟩
          rw [htransport] at hbytes
          obtain ⟨token, htoken, hbody⟩ := Option.map_eq_some_iff.mp hbytes
          obtain hold | ⟨k, hle, hlt, -⟩ := harrived.candidate token htoken
          · rw [hold, ← hbody]
            rfl
          · exact absurd hlt (not_lt.mpr hle)
  · obtain ⟨rfl, rfl⟩ := Prod.mk.inj (heq.symm.trans h)
    exact ⟨(Carrier.SameTokens.refl _).mints, rfl, .inl rfl, .inl rfl⟩

end Endpoint

end Braid.Dgram
