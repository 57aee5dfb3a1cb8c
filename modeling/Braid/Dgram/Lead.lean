import Braid.Dgram.Epochs
import Braid.Dgram.Tokens

/-! How far a side's sealing runs ahead of the other side's reading. A validated move rotates
the key, and a move is validated by an echo of the candidate's token. The token went out in
challenges sealed in the epoch there still is, since a rotation drops the candidate. Who
echoes it has read that epoch, so the rotation leads by one. -/

namespace Braid.Dgram

open Foundation

variable {Secret Key Addr : Type*}

structure Carrier.Blank (r : Carrier Addr) : Prop where
  standing : r.path.standing.token = none
  candidate : r.path.token = none

structure Carrier.Owns (r : Carrier Addr) : Prop where
  standing : ∀ token, r.path.standing.token = some token → r.entropy.Gave token
  candidate : ∀ token, r.path.token = some token → r.entropy.Gave token

namespace Carrier

variable {r r' : Carrier Addr}

theorem Blank.owns (h : r.Blank) : r.Owns := by
  refine ⟨fun token ht => ?_, fun token ht => ?_⟩
  · cases h.standing.symm.trans ht
  · cases h.candidate.symm.trans ht

theorem Owns.mints (h : r.Owns) (hm : r.Mints r') : r'.Owns where
  standing token ht := (hm.standing token ht).elim (fun hold => hm.later.gave (h.standing token hold)) (Entropy.New.gave hm.later)
  candidate token ht := (hm.candidate token ht).elim (fun hold => hm.later.gave (h.candidate token hold)) (Entropy.New.gave hm.later)

theorem Owns.awaits (h : r.Owns) {body : List UInt8} : r.Awaits body → ∃ token, r.entropy.Gave token ∧ token.bytes = body :=
  fun ⟨token, hbytes, htoken⟩ => ⟨token, htoken.elim (h.standing token) (h.candidate token), hbytes⟩

/-- A candidate's token that was asked for before was the candidate's before. -/
theorem token_kept (hm : r.Mints r') (hd : r'.entropy.Distinct) {token : Token} (hgave : r.entropy.Gave token)
    (ht : r'.path.token.map Token.bytes = some token.bytes) : r.path.token.map Token.bytes = some token.bytes := by
  obtain ⟨token', htoken', hbytes⟩ := Option.map_eq_some_iff.mp ht
  obtain rfl := Token.ext_bytes hbytes
  obtain hold | hnew := hm.candidate token' htoken'
  · rw [hold]
    rfl
  · exact absurd hgave (hnew.not_gave hm.later hd)

end Carrier

namespace Pair

open Party

variable {c : Cipher Secret Key} {root : Secret} {role : Direction} {p p' peer peer' : Party Secret Key (Carrier Addr) Addr}
  {emitted : List (List UInt8)} {e e' : Endpoint Secret Key (Carrier Addr) Addr} {body : List UInt8}

/-- The token was asked for, in an epoch that is read. -/
def Asked (c : Cipher Secret Key) (root : Secret) (role : Direction) (emitted : List (List UInt8))
    (e : Endpoint Secret Key (Carrier Addr) Addr) (body : List UInt8) : Prop :=
  ∃ datagram ∈ emitted, ∃ header, header.kind = .challenge ∧ c.openDatagram root role datagram = some (header, body) ∧
    header.epoch.val ≤ e.keys.recv.epoch.val

/-- Where the endpoint stands that reads what was emitted. -/
structure Attends (c : Cipher Secret Key) (root : Secret) (role : Direction) (emitted : List (List UInt8))
    (e : Endpoint Secret Key (Carrier Addr) Addr) : Prop where
  answer : ∀ dest body, e.answer = some (dest, body) → Asked c root role emitted e body
  read : e.keys.recv.epoch.val = 0 ∨ ∃ datagram ∈ emitted, epochOf datagram = e.keys.recv.epoch.val

/-- Where the endpoint of a side stands that emitted these datagrams. -/
structure Stands (c : Cipher Secret Key) (root : Secret) (role : Direction) (emitted : List (List UInt8))
    (peer : Party Secret Key (Carrier Addr) Addr) (e : Endpoint Secret Key (Carrier Addr) Addr) : Prop where
  rekeyAt : e.rekeyAt = rekeyAfter
  owns : e.transport.Owns
  asked : ∀ datagram ∈ emitted, ∀ header body, header.kind = .challenge →
    c.openDatagram root role datagram = some (header, body) →
    (∃ token, e.transport.entropy.Gave token ∧ token.bytes = body) ∧
    (e.transport.path.token.map Token.bytes = some body → header.epoch = e.keys.send.epoch)
  lead : e.keys.send.epoch.val = 0 ∨
    ∃ e', peer.holding = .live e' ∧ e.keys.send.epoch.val ≤ e'.keys.recv.epoch.val + 1

/-- What two sides know of each other's epochs, in one direction. -/
structure Echo (c : Cipher Secret Key) (root : Secret) (role : Direction) (p peer : Party Secret Key (Carrier Addr) Addr) :
    Prop where
  speaks : p.emitted ≠ [] → ∃ e, p.holding = .live e
  stands : ∀ e, p.holding.endpoint = some e → Stands c root role p.emitted peer e
  attends : ∀ e, peer.holding.endpoint = some e → Attends c root role p.emitted e
  echoed : ∀ datagram ∈ peer.emitted, ∀ header body, header.kind = .response →
    c.openDatagram root role.opposite datagram = some (header, body) →
    ∃ e, peer.holding = .live e ∧ Asked c root role p.emitted e body

theorem Asked.mono {more : List (List UInt8)} (h : Asked c root role emitted e body) (hmore : emitted ⊆ more)
    (hread : e.keys.recv.epoch.val ≤ e'.keys.recv.epoch.val) : Asked c root role more e' body :=
  let ⟨datagram, hmem, header, hkind, hopen, hle⟩ := h
  ⟨datagram, hmore hmem, header, hkind, hopen, hle.trans hread⟩

theorem attends_new {cid : ConnectionId} {r : Carrier Addr} {sending : Direction} :
    Attends c root role emitted (.new c cid root r sending) := ⟨nofun, .inl rfl⟩

theorem Attends.mono {more : List (List UInt8)} (h : Attends c root role emitted e) (hmore : emitted ⊆ more) :
    Attends c root role more e :=
  ⟨fun dest body hanswer => (h.answer dest body hanswer).mono hmore (Nat.le_refl _),
    h.read.imp_right fun ⟨datagram, hmem, hepoch⟩ => ⟨datagram, hmore hmem, hepoch⟩⟩

theorem Attends.voices (h : Attends c root role emitted e) {sent : Option (Addr × List UInt8)}
    (hvoices : Endpoint.Voices c root e e' sent) : Attends c root role emitted e' := by
  have hread : e'.keys.recv.epoch.val = e.keys.recv.epoch.val := by rw [hvoices.keys]
  refine ⟨fun dest body hanswer => ?_, hread ▸ h.read⟩
  obtain hsame | hnone := hvoices.answer
  · exact (h.answer dest body (hsame.symm.trans hanswer)).mono (List.Subset.refl _) hread.ge
  · cases hnone.symm.trans hanswer

theorem stands_new {cid : ConnectionId} {r : Carrier Addr} (h : r.Blank) :
    Stands c root role [] peer (.new c cid root r role) where
  rekeyAt := rfl
  owns := h.owns
  asked := nofun
  lead := .inl rfl

theorem Stands.voices (hc : c.Lawful) (h : Stands c root role emitted peer e) (hsending : e.keys.sending = role)
    (hd : e'.transport.entropy.Distinct) {sent : Option (Addr × List UInt8)} (hvoices : Endpoint.Voices c root e e' sent) :
    Stands c root role (emitted ++ (sent.map Prod.snd).toList) peer e' := by
  have howns := h.owns.mints hvoices.mints
  refine ⟨hvoices.rekeyAt.trans h.rekeyAt, howns, fun datagram hmem header body hkind hopen => ?_, ?_⟩
  · rw [hvoices.keys]
    obtain hmem | hmem := List.mem_append.mp hmem
    · obtain ⟨⟨token, hgave, rfl⟩, hepoch⟩ := h.asked datagram hmem header body hkind hopen
      exact ⟨⟨token, hvoices.mints.later.gave hgave, rfl⟩, fun ht => hepoch (Carrier.token_kept hvoices.mints hd hgave ht)⟩
    · obtain ⟨q, rfl, hsealed, hepoch, -, hchallenge⟩ := hvoices.packet datagram (Option.mem_toList.mp hmem)
      rw [hsending] at hsealed
      obtain ⟨rfl, rfl⟩ := Prod.mk.inj (Option.some.inj ((hsealed.openDatagram hc).symm.trans hopen))
      exact ⟨howns.awaits (hchallenge hkind), fun _ => hepoch⟩
  · rw [hvoices.keys]
    exact h.lead

/-- The step that rotates: who echoes the candidate's token has read the epoch it was asked for in. -/
theorem Stands.hears (h : Stands c root role emitted peer e) (hsending : e.keys.sending = role)
    (hdistinct : e'.transport.entropy.Distinct)
    (hechoed : ∀ datagram ∈ peer.emitted, ∀ header body, header.kind = .response →
      c.openDatagram root role.opposite datagram = some (header, body) →
      ∃ e, peer.holding = .live e ∧ Asked c root role emitted e body)
    {datagram : List UInt8} {result : Except RecvError (Received Addr)}
    (hauth : (c.openDatagram root role.opposite datagram).isSome = true → datagram ∈ peer.emitted)
    (hhears : Endpoint.Hears c root e e' datagram result) : Stands c root role emitted peer e' := by
  refine ⟨hhears.rekeyAt.trans h.rekeyAt, h.owns.mints hhears.mints, fun d hd header body hkind hopen => ?_, ?_⟩
  · obtain ⟨⟨token, hgave, rfl⟩, hepoch⟩ := h.asked d hd header body hkind hopen
    refine ⟨⟨token, hhears.mints.later.gave hgave, rfl⟩, fun ht => ?_⟩
    obtain hsame | ⟨-, hnone, -⟩ := hhears.epoch
    · rw [hsame]
      exact hepoch (Carrier.token_kept hhears.mints hdistinct hgave ht)
    · rw [hnone] at ht
      cases ht
  · obtain hsame | ⟨hnext, -, header, body, hkind, hopen, htoken⟩ := hhears.epoch
    · rw [hsame]
      exact h.lead
    · rw [hsending] at hopen
      obtain ⟨e₁, hlive, d, hd, header', hkind', hopen', hread⟩ :=
        hechoed datagram (hauth (by rw [hopen]; rfl)) header body hkind hopen
      have hepoch := (h.asked d hd header' body hkind' hopen').2 htoken
      refine .inr ⟨e₁, hlive, ?_⟩
      rw [hnext, ← hepoch]
      exact Nat.add_le_add_right hread 1

variable [DecidableEq Addr]

theorem Attends.recv (h : Attends c root role.opposite emitted e) (hcoh : e.keys.Coherent c root)
    (hsending : e.keys.sending = role) {src : Addr} {now : ℕ} {datagram : List UInt8}
    {result : Except RecvError (Received Addr)} (hrecv : e.recv c (carriage Addr) src now datagram = (e', result))
    (hauth : (c.openDatagram root role.opposite datagram).isSome = true → datagram ∈ emitted) :
    Attends c root role.opposite emitted e' := by
  obtain ⟨hle, htook, hmoved⟩ := Endpoint.epoch_recv hcoh hrecv
  have hhears := Endpoint.hears_recv hcoh hrecv
  rw [hsending] at hmoved
  refine ⟨fun dest body hanswer => ?_, ?_⟩
  · obtain hsame | ⟨hok, header, body', src', hkind, hopen, hanswer'⟩ := hhears.answer
    · exact (h.answer dest body (hsame.symm.trans hanswer)).mono (List.Subset.refl _) hle
    · obtain ⟨rfl, rfl⟩ := Prod.mk.inj (Option.some.inj (hanswer'.symm.trans hanswer))
      rw [hsending] at hopen
      have hepoch := htook hok
      rw [epochOf_eq (decode_of_openDatagram hopen)] at hepoch
      exact ⟨datagram, hauth (by rw [hopen]; rfl), header, hkind, hopen, hepoch⟩
  · obtain hsame | ⟨hopen, hepoch⟩ := hmoved
    · exact hsame ▸ h.read
    · exact .inr ⟨datagram, hauth hopen, hepoch⟩

/-! ### Over a run -/

/-- One call of a side that keeps to its key, by what it does to the endpoint and to what was
emitted; what opens was emitted by the other side. -/
inductive Turns (c : Cipher Secret Key) (root : Secret) (role : Direction)
    (peer p p' : Party Secret Key (Carrier Addr) Addr) : Prop where
  | opened {cid : ConnectionId} {r : Carrier Addr} : p.holding = .offer → r.Blank →
      p'.holding = .live (.new c cid root r role) → p'.emitted = p.emitted → Turns c root role peer p p'
  | accepted {cid : ConnectionId} {r : Carrier Addr} {src : Addr} {now : ℕ} {datagram : List UInt8}
      {e : Endpoint Secret Key (Carrier Addr) Addr} {received : Received Addr} : p.holding = .offer → r.Blank →
      Endpoint.recv c (carriage Addr) (.new c cid root r role) src now datagram = (e, .ok received) →
      ((c.openDatagram root role.opposite datagram).isSome = true → datagram ∈ peer.emitted) →
      p'.holding = .accepted e → p'.emitted = p.emitted → Turns c root role peer p p'
  | rejected : p'.holding = p.holding → p'.emitted = p.emitted → Turns c root role peer p p'
  | committed {e : Endpoint Secret Key (Carrier Addr) Addr} : p.holding = .accepted e → p'.holding = .live e →
      p'.emitted = p.emitted → Turns c root role peer p p'
  | released {e : Endpoint Secret Key (Carrier Addr) Addr} : p.holding = .accepted e → p'.holding = .offer →
      p'.emitted = p.emitted → Turns c root role peer p p'
  | voiced {e e' : Endpoint Secret Key (Carrier Addr) Addr} {sent : Option (Addr × List UInt8)} : p.holding = .live e →
      e.keys.sending = role → Endpoint.Voices c root e e' sent → p'.holding = .live e' →
      p'.emitted = p.emitted ++ (sent.map Prod.snd).toList → Turns c root role peer p p'
  | heard {e e' : Endpoint Secret Key (Carrier Addr) Addr} {src : Addr} {now : ℕ} {datagram : List UInt8}
      {result : Except RecvError (Received Addr)} : p.holding = .live e → e.keys.sending = role →
      e.keys.Coherent c root → e.recv c (carriage Addr) src now datagram = (e', result) →
      ((c.openDatagram root role.opposite datagram).isSome = true → datagram ∈ peer.emitted) →
      p'.holding = .live e' → p'.emitted = p.emitted → Turns c root role peer p p'

theorem Turns.emitted_subset (h : Turns c root role peer p p') : p.emitted ⊆ p'.emitted := by
  cases h with
  | voiced _ _ _ _ hemitted => rw [hemitted]; exact List.subset_append_left _ _
  | opened _ _ _ hemitted | accepted _ _ _ _ _ hemitted | rejected _ hemitted | committed _ _ hemitted
  | released _ _ hemitted | heard _ _ _ _ _ _ hemitted => rw [hemitted]; exact List.Subset.refl _

theorem Echo.sender (hc : c.Lawful) (h : Echo c root role p peer) (ht : Turns c root role peer p p')
    (hd : ∀ e ∈ p'.holding.endpoint, e.transport.entropy.Distinct) : Echo c root role p' peer := by
  have hempty : (∀ e, p.holding ≠ .live e) → p.emitted = [] := fun hidle => by
    by_contra hne
    obtain ⟨e, hlive⟩ := h.speaks hne
    exact hidle e hlive
  have hmore := ht.emitted_subset
  refine ⟨?_, ?_, fun e he => (h.attends e he).mono hmore, fun datagram hmem header body hkind hopen => ?_⟩
  · cases ht with
    | opened _ _ hholding | committed _ hholding | voiced _ _ _ hholding | heard _ _ _ _ _ hholding =>
      exact fun _ => ⟨_, hholding⟩
    | accepted hoffer _ _ _ _ hemitted =>
      rw [hemitted, hempty fun e hlive => by cases hoffer.symm.trans hlive]
      exact fun hne => absurd rfl hne
    | released haccepted _ hemitted =>
      rw [hemitted, hempty fun e hlive => by cases haccepted.symm.trans hlive]
      exact fun hne => absurd rfl hne
    | rejected hholding hemitted =>
      rw [hholding, hemitted]
      exact h.speaks
  · intro e' he'
    have hdistinct := hd e' he'
    cases ht with
    | opened hoffer hblank hholding hemitted =>
      obtain rfl := Option.some.inj ((endpoint_live hholding).symm.trans he')
      rw [hemitted, hempty fun e hlive => by cases hoffer.symm.trans hlive]
      exact stands_new hblank
    | accepted hoffer hblank hrecv hauth hholding hemitted =>
      rw [hholding] at he'
      cases he'
      have hnone := hempty fun e hlive => by cases hoffer.symm.trans hlive
      rw [hemitted, hnone]
      exact (stands_new hblank).hears rfl hdistinct (hnone ▸ h.echoed) hauth
        (Endpoint.hears_recv (KeySchedule.coherent_new root role) hrecv)
    | rejected hholding hemitted =>
      rw [hemitted]
      exact h.stands e' (hholding ▸ he')
    | committed haccepted hholding hemitted =>
      rw [hholding] at he'
      cases he'
      rw [hemitted]
      exact h.stands _ (by rw [haccepted]; rfl)
    | released _ hholding =>
      rw [hholding] at he'
      cases he'
    | voiced hlive hsending hvoices hholding hemitted =>
      obtain rfl := Option.some.inj ((endpoint_live hholding).symm.trans he')
      rw [hemitted]
      exact (h.stands _ (endpoint_live hlive)).voices hc hsending hdistinct hvoices
    | heard hlive hsending hcoh hrecv hauth hholding hemitted =>
      obtain rfl := Option.some.inj ((endpoint_live hholding).symm.trans he')
      rw [hemitted]
      exact (h.stands _ (endpoint_live hlive)).hears hsending hdistinct h.echoed hauth (Endpoint.hears_recv hcoh hrecv)
  · obtain ⟨e, hlive, hasked⟩ := h.echoed datagram hmem header body hkind hopen
    exact ⟨e, hlive, hasked.mono hmore (Nat.le_refl _)⟩

theorem Turns.live (h : Turns c root role peer p p') (hlive : p.holding = .live e) :
    ∃ e', p'.holding = .live e' ∧ e.keys.recv.epoch.val ≤ e'.keys.recv.epoch.val := by
  cases h with
  | opened hother | accepted hother | committed hother | released hother => cases hother.symm.trans hlive
  | rejected hholding => exact ⟨e, hholding.trans hlive, Nat.le_refl _⟩
  | voiced hlive' _ hvoices hholding =>
    obtain rfl := Holding.live.inj (hlive.symm.trans hlive')
    exact ⟨_, hholding, by rw [hvoices.keys]⟩
  | heard hlive' _ hcoh hrecv _ hholding =>
    obtain rfl := Holding.live.inj (hlive.symm.trans hlive')
    exact ⟨_, hholding, (Endpoint.epoch_recv hcoh hrecv).1⟩

theorem Echo.reader (hc : c.Lawful) (h : Echo c root role.opposite p peer) (ht : Turns c root role p peer peer') :
    Echo c root role.opposite p peer' := by
  refine ⟨h.speaks, fun e he => ?_, fun e' he' => ?_, fun datagram hmem header body hkind hopen => ?_⟩
  · obtain ⟨hat, howns, hasked, hlead⟩ := h.stands e he
    refine ⟨hat, howns, hasked, hlead.imp_right fun ⟨e₁, hlive, hle⟩ => ?_⟩
    obtain ⟨e₂, hlive', hread⟩ := ht.live hlive
    exact ⟨e₂, hlive', hle.trans (Nat.add_le_add_right hread 1)⟩
  · cases ht with
    | opened _ _ hholding =>
      obtain rfl := Option.some.inj ((endpoint_live hholding).symm.trans he')
      exact attends_new
    | accepted _ _ hrecv hauth hholding =>
      rw [hholding] at he'
      cases he'
      exact attends_new.recv (KeySchedule.coherent_new root role) rfl hrecv hauth
    | rejected hholding => exact h.attends e' (hholding ▸ he')
    | committed haccepted hholding =>
      rw [hholding] at he'
      cases he'
      exact h.attends _ (by rw [haccepted]; rfl)
    | released _ hholding =>
      rw [hholding] at he'
      cases he'
    | voiced hlive _ hvoices hholding =>
      obtain rfl := Option.some.inj ((endpoint_live hholding).symm.trans he')
      exact (h.attends _ (endpoint_live hlive)).voices hvoices
    | heard hlive hsending hcoh hrecv hauth hholding =>
      obtain rfl := Option.some.inj ((endpoint_live hholding).symm.trans he')
      exact (h.attends _ (endpoint_live hlive)).recv hcoh hsending hrecv hauth
  · -- What was echoed before, or the answer that was owed.
    have hold : datagram ∈ peer.emitted →
        ∃ e, peer'.holding = .live e ∧ Asked c root role.opposite p.emitted e body := fun hmem => by
      obtain ⟨e, hlive, hasked⟩ := h.echoed datagram hmem header body hkind hopen
      obtain ⟨e', hlive', hread⟩ := ht.live hlive
      exact ⟨e', hlive', hasked.mono (List.Subset.refl _) hread⟩
    cases ht with
    | opened _ _ _ hemitted | accepted _ _ _ _ _ hemitted | rejected _ hemitted | committed _ _ hemitted
    | released _ _ hemitted | heard _ _ _ _ _ _ hemitted => exact hold (hemitted ▸ hmem)
    | voiced hlive hsending hvoices hholding hemitted =>
      rw [hemitted] at hmem
      obtain hmem | hmem := List.mem_append.mp hmem
      · exact hold hmem
      · obtain ⟨q, rfl, hsealed, -, hresponse, -⟩ := hvoices.packet datagram (Option.mem_toList.mp hmem)
        rw [hsending] at hsealed
        rw [Direction.opposite_opposite] at hopen
        obtain ⟨rfl, rfl⟩ := Prod.mk.inj (Option.some.inj ((hsealed.openDatagram hc).symm.trans hopen))
        obtain ⟨dest, hanswer⟩ := hresponse hkind
        refine ⟨_, hholding, ((h.attends _ (endpoint_live hlive)).answer dest _ hanswer).mono (List.Subset.refl _) ?_⟩
        rw [hvoices.keys]

def rotates : Call Addr → Bool
  | .rotate | .rekeyEvery _ => true
  | _ => false

def packetsOf {τ : Type*} (p : Party Secret Key τ Addr) : ℕ := (p.holding.endpoint.map Endpoint.next).getD 0

/-- No owner asks for rotations, and the packets of a side do not yet fill the interval there is. -/
def Steady {τ : Type*} (s : Direction → Party Secret Key τ Addr) (label : Direction × Call Addr) : Prop :=
  rotates label.2 = false ∧ packetsOf (s label.1) < rekeyAfter

instance {τ : Type*} (s : Direction → Party Secret Key τ Addr) (label : Direction × Call Addr) :
    Decidable (Steady s label) :=
  inferInstanceAs (Decidable (_ ∧ _))

variable {cid : ConnectionId} {dialling listening : Side}

theorem turns_of_next {call : Call Addr}
    (hown : ∀ e, p.holding = .live e → Own (carried c root cid dialling listening) role e)
    (hat : ∀ e, p.holding = .live e → e.next < e.rekeyAt) (hcall : rotates call = false)
    (hauth : ∀ src now datagram, call = .recv src now datagram ∨ call = .accept src now datagram →
      (c.openDatagram root role.opposite datagram).isSome = true → datagram ∈ peer.emitted)
    (h : next (carried c root cid dialling listening) role p call = some p') : Turns c root role peer p p' := by
  cases call with
  | rotate | rekeyEvery packets => cases hcall
  | connect peer =>
    dsimp only [next] at h
    split at h
    · cases h
      exact .opened ‹_› ⟨rfl, rfl⟩ rfl rfl
    · cases h
  | listen peer =>
    dsimp only [next] at h
    split at h
    · cases h
      exact .opened ‹_› ⟨rfl, rfl⟩ rfl rfl
    · cases h
  | accept src now datagram =>
    dsimp only [next] at h
    split at h
    · rename_i hoffer
      split at h
      · rename_i e received haccept
        cases h
        exact .accepted hoffer ⟨rfl, rfl⟩ (Endpoint.recv_of_accept haccept) (hauth _ _ _ (.inr rfl)) rfl rfl
      · cases h
        exact .rejected rfl rfl
    · cases h
  | commit =>
    dsimp only [next] at h
    split at h
    · cases h
      exact .committed ‹_› rfl rfl
    · cases h
  | release =>
    dsimp only [next] at h
    split at h
    · cases h
      exact .released ‹_› rfl rfl
    · cases h
  | send frame now =>
    obtain ⟨e, hlive, h⟩ := exists_of_onLive h
    obtain ⟨⟨e', result⟩, hsend, rfl⟩ := Option.map_eq_some_iff.mp h
    have hvoices := Endpoint.voices_send (hown e hlive).coherent (hat e hlive) hsend
    cases result with
    | error error => exact .voiced hlive (hown e hlive).sending hvoices rfl rfl
    | ok sent => exact .voiced hlive (hown e hlive).sending hvoices rfl rfl
  | close now =>
    obtain ⟨e, hlive, h⟩ := exists_of_onLive h
    obtain ⟨⟨e', result⟩, hclose, rfl⟩ := Option.map_eq_some_iff.mp h
    exact .voiced hlive (hown e hlive).sending (Endpoint.voices_close (hown e hlive).coherent (hat e hlive) hclose) rfl rfl
  | pollTransmit now =>
    obtain ⟨e, hlive, h⟩ := exists_of_onLive h
    obtain ⟨⟨e', sent⟩, hpoll, rfl⟩ := Option.map_eq_some_iff.mp h
    exact .voiced hlive (hown e hlive).sending ((Endpoint.polled_pollTransmit hpoll).voices (hown e hlive).coherent (hat e hlive))
      rfl rfl
  | recv src now datagram =>
    obtain ⟨e, hlive, h⟩ := exists_of_onLive h
    have hown := hown e hlive
    split at h
    · cases h
      exact .heard hlive hown.sending hown.coherent ‹_› (hauth _ _ _ (.inl rfl)) rfl rfl
    · cases h
      exact .heard hlive hown.sending hown.coherent ‹_› (hauth _ _ _ (.inl rfl)) rfl rfl
  | pathRefused carries now =>
    obtain ⟨e, hlive, h⟩ := exists_of_onLive h
    cases h
    have hvoices : Endpoint.Voices c root e (e.pathRefused (carriage Addr) carries now) none :=
      Endpoint.voices_nothing (Carrier.sameTokens_of_eq rfl rfl).mints rfl rfl rfl rfl
    exact .voiced hlive (hown e hlive).sending hvoices rfl rfl

variable {s : Direction → Party Secret Key (Carrier Addr) Addr}

section

variable (st : Setting Secret Key (Carrier Addr) Addr) (s : Direction → Party Secret Key (Carrier Addr) Addr)
  (label : Direction × Call Addr)

def Unrepeated : Prop :=
  ∀ s' ∈ (system st).next s label, ∀ e ∈ (s' label.1).holding.endpoint, e.transport.entropy.Distinct

/-- Nothing is forged, no token is drawn twice, and the keys rotate by migrations alone. -/
def Kept : Prop := Authentic st s label ∧ Unrepeated st s label ∧ Steady s label

/-- Nothing is forged, no token is drawn twice, and no owner asks for a rotation. -/
def Unasked : Prop := Authentic st s label ∧ Unrepeated st s label ∧ rotates label.2 = false

instance : Decidable (Unrepeated st s label) :=
  inferInstanceAs (Decidable (∀ s' ∈ (system st).next s label, ∀ e ∈ (s' label.1).holding.endpoint, _))

instance : Decidable (Kept st s label) := inferInstanceAs (Decidable (_ ∧ _ ∧ _))

instance : Decidable (Unasked st s label) := inferInstanceAs (Decidable (_ ∧ _ ∧ _))

end

section

variable (hc : c.Lawful)
  (h : (system (carried c root cid dialling listening)).Via (Kept (carried c root cid dialling listening)) s)
  (side : Direction)

include hc h side

theorem echo_kept : Echo c root side (s side) (s side.opposite) := by
  induction h generalizing side with
  | init hs =>
    obtain rfl := hs
    exact ⟨fun hne => absurd rfl hne, (fun _ he => nomatch he), (fun _ he => nomatch he), nofun⟩
  | @step s s' label hvia hok hs ih =>
    obtain ⟨role, call⟩ := label
    obtain ⟨hauth, hdistinct, hrotates, hpackets⟩ := hok
    obtain ⟨log, hlog⟩ := exists_reads hc (hvia.mono fun _ _ hkept => hkept.1)
    have hafter := hdistinct _ hs
    obtain ⟨p', hnext, rfl⟩ := Option.map_eq_some_iff.mp hs
    rw [Function.update_self] at hafter
    have hturns : Turns c root role (s role.opposite) (s role) p' := by
      refine turns_of_next (fun e hlive => (hlog role).1.own (endpoint_live hlive)) (fun e hlive => ?_)
        hrotates (fun src now datagram hcall hopen => ?_) hnext
      · rw [((ih role).stands e (endpoint_live hlive)).rekeyAt]
        rwa [packetsOf, endpoint_live hlive] at hpackets
      · obtain rfl | rfl := hcall
        · exact hauth hopen
        · exact hauth hopen
    have hother : role.opposite ≠ role := by cases role <;> nofun
    by_cases hside : side = role
    · subst hside
      rw [Function.update_self, Function.update_of_ne hother]
      exact (ih side).sender hc hturns hafter
    · obtain rfl : side = role.opposite := by cases side <;> cases role <;> simp_all [Direction.opposite]
      rw [Function.update_of_ne hside, Direction.opposite_opposite, Function.update_self]
      have hecho := ih role.opposite
      rw [Direction.opposite_opposite] at hecho
      exact hecho.reader hc hturns

/-- However often the paths move, a side seals at most one epoch ahead of what the other side
reads, and the other side can derive the key of what is sealed next. -/
theorem epochs_within_reach (he : (s side).holding.endpoint = some e) (he' : (s side.opposite).holding.endpoint = some e') :
    e.keys.send.epoch.val ≤ e'.keys.recv.epoch.val + 1 ∧ e'.keys.Reached e.keys.send.epoch := by
  have hecho := echo_kept hc h side
  have hlead : e.keys.send.epoch.val ≤ e'.keys.recv.epoch.val + 1 := by
    obtain hzero | ⟨e₁, hlive, hle⟩ := (hecho.stands e he).lead
    · rw [hzero]
      exact Nat.zero_le _
    · obtain rfl := Option.some.inj ((endpoint_live hlive).symm.trans he')
      exact hle
  have hread : e'.keys.recv.epoch.val ≤ e.keys.send.epoch.val := by
    obtain hzero | ⟨datagram, hmem, hepoch⟩ := (hecho.attends e' he').read
    · rw [hzero]
      exact Nat.zero_le _
    · obtain ⟨e₁, hlive⟩ := hecho.speaks (List.ne_nil_of_mem hmem)
      obtain rfl := Option.some.inj ((endpoint_live hlive).symm.trans he)
      rw [← hepoch]
      exact (climbs_and_trails hc (h.mono fun _ _ hkept => hkept.1) side).1.reached _ hlive datagram hmem
  refine ⟨hlead, ?_⟩
  obtain hsame | hahead := hread.eq_or_lt
  · exact .inl (Fin.ext hsame.symm)
  · exact .inr (.inr ⟨hahead, hlead.trans (Nat.add_le_add_left (by decide) _)⟩)

end

/-- A frame each way, the answer from a new address; the new address is challenged and echoes. -/
def moveRun : List (Direction × Call ℕ) :=
  [(.clientToServer, .connect 5), (.clientToServer, .send [104] 0),
    (.serverToClient, .accept 1 0 (sampled .clientToServer .frame 0 [104])), (.serverToClient, .commit),
    (.serverToClient, .send [105] 0), (.clientToServer, .recv 6 0 (sampled .serverToClient .frame 0 [105])),
    (.clientToServer, .pollTransmit 0),
    (.serverToClient, .recv 1 0 (sampled .clientToServer .challenge 1 (List.replicate 8 0))),
    (.serverToClient, .pollTransmit 0),
    (.clientToServer, .recv 6 0 (sampled .serverToClient .response 1 (List.replicate 8 0)))]

theorem epochs_within_reach_moveRun : ∃ s e e', (system sample).Via (Kept sample) s ∧
    (s .clientToServer).holding.endpoint = some e ∧ (s .serverToClient).holding.endpoint = some e' ∧
    e.keys.send.epoch.val = 1 ∧ e'.keys.recv.epoch.val = 0 ∧
    e.keys.send.epoch.val ≤ e'.keys.recv.epoch.val + 1 ∧ e'.keys.Reached e.keys.send.epoch := by
  obtain ⟨s, hvia, hp⟩ : ∃ s, (system sample).Via (Kept sample) s ∧
      ((s .clientToServer).holding.endpoint.any fun e => (s .serverToClient).holding.endpoint.any fun e' =>
        decide (e.keys.send.epoch.val = 1 ∧ e'.keys.recv.epoch.val = 0)) = true :=
    System.Via.of_run (fun _ => start) moveRun rfl (by decide +kernel)
  obtain ⟨e, he, hp⟩ := (Option.any_eq_true _ _).1 hp
  obtain ⟨e', he', hp⟩ := (Option.any_eq_true _ _).1 hp
  obtain ⟨hsend, hread⟩ := of_decide_eq_true hp
  exact ⟨s, e, e', hvia, he, he', hsend, hread, epochs_within_reach lawful_plain hvia .clientToServer he he'⟩

end Pair

/-! ### Two rotations in a row

The interval after which a key is rotated is counted in all the packets of a side, and a
migration does not begin it anew. A side that has almost filled it when its peer's path moves
rotates twice, and the other side may have read nothing of either epoch. -/

variable {τ : Type*}

def Party.atop (log : List (List UInt8)) (p : Party Secret Key τ Addr) : Party Secret Key τ Addr :=
  { p with emitted := log ++ p.emitted }

theorem Party.next_atop (st : Setting Secret Key τ Addr) (role : Direction) (log : List (List UInt8))
    (p : Party Secret Key τ Addr) (call : Call Addr) :
    next st role (p.atop log) call = (next st role p call).map (atop log) := by
  have hemit : ∀ e out, (p.atop log).emit e out = (p.emit e out).atop log := fun e out => by
    simp only [emit, atop, List.append_assoc]
  obtain ⟨holding, emitted, sent, arrived, admitted, delivered⟩ := p
  cases holding with
  | offer =>
    cases call with
    | accept src now datagram =>
      cases role with
      | clientToServer => rfl
      | serverToClient =>
        dsimp only [next, atop]
        split <;> rfl
    | connect peer | listen peer => cases role <;> rfl
    | _ => rfl
  | accepted e => cases call <;> rfl
  | live e =>
    cases call with
    | send frame now =>
      dsimp only [next, onLive, atop]
      rw [Option.map_map]
      refine congrFun (congrArg Option.map (funext fun out => ?_)) _
      obtain ⟨e', result⟩ := out
      cases result with
      | ok sealed =>
        have hframe := congrArg (fun p : Party Secret Key τ Addr => { p with sent := sent ++ [(e.next, frame)] })
          (hemit e' (some sealed.2))
        exact hframe
      | error error => exact hemit _ _
    | close now =>
      dsimp only [next, onLive, atop]
      rw [Option.map_map]
      exact congrFun (congrArg Option.map (funext fun _ => hemit _ _)) _
    | pollTransmit now =>
      dsimp only [next, onLive, atop]
      rw [Option.map_map]
      exact congrFun (congrArg Option.map (funext fun _ => hemit _ _)) _
    | recv src now datagram =>
      dsimp only [next, onLive, atop]
      split <;> rfl
    | rotate | pathRefused carries now | rekeyEvery packets => exact congrArg some (hemit _ _)
    | _ => rfl

namespace Pair

open Party

def atop (log : List (List UInt8)) (s : Direction → Party Secret Key τ Addr) : Direction → Party Secret Key τ Addr
  | .clientToServer => (s .clientToServer).atop log
  | .serverToClient => s .serverToClient

variable {st : Setting Secret Key τ Addr} {s s' : Direction → Party Secret Key τ Addr} {log log' : List (List UInt8)}

theorem next_atop (label : Direction × Call Addr) :
    (system st).next (atop log s) label = ((system st).next s label).map (atop log) := by
  obtain ⟨role, call⟩ := label
  dsimp only [system]
  rw [Option.map_map]
  cases role with
  | clientToServer =>
    rw [atop, Party.next_atop, Option.map_map]
    refine congrFun (congrArg Option.map (funext fun p => funext fun side => ?_)) _
    cases side <;> rfl
  | serverToClient =>
    refine congrFun (congrArg Option.map (funext fun p => funext fun side => ?_)) _
    cases side <;> rfl

theorem holding_atop (side : Direction) : (atop log s side).holding = (s side).holding := by
  cases side <;> rfl

theorem emitted_atop (h : log ⊆ log') (side : Direction) : (atop log s side).emitted ⊆ (atop log' s side).emitted := by
  cases side with
  | clientToServer => exact List.append_subset.mpr ⟨List.subset_append_of_subset_left _ h, List.subset_append_right _ _⟩
  | serverToClient => exact List.Subset.refl _

theorem authentic_atop (h : log ⊆ log') {label : Direction × Call Addr} (hauth : Authentic st (atop log s) label) :
    Authentic st (atop log' s) label := by
  obtain ⟨role, call⟩ := label
  cases call with
  | recv src now datagram | accept src now datagram => exact fun hopen => emitted_atop h _ (hauth hopen)
  | _ => trivial

/-! ### Keep-alives -/

section Carried

variable {st : Setting Secret Key (Carrier Addr) Addr} {s s' : Direction → Party Secret Key (Carrier Addr) Addr}

theorem unasked_atop (h : log ⊆ log') {label : Direction × Call Addr} (hok : Unasked st (atop log s) label) :
    Unasked st (atop log' s) label := by
  obtain ⟨hauth, hdistinct, hrotates⟩ := hok
  refine ⟨authentic_atop h hauth, fun s₁ hs₁ e he => ?_, hrotates⟩
  rw [next_atop] at hs₁
  obtain ⟨s₂, hs₂, rfl⟩ := Option.map_eq_some_iff.mp hs₁
  rw [holding_atop] at he
  refine hdistinct (atop log s₂) ?_ e (by rw [holding_atop]; exact he)
  rw [next_atop, hs₂]
  rfl

/-- What a run needs of the datagrams emitted before it, any log has that has those. -/
theorem via_atop (h : log ⊆ log') {steps : List (Direction × Call Addr)}
    (hvia : (system st).Via (Unasked st) (atop log' s))
    (hrun : ((system st).guarded fun s label => Unasked st (atop log s) label).run s steps = some s') :
    (system st).Via (Unasked st) (atop log' s') := by
  refine System.run_invariant (P := fun s => (system st).Via (Unasked st) (atop log' s)) hrun hvia
    fun label _ s s₁ hvia hs₁ => ?_
  dsimp only [System.guarded] at hs₁
  split_ifs at hs₁ with hok
  refine hvia.step (unasked_atop h hok) ?_
  rw [next_atop, hs₁]
  rfl

end Carried

/-- A side that only ever keeps the path alive, after `n` packets. -/
def resting (n : ℕ) : Endpoint ℕ (Direction × ℕ) (Carrier ℕ) ℕ :=
  { Endpoint.new sample.cipher sample.cid sample.root (sample.dialled 5) .clientToServer with
    next := n
    quietSince := some (n * keepaliveAfter) }

section Idle

variable {c : Cipher Secret Key} {t : Transport τ Addr} {e : Endpoint Secret Key τ Addr} {now since : ℕ}

theorem poll_idle (hexpire : t.expire e.transport now = e.transport) (hanswer : e.answer = none)
    (hdebt : e.debt = .settled) (hchallenge : t.pollChallenge e.transport now = (e.transport, none))
    (hprobe : t.pollProbe e.transport now = (e.transport, none)) :
    e.pollTransmit c t now = e.keepalive c t now := by
  have hanswered : e.sendAnswer c t now = some (e, none) := by
    unfold Endpoint.sendAnswer
    split
    · rfl
    · cases hanswer.symm.trans ‹_›
  have hacknowledged : e.acknowledge c t now = some (e, none) := by
    unfold Endpoint.acknowledge
    split
    · rfl
    · cases hdebt.symm.trans ‹_›
  have hprobed : e.probePathMtu c t now = some (e, none) := by
    unfold Endpoint.probePathMtu
    rw [hprobe]
  unfold Endpoint.pollTransmit Endpoint.challengeOrRest
  simp only [hexpire, hanswered, hacknowledged, hchallenge, hprobed, Option.bind_some]

theorem keepalive_due (hrole : e.role = .clientToServer) (hclosed : e.closed = false) (hpoll : e.sealedSincePoll = false)
    (hsince : e.quietSince = some since) (hdue : since + keepaliveAfter ≤ now) (hnext : e.next < e.rekeyAt)
    {head : List UInt8} (hhead : Header.encode ⟨.alive, e.cid, e.keys.send.epoch, e.next⟩ = some head)
    (hmay : ∀ size, t.maySend e.transport (t.current e.transport) size = true)
    (hspent : ∀ size, t.spent e.transport (t.current e.transport) size = e.transport) :
    e.keepalive c t now = some ({ e with next := e.next + 1, quietSince := some now },
      some (t.current e.transport, head ++ (c.encrypt e.keys.sendKey head e.next []).1 ++
        (c.encrypt e.keys.sendKey head e.next []).2)) := by
  obtain ⟨cid, keys, next, window, transport, answer, closed, role, sealedSincePoll, quietSince, debt, every, at_⟩ := e
  subst hrole hclosed hpoll hsince
  have hrekey : ∀ e : Endpoint Secret Key τ Addr, e.next = next → e.rekeyAt = at_ → e.rekey c = some e :=
    fun e hn ha => if_neg (not_le.mpr (by rw [hn, ha]; exact hnext))
  have hwait : ¬ now - since < keepaliveAfter := by omega
  simp [Endpoint.keepalive, Endpoint.attempt, Endpoint.seal_, hwait, hrekey, hhead, hmay, hspent, Kind.tracked, Except.toOption]

end Idle

theorem sampled_alive {n : ℕ} (h : n < rekeyAfter) : ∃ head, Header.encode ⟨.alive, sample.cid, Epoch.first, n⟩ = some head ∧
    sampled .clientToServer .alive n [] = head ++ [] ++ Party.plain.stamp (.clientToServer, sample.root) n := by
  obtain ⟨head, hhead⟩ : ∃ head, Header.encode ⟨.alive, sample.cid, Epoch.first, n⟩ = some head :=
    ⟨_, if_pos ((Nat.le_of_lt h).trans (by decide))⟩
  exact ⟨head, hhead, by rw [sampled, hhead, Option.getD_some]⟩

theorem poll_resting {n : ℕ} (h : n < rekeyAfter) :
    (resting n).pollTransmit sample.cipher (carriage ℕ) ((n + 1) * keepaliveAfter) =
      some (resting (n + 1), some (5, sampled .clientToServer .alive n [])) := by
  have hdue : n * keepaliveAfter + keepaliveAfter ≤ (n + 1) * keepaliveAfter := (Nat.succ_mul _ _).ge
  obtain ⟨head, hhead, hsampled⟩ := sampled_alive h
  rw [poll_idle rfl rfl rfl rfl rfl, keepalive_due rfl rfl rfl rfl hdue h hhead (fun _ => rfl) (fun _ => rfl), hsampled]
  rfl

def alives (n : ℕ) : List (List UInt8) := (List.range n).map fun i => sampled .clientToServer .alive i []

/-- A pair of which one side rests and the other has not begun, but for what was emitted. -/
def waiting (n : ℕ) : Direction → Party ℕ (Direction × ℕ) (Carrier ℕ) ℕ
  | .clientToServer => { (start : Party ℕ (Direction × ℕ) (Carrier ℕ) ℕ) with holding := .live (resting n) }
  | .serverToClient => start

theorem next_live (st : Setting Secret Key τ Addr) (role : Direction) {p : Party Secret Key τ Addr}
    {e e' : Endpoint Secret Key τ Addr} {now : ℕ} {sent : Option (Addr × List UInt8)} (hlive : p.holding = .live e)
    (hpoll : e.pollTransmit st.cipher st.transport now = some (e', sent)) :
    Party.next st role p (.pollTransmit now) = some (p.emit e' (sent.map Prod.snd)) := by
  dsimp only [Party.next, onLive]
  rw [hlive]
  dsimp only
  rw [hpoll, Option.map_some]

theorem next_waiting {n : ℕ} (h : n < rekeyAfter) :
    (system sample).next (atop (alives n) (waiting n)) (.clientToServer, .pollTransmit ((n + 1) * keepaliveAfter)) =
      some (atop (alives (n + 1)) (waiting (n + 1))) := by
  have hpoll := next_live sample .clientToServer (p := waiting n .clientToServer) rfl (poll_resting h)
  rw [next_atop]
  dsimp only [system]
  rw [hpoll, Option.map_some, Option.map_some]
  refine congrArg some (funext fun side => ?_)
  cases side with
  | serverToClient => rfl
  | clientToServer =>
    have halives : alives n ++ [sampled .clientToServer .alive n []] = alives (n + 1) := by
      rw [alives, alives, List.range_succ, List.map_append]
      rfl
    simp only [atop, Party.atop, Function.update_self, emit, waiting, start, Option.map_some, Option.toList_some,
      List.nil_append, List.append_nil, halives]

theorem unasked_undrawn {s s' : Direction → Party ℕ (Direction × ℕ) (Carrier ℕ) ℕ} {call : Call ℕ}
    {e : Endpoint ℕ (Direction × ℕ) (Carrier ℕ) ℕ} (hnext : (system sample).next s (.clientToServer, call) = some s')
    (hauth : Authentic sample s (.clientToServer, call)) (hrotates : rotates call = false)
    (hheld : (s' .clientToServer).holding = .live e) (hnone : e.transport.entropy.drawn = 0) :
    Unasked sample s (.clientToServer, call) := by
  refine ⟨hauth, fun s₁ hs₁ e₁ he₁ => ?_, hrotates⟩
  obtain rfl := Option.some.inj (hnext.symm.trans hs₁)
  rw [hheld] at he₁
  cases he₁
  exact fun i hi => absurd (hnone ▸ hi) (Nat.not_lt_zero i)

theorem via_waiting {n : ℕ} (h : n ≤ rekeyAfter) : (system sample).Via (Unasked sample) (atop (alives n) (waiting n)) := by
  induction n with
  | zero =>
    have hrun : ((system sample).next (fun _ => start) (.clientToServer, .connect 5)).bind
        ((system sample).next · (.clientToServer, .pollTransmit 0)) = some (atop (alives 0) (waiting 0)) := by
      refine congrArg some (funext fun side => ?_)
      cases side <;> rfl
    obtain ⟨s, hconnect, hpoll⟩ := Option.bind_eq_some_iff.mp hrun
    have hok : Unasked sample (fun _ => start) (.clientToServer, .connect 5) := unasked_undrawn rfl trivial rfl rfl rfl
    exact .step (.step (.init rfl) hok hconnect) (unasked_undrawn hpoll trivial rfl rfl rfl) hpoll
  | succ n ih =>
    have hnext := next_waiting h
    exact .step (ih (Nat.le_of_lt h)) (unasked_undrawn hnext trivial rfl rfl rfl) hnext

theorem epochOf_alive {n : ℕ} (h : n < rekeyAfter) : epochOf (sampled .clientToServer .alive n []) = 0 := by
  obtain ⟨head, hhead, hsampled⟩ := sampled_alive h
  have hdecode : Header.decode (head ++ ([] ++ Party.plain.stamp (.clientToServer, sample.root) n)) = .ok _ :=
    Header.decode_encode hhead (by simp [Party.plain.stamp, tagBytes])
  rw [hsampled, List.append_assoc, epochOf_eq hdecode]
  rfl

/-- The packets of the interval but for two. -/
def almost : ℕ := rekeyAfter - 2

theorem length_filter_alives (epoch : ℕ) :
    ((alives almost).filter (epochOf · = epoch)).length + ([0, 1, 2].filter (· = epoch)).length < rekeyAfter := by
  have hall : ((alives almost).filter (epochOf · = epoch)).length ≤ almost := by
    refine (List.length_filter_le _ _).trans_eq ?_
    rw [alives, List.length_map, List.length_range]
  have hthree : ([0, 1, 2].filter (· = epoch)).length ≤ 3 := List.length_filter_le _ _
  have hnone : epoch ≠ 0 → (alives almost).filter (epochOf · = epoch) = [] := fun hne => by
    refine List.filter_eq_nil_iff.mpr fun datagram hmem => ?_
    obtain ⟨n, hn, rfl⟩ := List.mem_map.mp hmem
    rw [epochOf_alive ((List.mem_range.mp hn).trans_le (Nat.sub_le _ _))]
    simpa using hne.symm
  by_cases hzero : epoch = 0
  · subst hzero
    have hone : ([0, 1, 2].filter (· = 0)).length = 1 := by decide
    rw [hone]
    exact (Nat.add_le_add_right hall 1).trans_lt (by decide)
  · rw [hnone hzero]
    exact (Nat.add_le_add_left hthree _).trans_lt (by decide)

/-- The other side begins late and answers from a new address. The challenge to it and one
acknowledgement fill the interval, and the frame after them is sealed in the next epoch. -/
def overrun : List (Direction × Call ℕ) :=
  let now := almost * keepaliveAfter
  [(.serverToClient, .accept 1 now (sampled .clientToServer .alive 0 [])), (.serverToClient, .commit),
    (.serverToClient, .send [105] now), (.clientToServer, .recv 6 now (sampled .serverToClient .frame 0 [105])),
    (.clientToServer, .pollTransmit now),
    (.serverToClient, .recv 1 now (sampled .clientToServer .challenge almost (List.replicate 8 0))),
    (.serverToClient, .pollTransmit now),
    (.clientToServer, .recv 6 now (sampled .serverToClient .response 1 (List.replicate 8 0))),
    (.clientToServer, .pollTransmit (now + maxAckDelay)), (.clientToServer, .send [106] (now + maxAckDelay))]

/-- No side seals as many packets as an interval has in any epoch, and yet one seals two
epochs ahead of what the other reads. -/
theorem rotations_outrun_reader : ∃ s e e', (system sample).Via (Unasked sample) s ∧
    (∀ side epoch, ((s side).emitted.filter (epochOf · = epoch)).length < rekeyAfter) ∧
    (s .clientToServer).holding = .live e ∧ (s .serverToClient).holding = .live e' ∧
    e.keys.send.epoch.val = 2 ∧ e'.keys.recv.epoch.val = 0 := by
  have hrun : (((system sample).guarded fun s label =>
      Unasked sample (atop [sampled .clientToServer .alive 0 []] s) label).run (waiting almost) overrun).any (fun s =>
        (s .clientToServer).holding.live?.any fun e => (s .serverToClient).holding.live?.any fun e' =>
          decide (e.keys.send.epoch.val = 2 ∧ e'.keys.recv.epoch.val = 0 ∧
            (s .clientToServer).emitted.map epochOf = [0, 1, 2] ∧ (s .serverToClient).emitted.length = 2)) = true := by
    decide +kernel
  obtain ⟨s, hs, hp⟩ := (Option.any_eq_true _ _).1 hrun
  obtain ⟨e, he, hp⟩ := (Option.any_eq_true _ _).1 hp
  obtain ⟨e', he', hp⟩ := (Option.any_eq_true _ _).1 hp
  obtain ⟨hsend, hread, hepochs, hfew⟩ := of_decide_eq_true hp
  have hfirst : [sampled .clientToServer .alive 0 []] ⊆ alives almost :=
    List.cons_subset.mpr ⟨List.mem_map_of_mem (List.mem_range.mpr (by decide)), List.nil_subset _⟩
  have hvia := via_atop hfirst (via_waiting (Nat.sub_le _ _)) hs
  refine ⟨atop (alives almost) s, e, e', hvia, fun side epoch => ?_,
    (holding_atop _).trans (Holding.live?_eq_some.mp he), (holding_atop _).trans (Holding.live?_eq_some.mp he'),
    hsend, hread⟩
  cases side with
  | serverToClient =>
    change ((s .serverToClient).emitted.filter _).length < _
    exact (List.length_filter_le _ _).trans_lt (by rw [hfew]; decide)
  | clientToServer =>
    change ((alives almost ++ (s .clientToServer).emitted).filter _).length < _
    have hcount : ((s .clientToServer).emitted.filter (epochOf · = epoch)).length =
        ([0, 1, 2].filter (· = epoch)).length := by
      rw [← hepochs, List.filter_map, List.length_map]
      rfl
    rw [List.filter_append, List.length_append, hcount]
    exact length_filter_alives epoch

end Pair

end Braid.Dgram
