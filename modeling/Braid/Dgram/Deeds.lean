import Braid.Dgram.Party

/-! What an endpoint does to its transport, deed by deed. A call of the endpoint is a short
run of deeds: one that speaks expires, polls and emits at most one datagram, which the path
must permit; one that receives tells the path of a datagram that was admitted, and then of
the token or the acknowledgement in it. What holds of a transport over every run of deeds
holds of the transport of every endpoint. -/

namespace Braid.Dgram

open Foundation

inductive Deed (Addr : Type*) where
  | expire (now : ℕ)
  | challenge (now : ℕ)
  | search (now : ℕ)
  | probing (number : ℕ)
  | emit (kind : Kind) (dest : Addr) (size now : ℕ)
  | arrived (src : Addr) (size now : ℕ)
  | answered (src : Addr) (token : List UInt8)
  | migrated
  | acknowledged (ack : Ack) (now : ℕ)
  | refused (carries now : ℕ)

namespace Deed

variable {Addr : Type*}

def emission : Deed Addr → Option (Addr × ℕ)
  | .emit _ dest size _ => some (dest, size)
  | _ => none

/-- A deed of a call that speaks. -/
def speaks : Deed Addr → Bool
  | .expire _ | .challenge _ | .search _ | .probing _ | .emit .. => true
  | _ => false

end Deed

variable {Secret Key τ Addr : Type*}

def Transport.deed (t : Transport τ Addr) : ℕ × τ → Deed Addr → Option (ℕ × τ)
  | (next, r), .expire now => some (next, t.expire r now)
  | (next, r), .challenge now => some (next, (t.pollChallenge r now).1)
  | (next, r), .search now => some (next, (t.pollProbe r now).1)
  | (next, r), .probing number => some (next, t.probing r number)
  | (next, r), .emit kind dest size now =>
    if (kind.tracked && !t.admits r) || !t.maySend r dest size then none
    else
      let r := t.spent r dest size
      some (next + 1, if kind.tracked then t.sealed r next size now else r)
  | (next, r), .arrived src size now => some (next, t.arrived r src size now)
  | (next, r), .answered src token => some (next, (t.answered r src token).1)
  | (next, r), .migrated => some (next, t.migrated r)
  | (next, r), .acknowledged ack now => some (next, t.acknowledged r ack next now)
  | (next, r), .refused carries now => some (next, t.refused r carries now)

theorem Transport.of_emit {t : Transport τ Addr} {next now size : ℕ} {r : τ} {kind : Kind} {dest : Addr} {s : ℕ × τ}
    (h : t.deed (next, r) (.emit kind dest size now) = some s) :
    (kind.tracked = true → t.admits r = true) ∧ t.maySend r dest size = true ∧
      s = (next + 1, if kind.tracked then t.sealed (t.spent r dest size) next size now else t.spent r dest size) := by
  dsimp only [Transport.deed] at h
  split at h
  · cases h
  · rename_i hpermit
    simp only [Bool.or_eq_true, Bool.and_eq_true, Bool.not_eq_true', not_or, not_and, Bool.not_eq_false] at hpermit
    exact ⟨hpermit.1, hpermit.2, (Option.some.inj h).symm⟩

def Transport.system (t : Transport τ Addr) (fresh : τ → Prop) : System (ℕ × τ) (Deed Addr) :=
  ⟨fun s => s.1 = 0 ∧ fresh s.2, t.deed⟩

namespace Endpoint

variable {c : Cipher Secret Key} {t : Transport τ Addr} {fresh : τ → Prop} {e e' e₁ : Endpoint Secret Key τ Addr} {kind : Kind}
  {body : List UInt8} {dest src : Addr} {now : ℕ}

def standing (e : Endpoint Secret Key τ Addr) : ℕ × τ := (e.next, e.transport)

/-- A call that speaks is a run of deeds with the emission it returns. -/
def Speaks (t : Transport τ Addr) (e e' : Endpoint Secret Key τ Addr) (out : Option (Addr × List UInt8)) : Prop :=
  ∃ deeds, (t.system fun _ => True).run e.standing deeds = some e'.standing ∧ (∀ d ∈ deeds, d.speaks = true) ∧
    deeds.filterMap Deed.emission = (out.map fun sent => (sent.1, sent.2.length)).toList

variable {out : Option (Addr × List UInt8)}

theorem speaks_nothing (h : e'.standing = e.standing) : Speaks t e e' none :=
  ⟨[], by rw [System.run_nil, h], nofun, rfl⟩

theorem Speaks.append {out₁ out₂ : Option (Addr × List UInt8)} (h₁ : Speaks t e e₁ out₁) (h₂ : Speaks t e₁ e' out₂)
    (hout : out₁ = none ∧ out₂ = out ∨ out₁ = out ∧ out₂ = none) : Speaks t e e' out := by
  obtain ⟨deeds₁, hrun₁, hspeaks₁, hout₁⟩ := h₁
  obtain ⟨deeds₂, hrun₂, hspeaks₂, hout₂⟩ := h₂
  refine ⟨deeds₁ ++ deeds₂, ?_, fun d hd => ?_, ?_⟩
  · rw [System.run_append, hrun₁, Option.bind_some, hrun₂]
  · exact (List.mem_append.mp hd).elim (hspeaks₁ d) (hspeaks₂ d)
  · rw [List.filterMap_append, hout₁, hout₂]
    obtain ⟨rfl, rfl⟩ | ⟨rfl, rfl⟩ := hout
    · rfl
    · exact List.append_nil _

theorem Speaks.trans (h₁ : Speaks t e e₁ none) (h₂ : Speaks t e₁ e' out) : Speaks t e e' out :=
  h₁.append h₂ (.inl ⟨rfl, rfl⟩)

theorem Speaks.trans_nothing (h₁ : Speaks t e e₁ out) (h₂ : Speaks t e₁ e' none) : Speaks t e e' out :=
  h₁.append h₂ (.inr ⟨rfl, rfl⟩)

/-- One deed, with what it emits. -/
theorem speaks_deed {d : Deed Addr} (h : t.deed e.standing d = some e'.standing) (hspeaks : d.speaks = true)
    (hout : d.emission = out.map fun sent => (sent.1, sent.2.length)) : Speaks t e e' out := by
  have hnext : (t.system fun _ => True).next e.standing d = some e'.standing := h
  refine ⟨[d], ?_, fun d' hd' => List.mem_singleton.mp hd' ▸ hspeaks, ?_⟩
  · rw [System.run_cons_of_next hnext, System.run_nil]
  · rw [← hout]
    cases hemission : d.emission with
    | none => rw [List.filterMap_cons_none hemission]; rfl
    | some sent => rw [List.filterMap_cons_some hemission]; rfl

theorem rekey_standing (h : e.rekey c = some e₁) :
    e₁.standing = e.standing ∧ e₁.closed = e.closed ∧ e₁.rekeyEvery = e.rekeyEvery := by
  unfold rekey at h
  split_ifs at h
  · obtain ⟨keys, -, rfl⟩ := Option.map_eq_some_iff.mp h
    exact ⟨rfl, rfl, rfl⟩
  · cases h
    exact ⟨rfl, rfl, rfl⟩

theorem seal_deed {result : Except SendError (List UInt8)} (h : e.seal_ c t kind body dest now = some (e', result)) :
    match result with
    | .ok datagram => t.deed e.standing (.emit kind dest datagram.length now) = some e'.standing
    | .error _ => e'.standing = e.standing := by
  cases seals h with
  | refused => rfl
  | blocked hdrafts => exact (rekey_standing hdrafts.rekey).1
  | @sealed e₁ datagram hdrafts hadmits hmay =>
    obtain ⟨hstanding, -⟩ := rekey_standing hdrafts.rekey
    have htransport : e₁.transport = e.transport := congrArg Prod.snd hstanding
    have hnext : e₁.next = e.next := congrArg Prod.fst hstanding
    rw [htransport] at hmay
    dsimp only [standing, Transport.deed]
    rw [hadmits, hmay, htransport, hnext]
    rfl

theorem speaks_attempt (h : e.attempt c t kind body dest now = some (e', out)) : Speaks t e e' out := by
  obtain ⟨⟨e₁, result⟩, hseal, heq⟩ := Option.map_eq_some_iff.mp h
  cases heq
  have hdeed := seal_deed hseal
  cases result with
  | error error => exact speaks_nothing hdeed
  | ok datagram => exact speaks_deed hdeed rfl rfl

theorem Polled.speaks (h : Polled c t now e e' out) : Speaks t e e' out := by
  have hidle : ∀ {e e' : Endpoint Secret Key τ Addr}, Timed e e' → Speaks t e e' none := fun hidle =>
    speaks_nothing (Prod.ext hidle.next hidle.transport)
  induction h with
  | timed h => exact hidle h
  | expired e => exact speaks_deed (d := .expire now) rfl rfl rfl
  | @answered e _ _ _ _ _ hattempt =>
    have htaken : Speaks t e { e with answer := none } none := speaks_nothing rfl
    exact htaken.trans (speaks_attempt hattempt)
  | acknowledged hattempt | unprobed hattempt | kept hattempt => exact speaks_attempt hattempt
  | unchallenged | starved => exact speaks_deed (d := .challenge now) rfl rfl rfl
  | @challenged e _ _ _ _ _ hattempt =>
    have hpoll : Speaks t e { e with transport := (t.pollChallenge e.transport now).1 } none :=
      speaks_deed (d := .challenge now) rfl rfl rfl
    exact hpoll.trans (speaks_attempt hattempt)
  | searched e => exact speaks_deed (d := .search now) rfl rfl rfl
  | @probed e _ _ _ _ hattempt =>
    have hpoll : Speaks t e { e with transport := (t.pollProbe e.transport now).1 } none :=
      speaks_deed (d := .search now) rfl rfl rfl
    exact (hpoll.trans (speaks_attempt hattempt)).trans_nothing (speaks_deed (d := .probing e.next) rfl rfl rfl)
  | before _ _ ih₁ ih₂ => exact ih₁.trans ih₂
  | after _ h ih => exact ih.trans_nothing (hidle h)

/-! ### Receiving -/

theorem standing_rotate (e : Endpoint Secret Key τ Addr) : (e.rotate c).1.standing = e.standing := by
  unfold rotate
  split <;> rfl

/-- What a datagram that was admitted then does to the transport. -/
inductive Replies (src : Addr) (now : ℕ) (body : List UInt8) : Kind → List (Deed Addr) → Prop where
  | nothing (kind : Kind) : Replies src now body kind []
  | answered : Replies src now body .response [.answered src body]
  | migrated : Replies src now body .response [.answered src body, .migrated]
  | acknowledged {ack : Ack} : Ack.decode body = some ack → Replies src now body .ack [.acknowledged ack now]

theorem dispatch_deeds (e : Endpoint Secret Key τ Addr) (src : Addr) (now : ℕ) (kind : Kind) (body : List UInt8) :
    ∃ deeds, Replies src now body kind deeds ∧
      (t.system fun _ => True).run e.standing deeds = some (e.dispatch c t src now kind body).1.standing := by
  cases kind with
  | frame | alive | probe | close => exact ⟨[], .nothing _, rfl⟩
  | challenge =>
    refine ⟨[], .nothing _, ?_⟩
    dsimp only [dispatch]
    split_ifs <;> rfl
  | response =>
    dsimp only [dispatch]
    split_ifs
    · split
      · exact ⟨_, .answered, rfl⟩
      · exact ⟨_, .answered, rfl⟩
      · refine ⟨_, .migrated, ?_⟩
        have hsame := standing_rotate (c := c) { e with transport := (t.answered e.transport src body).1 }
        have hnext := congrArg Prod.fst hsame
        have htransport := congrArg Prod.snd hsame
        dsimp only [standing] at hnext htransport ⊢
        rw [hnext, htransport]
        rfl
    · exact ⟨[], .nothing _, rfl⟩
  | ack =>
    dsimp only [dispatch]
    split
    · exact ⟨[], .nothing _, rfl⟩
    · exact ⟨_, .acknowledged ‹_›, rfl⟩

variable {root : Secret} {datagram : List UInt8}

/-- A datagram that is not taken does nothing; one that is is told to the path, and then what is in it. -/
theorem recv_deeds {result : Except RecvError (Received Addr)} (h : e.recv c t src now datagram = (e', result))
    (hcoh : e.keys.Coherent c root) :
    (result.toOption = none ∧ e'.standing = e.standing) ∨
    ∃ header body deeds, c.openDatagram root e.keys.sending.opposite datagram = some (header, body) ∧
      result.toOption.isSome = true ∧ Replies src now body header.kind deeds ∧
      (t.system fun _ => True).run e.standing (.arrived src datagram.length now :: deeds) = some e'.standing := by
  obtain ⟨header, body, keys, hopen, -, -, -, -, -, -, heq⟩ | ⟨error, ahead, -, -, heq⟩ :=
    recv_cases (t := t) hcoh src now datagram
  · rw [heq] at h
    unfold admitted at h
    dsimp only at h
    split at h
    · cases h
      exact .inl ⟨rfl, rfl⟩
    · generalize hbefore : (if header.kind.ackEliciting then _ else _ : Endpoint Secret Key τ Addr) = before at h
      cases h
      have hstanding : before.standing = (e.next, t.arrived e.transport src datagram.length now) := by
        rw [← hbefore]
        split <;> rfl
      obtain ⟨deeds, hreplies, hrun⟩ := before.dispatch_deeds (c := c) (t := t) src now header.kind body
      refine .inr ⟨header, body, deeds, hopen, rfl, hreplies, ?_⟩
      rw [hstanding] at hrun
      exact hrun
  · obtain ⟨rfl, rfl⟩ := Prod.mk.inj (heq.symm.trans h)
    exact .inl ⟨rfl, rfl⟩

/-! ### Any calls -/

/-- A call on an endpoint in use: the endpoint after it, the datagram it emitted with its
destination, and the source and size of the datagram it took. -/
def call (c : Cipher Secret Key) (t : Transport τ Addr) (e : Endpoint Secret Key τ Addr) :
    Call Addr → Option (Endpoint Secret Key τ Addr × Option (Addr × List UInt8) × Option (Addr × ℕ))
  | .send frame now => (e.send c t frame now).map fun (e, result) => (e, result.toOption, none)
  | .close now => (e.close c t now).map fun (e, result) => (e, result.toOption, none)
  | .rotate => some ((e.rotate c).1, none, none)
  | .pollTransmit now => (e.pollTransmit c t now).map fun (e, sent) => (e, sent, none)
  | .recv src now datagram =>
    match e.recv c t src now datagram with
    | (e, .ok _) => some (e, none, some (src, datagram.length))
    | (e, .error _) => some (e, none, none)
  | .pathRefused carries now => some (e.pathRefused t carries now, none, none)
  | .rekeyEvery packets => some (e.rekeyEveryPackets packets, none, none)
  | .connect _ | .listen _ | .accept .. | .commit | .release => none

variable {a : Call Addr} {took : Option (Addr × ℕ)}

/-- The ways a call goes. -/
inductive Called (c : Cipher Secret Key) (t : Transport τ Addr) (e e' : Endpoint Secret Key τ Addr) :
    Call Addr → Option (Addr × List UInt8) → Option (Addr × ℕ) → Prop where
  | refused {frame : List UInt8} {now : ℕ} : e' = e → Called c t e e' (.send frame now) none none
  | sent {frame : List UInt8} {now : ℕ} {out : Option (Addr × List UInt8)} :
      e.attempt c t .frame frame (t.current e.transport) now = some (e', out) → Called c t e e' (.send frame now) out none
  | closed {e₁ : Endpoint Secret Key τ Addr} {now : ℕ} {out : Option (Addr × List UInt8)} :
      e.attempt c t .close [] (t.current e.transport) now = some (e₁, out) → e' = { e₁ with closed := true } →
      Called c t e e' (.close now) out none
  | polled {now : ℕ} {out : Option (Addr × List UInt8)} : e.pollTransmit c t now = some (e', out) →
      Called c t e e' (.pollTransmit now) out none
  | rotated : e' = (e.rotate c).1 → Called c t e e' .rotate none none
  | paced {packets : ℕ} : e' = e.rekeyEveryPackets packets → Called c t e e' (.rekeyEvery packets) none none
  | narrowed {carries now : ℕ} : e' = e.pathRefused t carries now → Called c t e e' (.pathRefused carries now) none none
  | taken {src : Addr} {now : ℕ} {datagram : List UInt8} {received : Received Addr} :
      e.recv c t src now datagram = (e', .ok received) → Called c t e e' (.recv src now datagram) none (some (src, datagram.length))
  | dropped {src : Addr} {now : ℕ} {datagram : List UInt8} {error : RecvError} :
      e.recv c t src now datagram = (e', .error error) → Called c t e e' (.recv src now datagram) none none

theorem called_call (h : e.call c t a = some (e', out, took)) : Called c t e e' a out took := by
  cases a with
  | connect peer | listen peer | accept src now datagram | commit | release => cases h
  | send frame now =>
    obtain ⟨⟨e₁, result⟩, hsend, heq⟩ := Option.map_eq_some_iff.mp h
    obtain ⟨rfl, rfl, rfl⟩ : e₁ = e' ∧ result.toOption = out ∧ none = took := by simpa using heq
    obtain ⟨hsame, hnone⟩ | hattempt := send_attempt hsend
    · exact hnone ▸ .refused hsame
    · exact .sent hattempt
  | close now =>
    obtain ⟨⟨e₁, result⟩, hclose, heq⟩ := Option.map_eq_some_iff.mp h
    obtain ⟨rfl, rfl, rfl⟩ : e₁ = e' ∧ result.toOption = out ∧ none = took := by simpa using heq
    obtain ⟨e₂, hattempt, hclosed⟩ := close_attempt hclose
    exact .closed hattempt hclosed
  | pollTransmit now =>
    obtain ⟨⟨e₁, sent⟩, hpoll, heq⟩ := Option.map_eq_some_iff.mp h
    obtain ⟨rfl, rfl, rfl⟩ : e₁ = e' ∧ sent = out ∧ none = took := by simpa using heq
    exact .polled hpoll
  | rotate =>
    obtain ⟨rfl, rfl, rfl⟩ : (e.rotate c).1 = e' ∧ none = out ∧ none = took := by simpa [call] using h
    exact .rotated rfl
  | rekeyEvery packets =>
    obtain ⟨rfl, rfl, rfl⟩ : e.rekeyEveryPackets packets = e' ∧ none = out ∧ none = took := by simpa [call] using h
    exact .paced rfl
  | pathRefused carries now =>
    obtain ⟨rfl, rfl, rfl⟩ : e.pathRefused t carries now = e' ∧ none = out ∧ none = took := by simpa [call] using h
    exact .narrowed rfl
  | recv src now datagram =>
    dsimp only [call] at h
    split at h
    · rename_i e₁ received hrecv
      obtain ⟨rfl, rfl, rfl⟩ : e₁ = e' ∧ none = out ∧ some (src, datagram.length) = took := by simpa using h
      exact .taken hrecv
    · rename_i e₁ error hrecv
      obtain ⟨rfl, rfl, rfl⟩ : e₁ = e' ∧ none = out ∧ none = took := by simpa using h
      exact .dropped hrecv

/-- A call speaks, or notes a width, or takes a datagram. -/
theorem call_deeds (hcoh : e.keys.Coherent c root) (h : e.call c t a = some (e', out, took)) :
    (took = none ∧ Speaks t e e' out) ∨
    (out = none ∧ took = none ∧ ∃ carries now, t.deed e.standing (.refused carries now) = some e'.standing) ∨
    ∃ src now datagram header body deeds, a = .recv src now datagram ∧ out = none ∧ took = some (src, datagram.length) ∧
      c.openDatagram root e.keys.sending.opposite datagram = some (header, body) ∧ Replies src now body header.kind deeds ∧
      (t.system fun _ => True).run e.standing (.arrived src datagram.length now :: deeds) = some e'.standing := by
  cases called_call h with
  | refused hsame => exact .inl ⟨rfl, speaks_nothing (congrArg standing hsame)⟩
  | sent hattempt => exact .inl ⟨rfl, speaks_attempt hattempt⟩
  | closed hattempt hclosed =>
    subst hclosed
    exact .inl ⟨rfl, (speaks_attempt hattempt).trans_nothing (speaks_nothing rfl)⟩
  | polled hpoll => exact .inl ⟨rfl, (polled_pollTransmit hpoll).speaks⟩
  | rotated hrotated => exact .inl ⟨rfl, speaks_nothing ((congrArg standing hrotated).trans (standing_rotate e))⟩
  | paced hpaced =>
    subst hpaced
    exact .inl ⟨rfl, speaks_nothing rfl⟩
  | @narrowed carries now hnarrowed =>
    subst hnarrowed
    exact .inr (.inl ⟨rfl, rfl, carries, now, rfl⟩)
  | @taken src now datagram received hrecv =>
    obtain ⟨hnone, -⟩ | ⟨header, body, deeds, hopen, -, hreplies, hrun⟩ := recv_deeds hrecv hcoh
    · cases hnone
    · exact .inr (.inr ⟨src, now, datagram, header, body, deeds, rfl, rfl, rfl, hopen, hreplies, hrun⟩)
  | dropped hrecv =>
    obtain ⟨-, hsame⟩ | ⟨_, _, _, -, hsome, -⟩ := recv_deeds hrecv hcoh
    · exact .inl ⟨rfl, speaks_nothing hsame⟩
    · cases hsome

theorem call_coherent (hcoh : e.keys.Coherent c root) (h : e.call c t a = some (e', out, took)) :
    e'.keys.Coherent c root ∧ e'.keys.sending = e.keys.sending := by
  cases called_call h with
  | refused hsame | paced hsame | narrowed hsame =>
    subst hsame
    exact ⟨hcoh, rfl⟩
  | sent hattempt =>
    obtain ⟨-, _, hadv, -⟩ := attempt_spec hattempt hcoh
    exact ⟨hadv.coherent, hadv.sending⟩
  | closed hattempt hclosed =>
    subst hclosed
    obtain ⟨-, _, hadv, -⟩ := attempt_spec hattempt hcoh
    exact ⟨hadv.coherent, hadv.sending⟩
  | polled hpoll =>
    obtain ⟨-, _, hadv, -⟩ := (polled_pollTransmit hpoll).polls hcoh
    exact ⟨hadv.coherent, hadv.sending⟩
  | rotated hrotated =>
    subst hrotated
    have hadv := (advances_rotate hcoh).1
    exact ⟨hadv.coherent, hadv.sending⟩
  | taken hrecv | dropped hrecv =>
    have hadv := advances_recv hrecv hcoh
    exact ⟨hadv.coherent, hadv.sending⟩

variable (st : Setting Secret Key τ Addr)

/-- An endpoint as it comes into use: dialled, told of its peer, or accepted with a first datagram. -/
inductive Opened : Direction → Endpoint Secret Key τ Addr → Prop where
  | connect (peer : Addr) : Opened .clientToServer (.new st.cipher st.cid st.root (st.dialled peer) .clientToServer)
  | listen (peer : Addr) : Opened .serverToClient (.new st.cipher st.cid st.root (st.claimed peer) .serverToClient)
  | accept {src : Addr} {now : ℕ} {datagram : List UInt8} {e : Endpoint Secret Key τ Addr} {received : Received Addr} :
      accept st.cipher st.transport st.cid st.root st.claimed src now datagram = .ok (e, received) →
      Opened .serverToClient e

def system : System (Endpoint Secret Key τ Addr) (Call Addr) where
  init e := ∃ role, Opened st role e
  next e a := (e.call st.cipher st.transport a).map Prod.fst

variable {st} {role : Direction}

theorem Opened.coherent (h : Opened st role e) : e.keys.Coherent st.cipher st.root ∧ e.keys.sending = role := by
  cases h with
  | connect peer | listen peer => exact ⟨KeySchedule.coherent_new _ _, rfl⟩
  | accept haccept =>
    have hadv := advances_recv (recv_of_accept haccept) (KeySchedule.coherent_new st.root .serverToClient)
    exact ⟨hadv.coherent, hadv.sending⟩

/-- The transports an endpoint starts from. -/
def Unused (st : Setting Secret Key τ Addr) (r : τ) : Prop := ∃ peer, r = st.dialled peer ∨ r = st.claimed peer

theorem system_run {s s' : ℕ × τ} {deeds : List (Deed Addr)} (hreach : (st.transport.system (Unused st)).Reachable s)
    (hrun : (st.transport.system fun _ => True).run s deeds = some s') :
    (st.transport.system (Unused st)).Reachable s' :=
  System.run_invariant hrun hreach fun _ _ _ _ hreach hs => hreach.step hs

theorem Opened.standing_reachable (h : Opened st role e) :
    (st.transport.system (Unused st)).Reachable e.standing := by
  cases h with
  | connect peer => exact .init ⟨rfl, peer, .inl rfl⟩
  | listen peer => exact .init ⟨rfl, peer, .inr rfl⟩
  | @accept src now datagram received _ haccept =>
    have hcoh : (new st.cipher st.cid st.root (st.claimed src) .serverToClient : Endpoint Secret Key τ Addr).keys.Coherent
        st.cipher st.root := KeySchedule.coherent_new _ _
    obtain ⟨hnone, -⟩ | ⟨header, body, deeds, -, -, -, hrun⟩ := recv_deeds (recv_of_accept haccept) hcoh
    · cases hnone
    · exact system_run (.init ⟨rfl, src, .inr rfl⟩) hrun

/-- Whatever calls an endpoint has seen, its transport has only seen deeds. -/
theorem standing_reachable (h : (system st).Reachable e) :
    e.keys.Coherent st.cipher st.root ∧ (st.transport.system (Unused st)).Reachable e.standing := by
  refine System.Reachable.invariant (P := fun e => e.keys.Coherent st.cipher st.root ∧
    (st.transport.system (Unused st)).Reachable e.standing) h (fun e he => ?_) fun e a e' he hs => ?_
  · obtain ⟨role, hopened⟩ := he
    exact ⟨hopened.coherent.1, hopened.standing_reachable⟩
  · obtain ⟨⟨e₁, out, took⟩, hcall, rfl⟩ := Option.map_eq_some_iff.mp hs
    refine ⟨(call_coherent he.1 hcall).1, ?_⟩
    obtain ⟨-, deeds, hrun, -⟩ | ⟨-, -, carries, now, hdeed⟩ | ⟨_, _, _, _, _, deeds, -, -, -, -, -, hrun⟩ :=
      call_deeds he.1 hcall
    · exact system_run he.2 hrun
    · exact System.Reachable.step (a := .refused carries now) he.2 hdeed
    · exact system_run he.2 hrun

end Endpoint

end Braid.Dgram
