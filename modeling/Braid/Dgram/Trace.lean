import Braid.Dgram.Epochs
import Braid.Dgram.Carrier
import Braid.Dgram.Deeds

/-! What a datagram leaves behind that is not taken: at most the keys derived ahead. They are
a cache. Nothing but an arrival from an epoch ahead reads them, and what it reads is what it
would derive, so two endpoints that differ in them alone give the same answers ever after.
The keys are followed before the number is looked at, and this is safe, since a number from
an epoch ahead is above every number admitted. -/

namespace Braid.Dgram

open Foundation

variable {Secret Key τ Addr : Type*}

namespace Endpoint

abbrev withAhead (ahead : List (Option Key)) (e : Endpoint Secret Key τ Addr) : Endpoint Secret Key τ Addr :=
  { e with keys := { e.keys with ahead } }

variable {c : Cipher Secret Key} {t : Transport τ Addr} (e : Endpoint Secret Key τ Addr) (ahead : List (Option Key)) (now : ℕ)

theorem rotate_withAhead : (e.withAhead ahead).keys.rotate c = (e.keys.rotate c).map fun keys => { keys with ahead } := by
  rw [KeySchedule.rotate, KeySchedule.rotate, Option.map_map]
  rfl

theorem rekey_withAhead : (e.withAhead ahead).rekey c = (e.rekey c).map (withAhead ahead) := by
  unfold rekey
  rw [rotate_withAhead]
  split_ifs
  · rw [Option.map_map, Option.map_map]
    rfl
  · rfl

theorem seal_withAhead (kind : Kind) (body : List UInt8) (dest : Addr) :
    (e.withAhead ahead).seal_ c t kind body dest now =
      (e.seal_ c t kind body dest now).map fun (e, result) => (e.withAhead ahead, result) := by
  unfold seal_
  rw [rekey_withAhead]
  by_cases hclosed : e.closed = true
  · rw [if_pos hclosed, if_pos hclosed]
    rfl
  by_cases hblocked : (kind.tracked && !t.admits e.transport) = true
  · rw [if_neg hclosed, if_pos hblocked, if_neg hclosed, if_pos hblocked]
    rfl
  rw [if_neg hclosed, if_neg hblocked, if_neg hclosed, if_neg hblocked]
  cases e.rekey c with
  | none => rfl
  | some e₁ =>
    rw [Option.map_map]
    refine Option.map_congr fun head _ => ?_
    dsimp only [Function.comp]
    split_ifs <;> rfl

theorem attempt_withAhead (kind : Kind) (body : List UInt8) (dest : Addr) :
    (e.withAhead ahead).attempt c t kind body dest now =
      (e.attempt c t kind body dest now).map fun (e, sent) => (e.withAhead ahead, sent) := by
  rw [attempt, attempt, seal_withAhead, Option.map_map, Option.map_map]
  rfl

theorem sendAnswer_withAhead : (e.withAhead ahead).sendAnswer c t now =
    (e.sendAnswer c t now).map fun (e, sent) => (e.withAhead ahead, sent) := by
  unfold sendAnswer
  cases e.answer with
  | none => rfl
  | some answer => exact attempt_withAhead { e with answer := none } _ _ _ _ _

theorem acknowledge_withAhead : (e.withAhead ahead).acknowledge c t now =
    (e.acknowledge c t now).map fun (e, sent) => (e.withAhead ahead, sent) := by
  unfold acknowledge
  simp only [attempt_withAhead]
  cases e.debt with
  | settled => rfl
  | owed at_ since eliciting =>
    dsimp only
    split_ifs
    · rfl
    · cases e.window.acknowledgement with
      | none => rfl
      | some ack =>
        dsimp only
        cases Ack.encode ⟨ack.1, now - since, ack.2⟩ with
        | none => rfl
        | some body =>
          simp only [Option.bind_some, Option.map_map]
          refine Option.map_congr fun sent _ => ?_
          dsimp only [Function.comp]
          split_ifs <;> rfl

theorem probePathMtu_withAhead : (e.withAhead ahead).probePathMtu c t now =
    (e.probePathMtu c t now).map fun (e, sent) => (e.withAhead ahead, sent) := by
  unfold probePathMtu
  dsimp only
  cases (t.pollProbe e.transport now).2 with
  | none => rfl
  | some candidate =>
    dsimp only
    split_ifs
    · rfl
    · rw [attempt_withAhead { e with transport := (t.pollProbe e.transport now).1 }, Option.map_map, Option.map_map]
      refine Option.map_congr fun sent _ => ?_
      dsimp only [Function.comp]
      split_ifs <;> rfl

theorem keepalive_withAhead : (e.withAhead ahead).keepalive c t now =
    (e.keepalive c t now).map fun (e, sent) => (e.withAhead ahead, sent) := by
  unfold keepalive
  dsimp only
  split_ifs
  · rfl
  · rfl
  · rfl
  · rw [attempt_withAhead { e with quietSince := some (e.quietSince.getD now) }, Option.map_map, Option.map_map]
    refine Option.map_congr fun sent _ => ?_
    dsimp only [Function.comp]
    split_ifs <;> rfl

theorem challengeOrRest_withAhead : (e.withAhead ahead).challengeOrRest c t now =
    (e.challengeOrRest c t now).map fun (e, sent) => (e.withAhead ahead, sent) := by
  unfold challengeOrRest
  dsimp only
  cases (t.pollChallenge e.transport now).2 with
  | some challenge =>
    dsimp only
    split_ifs
    · rfl
    · exact attempt_withAhead { e with transport := (t.pollChallenge e.transport now).1 } _ _ _ _ _
  | none =>
    rw [probePathMtu_withAhead { e with transport := (t.pollChallenge e.transport now).1 }]
    cases ({ e with transport := (t.pollChallenge e.transport now).1 } : Endpoint Secret Key τ Addr).probePathMtu c t now with
    | none => rfl
    | some polled =>
      obtain ⟨e₁, sent⟩ := polled
      cases sent with
      | some sent => rfl
      | none => exact keepalive_withAhead _ _ _

theorem pollTransmit_withAhead : (e.withAhead ahead).pollTransmit c t now =
    (e.pollTransmit c t now).map fun (e, sent) => (e.withAhead ahead, sent) := by
  unfold pollTransmit
  dsimp only
  rw [sendAnswer_withAhead { e with transport := t.expire e.transport now }]
  cases ({ e with transport := t.expire e.transport now } : Endpoint Secret Key τ Addr).sendAnswer c t now with
  | none => rfl
  | some answered =>
    obtain ⟨e₁, sent⟩ := answered
    cases sent with
    | some sent => rfl
    | none =>
      dsimp only [Option.map_some, Option.bind_some]
      rw [acknowledge_withAhead]
      cases e₁.acknowledge c t now with
      | none => rfl
      | some acknowledged =>
        obtain ⟨e₂, sent⟩ := acknowledged
        cases sent with
        | some sent => rfl
        | none => exact challengeOrRest_withAhead _ _ _

theorem send_withAhead (frame : List UInt8) : (e.withAhead ahead).send c t frame now =
    (e.send c t frame now).map fun (e, result) => (e.withAhead ahead, result) := by
  have hlimit : (e.withAhead ahead).payloadLimit t = e.payloadLimit t := rfl
  have hwritable : (e.withAhead ahead).writable t now frame.length = e.writable t now frame.length := rfl
  unfold send
  dsimp only
  rw [hlimit, hwritable, seal_withAhead]
  by_cases hsize : e.payloadLimit t < frame.length
  · rw [if_pos hsize, if_pos hsize]
    rfl
  by_cases hblocked : (!e.writable t now frame.length) = true
  · rw [if_neg hsize, if_pos hblocked, if_neg hsize, if_pos hblocked]
    rfl
  · rw [if_neg hsize, if_neg hblocked, if_neg hsize, if_neg hblocked, Option.map_map, Option.map_map]
    rfl

theorem close_withAhead : (e.withAhead ahead).close c t now =
    (e.close c t now).map fun (e, result) => (e.withAhead ahead, result) := by
  unfold close
  dsimp only
  rw [seal_withAhead, Option.map_map, Option.map_map]
  rfl

theorem dispatch_withAhead (src : Addr) (kind : Kind) (body : List UInt8) :
    (e.withAhead ahead).dispatch c t src now kind body =
      ((e.dispatch c t src now kind body).1.withAhead ahead, (e.dispatch c t src now kind body).2) := by
  cases kind with
  | frame | alive | probe | close => rfl
  | challenge =>
    dsimp only [dispatch]
    split_ifs <;> rfl
  | ack =>
    dsimp only [dispatch]
    split <;> rfl
  | response =>
    dsimp only [dispatch]
    split_ifs
    · split
      · rfl
      · rfl
      · dsimp only [rotate]
        rw [rotate_withAhead { e with transport := (t.answered e.transport src body).1 }]
        cases e.keys.rotate c <;> rfl
    · rfl

theorem admitted_withAhead (src : Addr) (size : ℕ) (header : Header) (body : List UInt8) :
    (e.withAhead ahead).admitted c t src now size header body =
      ((e.admitted c t src now size header body).1.withAhead ahead, (e.admitted c t src now size header body).2) := by
  unfold admitted
  by_cases hstale : (e.window.admit_ header.number).2 ≠ .fresh
  · rw [if_pos hstale, if_pos hstale]
  · rw [if_neg hstale, if_neg hstale]
    dsimp only
    have hbefore : ∀ before : Endpoint Secret Key τ Addr, (if header.kind.ackEliciting then
        (before.withAhead ahead).oweAcknowledgement now header.kind else before.withAhead ahead) =
          (if header.kind.ackEliciting then before.oweAcknowledgement now header.kind else before).withAhead ahead := by
      intro before
      split_ifs <;> rfl
    rw [hbefore { e with
      window := (e.window.admit_ header.number).1, transport := t.arrived e.transport src size now }, dispatch_withAhead]

theorem follow_withAhead {ks ks' : KeySchedule Secret Key} {count : ℕ} {epoch : Epoch}
    (h : ks.follow c count = (ks', some epoch)) (ahead : List (Option Key)) :
    ({ ks with ahead } : KeySchedule Secret Key).follow c count = (ks', some epoch) := by
  unfold KeySchedule.follow at h ⊢
  split at h
  · cases h
  · rename_i hcount
    rw [if_neg hcount]
    cases hadvance : ks.recv.advanceBy c count with
    | mk recv done =>
      rw [hadvance] at h
      cases done with
      | false => cases h
      | true => exact h

/-- Two endpoints that differ in the keys derived ahead alone. -/
structure Alike (c : Cipher Secret Key) (root : Secret) (e e' : Endpoint Secret Key τ Addr) : Prop where
  eq : ∃ ahead, e' = e.withAhead ahead
  coherent : e.keys.Coherent c root
  coherent' : e'.keys.Coherent c root

variable {e} {e' : Endpoint Secret Key τ Addr} {root : Secret}

/-- The one place where the keys derived ahead are read gives what it would derive. -/
theorem Alike.recv (h : Alike c root e e') (src : Addr) (now : ℕ) (datagram : List UInt8) :
    (e'.recv c t src now datagram).2 = (e.recv c t src now datagram).2 ∧
      Alike c root (e.recv c t src now datagram).1 (e'.recv c t src now datagram).1 := by
  obtain ⟨⟨ahead, rfl⟩, hcoh, hcoh'⟩ := h
  have hkept : (e.recv c t src now datagram).1.keys.Coherent c root := (advances_recv rfl hcoh).coherent
  have hkept' : ((e.withAhead ahead).recv c t src now datagram).1.keys.Coherent c root := (advances_recv rfl hcoh').coherent
  suffices hsame : ((e.withAhead ahead).recv c t src now datagram).2 = (e.recv c t src now datagram).2 ∧
      ∃ ahead', ((e.withAhead ahead).recv c t src now datagram).1 = (e.recv c t src now datagram).1.withAhead ahead' from
    ⟨hsame.1, hsame.2, hkept, hkept'⟩
  unfold recv
  cases Header.decode datagram with
  | error error => exact ⟨rfl, ahead, rfl⟩
  | ok header =>
    dsimp only
    by_cases hcid : header.cid ≠ e.cid
    · rw [if_pos hcid, if_pos hcid]
      exact ⟨rfl, ahead, rfl⟩
    rw [if_neg hcid, if_neg hcid]
    have hreach : (e.withAhead ahead).keys.reach header.epoch = e.keys.reach header.epoch := rfl
    rw [hreach]
    obtain ⟨hreach, -⟩ | ⟨hreach, -⟩ | ⟨count, hreach, hpos, hle, hepoch⟩ | ⟨hreach, -⟩ := e.keys.reach_cases header.epoch
    · rw [hreach]
      dsimp only [KeySchedule.reading]
      cases c.decrypt e.keys.recvKey _ _ _ _ with
      | none => exact ⟨rfl, ahead, rfl⟩
      | some body =>
        dsimp only
        rw [admitted_withAhead]
        exact ⟨rfl, ahead, rfl⟩
    · rw [hreach]
      dsimp only [KeySchedule.reading]
      cases e.keys.recvPrevious.map Prod.snd with
      | none => exact ⟨rfl, ahead, rfl⟩
      | some key =>
        dsimp only
        cases c.decrypt key _ _ _ _ with
        | none => exact ⟨rfl, ahead, rfl⟩
        | some body =>
          dsimp only
          rw [admitted_withAhead]
          exact ⟨rfl, ahead, rfl⟩
    · have hlt : e.keys.recv.epoch.val + count < 256 := hepoch ▸ header.epoch.isLt
      obtain ⟨hpeeked, ⟨ahead₁, hahead₁⟩, hsome⟩ := hcoh.peekAhead count
      obtain ⟨-, ⟨ahead₂, hahead₂⟩, hsome'⟩ := hcoh'.peekAhead count
      rw [hahead₁] at hpeeked
      obtain ⟨keys, epoch, hfollow, -⟩ := hpeeked.follow hpos hle hlt
      have hfollow' := follow_withAhead hfollow ahead₂
      rw [hreach]
      dsimp only
      rw [hahead₁, hahead₂, hsome hpos hle hlt, hsome' hpos hle hlt]
      dsimp only
      cases c.decrypt _ _ _ _ _ with
      | none => exact ⟨rfl, ahead₂, rfl⟩
      | some body =>
        rw [hfollow, hfollow']
        exact ⟨rfl, _, rfl⟩
    · rw [hreach]
      exact ⟨rfl, ahead, rfl⟩

theorem Alike.map {α β : Type*} (h : Alike c root e e') {f : Endpoint Secret Key τ Addr → Option (Endpoint Secret Key τ Addr × α)}
    (hf : ∀ ahead, f (e.withAhead ahead) = (f e).map fun (e, x) => (e.withAhead ahead, x))
    (hcoh : ∀ e : Endpoint Secret Key τ Addr, e.keys.Coherent c root → ∀ e₁ x, f e = some (e₁, x) → e₁.keys.Coherent c root)
    (g : α → β) :
    Option.Rel (fun x y => Alike c root x.1 y.1 ∧ x.2 = y.2) ((f e).map fun (e, x) => (e, g x))
      ((f e').map fun (e, x) => (e, g x)) := by
  obtain ⟨⟨ahead, rfl⟩, hcoh₁, hcoh₂⟩ := h
  have hthere := hf ahead
  cases hfe : f e with
  | none =>
    rw [hfe] at hthere
    rw [hthere]
    exact .none
  | some result =>
    obtain ⟨e₁, x⟩ := result
    rw [hfe] at hthere
    have hkept := hcoh _ hcoh₂ _ _ hthere
    rw [hthere]
    exact .some ⟨⟨⟨ahead, rfl⟩, hcoh e hcoh₁ e₁ x hfe, hkept⟩, rfl⟩

/-- Every call gives the same and leaves the endpoints alike. -/
theorem Alike.call (h : Alike c root e e') (a : Call Addr) :
    Option.Rel (fun x y => Alike c root x.1 y.1 ∧ x.2 = y.2) (e.call c t a) (e'.call c t a) := by
  cases a with
  | connect peer | listen peer | accept src now datagram | commit | release => exact .none
  | send frame now =>
    refine h.map (f := fun e => e.send c t frame now) (fun ahead => send_withAhead e ahead now frame)
      (fun e hcoh e₁ x hsend => ?_) fun result => (result.toOption, none)
    obtain ⟨-, _, hadv, -⟩ := send_spec hsend hcoh
    exact hadv.coherent
  | close now =>
    refine h.map (f := fun e => e.close c t now) (fun ahead => close_withAhead e ahead now)
      (fun e hcoh e₁ x hclose => ?_) fun result => (result.toOption, none)
    obtain ⟨-, _, hadv, -⟩ := close_spec hclose hcoh
    exact hadv.coherent
  | pollTransmit now =>
    refine h.map (f := fun e => e.pollTransmit c t now) (fun ahead => pollTransmit_withAhead e ahead now)
      (fun e hcoh e₁ x hpoll => ?_) fun sent => (sent, none)
    obtain ⟨-, _, hadv, -⟩ := (polled_pollTransmit hpoll).polls hcoh
    exact hadv.coherent
  | rotate =>
    refine .some ⟨?_, rfl⟩
    obtain ⟨⟨ahead, rfl⟩, hcoh, hcoh'⟩ := h
    refine ⟨⟨ahead, ?_⟩, (advances_rotate hcoh).1.coherent, (advances_rotate hcoh').1.coherent⟩
    rw [Endpoint.rotate, Endpoint.rotate, rotate_withAhead]
    cases e.keys.rotate c <;> rfl
  | pathRefused carries now =>
    obtain ⟨⟨ahead, rfl⟩, hcoh, hcoh'⟩ := h
    exact .some ⟨⟨⟨ahead, rfl⟩, hcoh, hcoh'⟩, rfl⟩
  | rekeyEvery packets =>
    obtain ⟨⟨ahead, rfl⟩, hcoh, hcoh'⟩ := h
    exact .some ⟨⟨⟨ahead, rfl⟩, hcoh, hcoh'⟩, rfl⟩
  | recv src now datagram =>
    obtain ⟨hresult, hlike⟩ := h.recv (t := t) src now datagram
    dsimp only [Endpoint.call]
    cases hrecv : e.recv c t src now datagram with
    | mk e₁ result =>
      cases hrecv' : e'.recv c t src now datagram with
      | mk e₂ result' =>
        rw [hrecv, hrecv'] at hresult hlike
        obtain rfl : result' = result := hresult
        cases result' with
        | ok received => exact .some ⟨hlike, rfl⟩
        | error error => exact .some ⟨hlike, rfl⟩

variable {st : Setting Secret Key τ Addr}

theorem Alike.run (h : Alike st.cipher st.root e e') (calls : List (Call Addr)) :
    Option.Rel (Alike st.cipher st.root) ((system st).run e calls) ((system st).run e' calls) := by
  induction calls generalizing e e' with
  | nil => exact .some h
  | cons a calls ih =>
    have hcall := h.call (t := st.transport) a
    change Option.Rel _ (((e.call st.cipher st.transport a).map Prod.fst).bind _)
      (((e'.call st.cipher st.transport a).map Prod.fst).bind _)
    generalize e.call st.cipher st.transport a = here at hcall ⊢
    generalize e'.call st.cipher st.transport a = there at hcall ⊢
    cases hcall with
    | none => exact .none
    | some hboth => exact ih hboth.1

end Endpoint

namespace Pair

open Party

variable {st : Setting Secret Key τ Addr} {s : Direction → Party Secret Key τ Addr} {side : Direction}
  {e e' : Endpoint Secret Key τ Addr} {src : Addr} {now : ℕ} {datagram : List UInt8} {error : RecvError}

section

variable (hc : st.cipher.Lawful) (h : (system st).Via (Authentic st) s) (hlive : (s side).holding = .live e)
  (hauth : Authentic st s (side, .recv src now datagram))
  (hrecv : e.recv st.cipher st.transport src now datagram = (e', .error error))

include hc h hlive hauth hrecv

theorem alike_of_refused :
    e.Alike st.cipher st.root e' := by
  obtain ⟨log, hlog⟩ := exists_reads hc h
  have hheld := endpoint_live hlive
  have hown := (hlog side).1.own hheld
  obtain ⟨header, body, keys, hopen, -, -, hcoh, -, -, hfollows, heq⟩ | ⟨error, ahead, -, hcoh, heq⟩ :=
    Endpoint.recv_cases (t := st.transport) hown.coherent src now datagram
  · obtain ⟨htake, hdrop⟩ :=
      Endpoint.admitted_spec (t := st.transport) (e := { e with keys }) hcoh src now datagram.length header body
    have hstale : (e.window.admit_ header.number).2 ≠ .fresh := fun hfresh => by
      obtain ⟨e₁, received, htaken, -⟩ := htake hfresh
      cases (heq.trans htaken).symm.trans hrecv
    -- A stale number is not from an epoch ahead, so no key was followed.
    have hdecode := decode_of_openDatagram hopen
    obtain ⟨-, rfl⟩ | ⟨hahead, -⟩ := hfollows
    · obtain ⟨rfl, -⟩ := Prod.mk.inj ((heq.trans (hdrop hstale)).symm.trans hrecv)
      refine ⟨⟨e.keys.ahead, ?_⟩, hown.coherent, hown.coherent⟩
      rw [(((hlog side).2.window e hheld).1.admit_ _).2.2 hstale]
    · rw [hown.sending] at hopen
      have hfresh := fresh_of_epoch_lt hc h hheld (hauth (by rw [hopen]; rfl)) (by rw [epochOf_eq hdecode]; exact hahead)
      rw [numberOf_eq hdecode] at hfresh
      exact absurd hfresh hstale
  · obtain ⟨rfl, -⟩ := Prod.mk.inj (heq.symm.trans hrecv)
    exact ⟨⟨ahead, rfl⟩, hown.coherent, hcoh⟩

/-- After a datagram that is not taken, the endpoint is as it was except for the keys derived
ahead. Whatever is called from then on, with whatever datagrams, is possible exactly if it
was before, leaves again no other difference, and what arrives next is taken, refused and
delivered as it would have been. -/
theorem refused_leaves_no_trace :
    (∃ ahead, e' = e.withAhead ahead) ∧ ∀ calls : List (Call Addr),
      Option.Rel (fun e₁ e₂ => (∃ ahead, e₂ = e₁.withAhead ahead) ∧ ∀ src now datagram,
          (e₂.recv st.cipher st.transport src now datagram).2 = (e₁.recv st.cipher st.transport src now datagram).2)
        ((Endpoint.system st).run e calls) ((Endpoint.system st).run e' calls) := by
  have halike := alike_of_refused hc h hlive hauth hrecv
  refine ⟨halike.eq, fun calls => ?_⟩
  have hrun := halike.run calls
  generalize (Endpoint.system st).run e calls = here at hrun ⊢
  generalize (Endpoint.system st).run e' calls = there at hrun ⊢
  cases hrun with
  | none => exact .none
  | some hlike => exact .some ⟨hlike.eq, fun src now datagram => (hlike.recv src now datagram).1⟩

end

/-- A frame from an epoch ahead of the one read, with a tag that no key makes. -/
def forged : List UInt8 :=
  0 :: List.replicate 8 9 ++ [3, 0, 0, 0, 0, 0, 2] ++ [105] ++ List.replicate 16 0

/-- The forged frame arrives at a side that reads the epoch after the first. Keys are derived
ahead, and nothing else comes of it. -/
theorem refused_leaves_no_trace_forged : ∃ s e e' error, (system sample).Via (Authentic sample) s ∧
    (s .serverToClient).holding = .live e ∧ e.recv sample.cipher sample.transport 1 3 forged = (e', .error error) ∧
    e'.keys.ahead ≠ e.keys.ahead ∧ (∃ ahead, e' = e.withAhead ahead) ∧ ∀ calls : List (Call ℕ),
      Option.Rel (fun e₁ e₂ => (∃ ahead, e₂ = e₁.withAhead ahead) ∧ ∀ src now datagram,
          (e₂.recv sample.cipher sample.transport src now datagram).2 =
            (e₁.recv sample.cipher sample.transport src now datagram).2)
        ((Endpoint.system sample).run e calls) ((Endpoint.system sample).run e' calls) := by
  obtain ⟨s, hvia, hp⟩ : ∃ s, (system sample).Via (Authentic sample) s ∧ ((s .serverToClient).holding.live?.any fun e =>
      decide ((e.recv sample.cipher sample.transport 1 3 forged).2.isOk = false ∧
        (e.recv sample.cipher sample.transport 1 3 forged).1.keys.ahead ≠ e.keys.ahead)) = true :=
    System.Via.of_run (fun _ => start) rotatedRun rfl (by decide +kernel)
  obtain ⟨e, he, hp⟩ := (Option.any_eq_true _ _).1 hp
  obtain ⟨hfail, hahead⟩ := of_decide_eq_true hp
  have hlive := Holding.live?_eq_some.mp he
  cases hrecv : e.recv sample.cipher sample.transport 1 3 forged with
  | mk e' result =>
    rw [hrecv] at hfail hahead
    cases result with
    | ok received => cases hfail
    | error error =>
      have hauth : Authentic sample s (.serverToClient, .recv 1 3 forged) := by
        intro hopen
        exact absurd hopen (by decide)
      exact ⟨s, e, e', error, hvia, hlive, hrecv, hahead, refused_leaves_no_trace lawful_plain hvia hlive hauth hrecv⟩

end Pair

end Braid.Dgram
