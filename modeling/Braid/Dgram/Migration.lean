import Braid.Dgram.Inquiry
import Braid.Dgram.Lead

/-! How the address in use is replaced. A candidate waits for the echo of a token that was drawn
for it; the token of another candidacy, or of the address in use, is another one. So an echo
that moves the path comes from the candidate and answers a challenge that went to it since it
was proposed. -/

namespace Braid.Dgram

open Foundation

variable {Secret Key Addr : Type*}

theorem Entropy.Later.distinct {s s' : Entropy} (h : s.Later s') (hd : s'.Distinct) : s.Distinct := fun i hi j hj hsome heq =>
  hd i (hi.trans_le h.drawn) j (hj.trans_le h.drawn) (h.pool ▸ hsome) (h.pool ▸ heq)

theorem Entropy.not_new_self {s : Entropy} {token : Token} : ¬s.New s token := fun ⟨_, hle, hlt, _⟩ => Nat.not_lt.mpr hle hlt

def taking (took : Option (Addr × ℕ)) : Call Addr → List ℕ
  | .recv _ _ datagram => if took.isSome then [numberOf datagram] else []
  | _ => []

namespace PathValidator

variable {p p' : PathValidator Addr} {s s' : Entropy}

def candidacy (p : PathValidator Addr) : Option Addr := p.candidate.map Prod.fst

theorem candidacy_of_awaiting {at_ : Addr} {token : Token} (h : p.awaiting = some (at_, token)) : p.candidacy = some at_ := by
  obtain ⟨⟨at', candidate⟩, hcandidate, h⟩ := Option.bind_eq_some_iff.mp h
  obtain ⟨_, -, heq⟩ := Option.map_eq_some_iff.mp h
  obtain ⟨rfl, -⟩ := Prod.mk.inj heq
  exact congrArg (Option.map Prod.fst) hcandidate

/-- The tokens waited for were drawn, one for the address in use and another for the candidate. -/
structure Settled (p : PathValidator Addr) (s : Entropy) : Prop where
  standing : ∀ token, p.standing.token = some token → s.Gave token
  awaiting : ∀ q, p.awaiting = some q → s.Gave q.2
  apart : ∀ q, p.awaiting = some q → p.standing.token ≠ some q.2

theorem Turns.settled (h : Turns p s p' s') (hs : Settled p s) (hd : s'.Distinct)
    (hone : p'.awaiting = p.awaiting ∨ p'.standing.token = p.standing.token) : Settled p' s' := by
  refine ⟨fun token ht => ?_, fun q hq => ?_, fun q hq ht => ?_⟩
  · exact (h.standing token ht).elim (fun hold => h.later.gave (hs.standing token hold)) (Entropy.New.gave h.later)
  · exact (h.awaiting q hq).elim (fun hold => h.later.gave (hs.awaiting q hold)) (Entropy.New.gave h.later)
  · obtain hsame | hsame := hone
    · rw [hsame] at hq
      obtain hold | hnew := h.standing q.2 ht
      · exact hs.apart q hq hold
      · exact hnew.not_gave h.later hd (hs.awaiting q hq)
    · rw [hsame] at ht
      obtain hold | hnew := h.awaiting q hq
      · exact hs.apart q hold ht
      · exact hnew.not_gave h.later hd (hs.standing q.2 ht)

theorem Turns.settled_self (h : Turns p s p' s) (hs : Settled p s) : Settled p' s := by
  have hstanding := fun token ht => (h.standing token ht).resolve_right Entropy.not_new_self
  have hawaiting := fun q hq => (h.awaiting q hq).resolve_right Entropy.not_new_self
  exact ⟨fun token ht => hs.standing token (hstanding token ht), fun q hq => hs.awaiting q (hawaiting q hq),
    fun q hq ht => hs.apart q (hawaiting q hq) (hstanding q.2 ht)⟩

theorem Asks.settled {asked : Option (Addr × Token)} (h : Asks p s p' s' asked) (hs : Settled p s) (hd : s'.Distinct) :
    Turns p s p' s' ∧ Settled p' s' := by
  obtain ⟨p₁, s₁, hfirst, hawaiting, hrest, hstanding⟩ := h.turns
  have hsettled := hfirst.settled hs (hrest.later.distinct hd) (.inl hawaiting)
  exact ⟨hfirst.trans hrest, hrest.settled hsettled hd (.inr (congrArg Standing.token hstanding))⟩

end PathValidator

namespace Endpoint

variable [DecidableEq Addr] {c : Cipher Secret Key} {root : Secret} {e e' : Endpoint Secret Key (Carrier Addr) Addr} {a : Call Addr}
  {out : Option (Addr × List UInt8)} {took : Option (Addr × ℕ)}

theorem Quiet.turns {sending : Direction} {p : PathValidator Addr} {s : Entropy}
    (h : Quiet c root sending (p, s) e'.asking out) : e'.transport.entropy = s ∧ e'.transport.path.current = p.current ∧
      e'.transport.path.standing.token = p.standing.token ∧ e'.transport.path.awaiting = p.awaiting := by
  obtain ⟨-, hentropy, hpath | ⟨dest, size, hpath⟩⟩ := h
  · have hsame : e'.transport.path = p := hpath
    rw [hsame]
    exact ⟨hentropy, rfl, rfl, rfl⟩
  · have hsame : e'.transport.path = p.spent dest size := hpath
    rw [hsame]
    exact ⟨hentropy, (p.eases_spent dest size).current, p.spent_token dest size⟩

/-- A call turns the path and says only tokens that are waited for then; and what moves the path is
an echo from the candidate of the token it has to echo. -/
structure Turned (c : Cipher Secret Key) (root : Secret) (e e' : Endpoint Secret Key (Carrier Addr) Addr) (a : Call Addr)
    (out : Option (Addr × List UInt8)) (took : Option (Addr × ℕ)) : Prop where
  turns : e.transport.path.Turns e.transport.entropy e'.transport.path e'.transport.entropy
  settled : e'.transport.path.Settled e'.transport.entropy
  said : ∀ q ∈ challengesIn c root e.keys.sending out, ∃ token : Token, token.bytes = q.2 ∧
    (e'.transport.path.standing.token = some token ∨ e'.transport.path.awaiting = some (q.1, token))
  moved : e'.transport.path.current = e.transport.path.current ∨ ∃ src now datagram header, ∃ token : Token,
    a = .recv src now datagram ∧ took.isSome = true ∧
      c.openDatagram root e.keys.sending.opposite datagram = some (header, token.bytes) ∧ header.kind = .response ∧
      e.transport.path.awaiting = some (src, token) ∧ e'.transport.path.current = src

theorem Course.turned (h : Course c root e e' a out took) (hs : e.transport.path.Settled e.transport.entropy)
    (hd : e'.transport.entropy.Distinct) : Turned c root e e' a out took := by
  have hsame : ∀ {p : PathValidator Addr} {s : Entropy}, e.transport.path.Turns e.transport.entropy p s → p.Settled s →
      p.current = e.transport.path.current → e'.transport.entropy = s ∧ e'.transport.path.current = p.current ∧
        e'.transport.path.standing.token = p.standing.token ∧ e'.transport.path.awaiting = p.awaiting →
      (∀ q ∈ challengesIn c root e.keys.sending out, ∃ token : Token, token.bytes = q.2 ∧
        (p.standing.token = some token ∨ p.awaiting = some (q.1, token))) → Turned c root e e' a out took := by
    rintro p s ⟨hlater, hturned, hturned'⟩ ⟨hgave, hgave', hapart⟩ hcurrent ⟨hentropy, hcurrent', hstanding, hawaiting⟩ hsaid
    rw [← hentropy] at hlater hturned hturned' hgave hgave'
    rw [← hstanding] at hturned hgave hapart
    rw [← hawaiting] at hturned' hgave' hapart
    rw [← hstanding, ← hawaiting] at hsaid
    exact ⟨⟨hlater, hturned, hturned'⟩, ⟨hgave, hgave', hapart⟩, hsaid, .inl (hcurrent'.trans hcurrent)⟩
  have hquiet : ∀ {p : PathValidator Addr} {s : Entropy}, e.transport.path.Turns e.transport.entropy p s → p.Settled s →
      p.current = e.transport.path.current → Quiet c root e.keys.sending (p, s) e'.asking out → Turned c root e e' a out took := by
    intro p s hturns hsettled hcurrent hquiet
    refine hsame hturns hsettled hcurrent hquiet.turns ?_
    rw [hquiet.said]
    exact nofun
  cases h with
  | quiet _ h => exact hquiet (.refl _ _) hs rfl h
  | @polled now _ hinquires =>
    have hasks := e.asking.1.asks_pollChallenge now e.asking.2
    cases hinquires with
    | first _ h => exact hquiet (.refl _ _) hs rfl h
    | @rest p s hpolled h =>
      rw [hpolled] at hasks
      obtain ⟨hturns, hsettled⟩ := hasks.settled hs (h.turns.1 ▸ hd)
      exact hquiet hturns hsettled hasks.eases.current h
    | @starved p s dest token _ hpolled _ hasking hout =>
      rw [hpolled] at hasks
      have hentropy : e'.transport.entropy = s := congrArg Prod.snd hasking
      obtain ⟨hturns, hsettled⟩ := hasks.settled hs (hentropy ▸ hd)
      refine hquiet hturns hsettled hasks.eases.current ?_
      rw [hout, hasking]
      exact quiet_refl _ _
    | @asked p s dest token size hpolled _ hasking hsaid =>
      rw [hpolled] at hasks
      have hentropy : e'.transport.entropy = s := congrArg Prod.snd hasking
      have hpath : e'.transport.path = p.spent dest size := congrArg Prod.fst hasking
      obtain ⟨hturns, hsettled⟩ := hasks.settled hs (hentropy ▸ hd)
      refine hsame hturns hsettled hasks.eases.current ⟨hentropy, ?_⟩ fun q hq => ?_
      · rw [hpath]
        exact ⟨(p.eases_spent dest size).current, p.spent_token dest size⟩
      · rw [hsaid, List.mem_singleton] at hq
        rw [hq]
        exact ⟨token, rfl, hasks.asked⟩
  | @heard src now datagram body header hopen hentropy hpath =>
    have harrived := e.transport.path.turns_arrived src datagram.length now e.transport.entropy
    have hcurrent := (e.transport.path.arrived_frame src datagram.length now).1
    have hanswered := (e.transport.path.arrived src datagram.length now).turns_answered src body e.transport.entropy
    have hboth := harrived.trans hanswered.1
    obtain hpath | ⟨hkind, hpath⟩ := hpath
    · refine hsame harrived (harrived.settled_self hs) hcurrent ⟨hentropy, ?_⟩ nofun
      rw [hpath]
      exact ⟨rfl, rfl, rfl⟩
    · refine ⟨?_, ?_, nofun, ?_⟩ <;> rw [hpath]
      · rw [hentropy]
        exact hboth
      · rw [hentropy]
        exact hboth.settled_self hs
      · obtain ⟨hstays, -⟩ | ⟨token, hawaiting, rfl, hmoved⟩ := hanswered.2
        · exact .inl (hstays.trans hcurrent)
        · refine .inr ⟨src, now, datagram, header, token, rfl, rfl, hopen, hkind, ?_, by rw [hmoved]⟩
          exact (harrived.awaiting _ hawaiting).resolve_right Entropy.not_new_self

omit [DecidableEq Addr] in
/-- The number a call takes is one that was not taken before. -/
theorem Called.window {c : Cipher Secret Key} {τ : Type*} {t : Transport τ Addr} {e e' : Endpoint Secret Key τ Addr}
    {admitted : List ℕ} (h : Called c t e e' a out took) (hcoh : e.keys.Coherent c root)
    (hw : e.window.Remembers {n | n ∈ admitted}) :
    e'.window.Remembers {n | n ∈ admitted ++ taking took a} ∧ ∀ n ∈ taking took a, n ∉ admitted := by
  have hsame : e'.window = e.window → taking took a = [] →
      e'.window.Remembers {n | n ∈ admitted ++ taking took a} ∧ ∀ n ∈ taking took a, n ∉ admitted := fun hwindow hnone => by
    rw [hwindow, hnone, List.append_nil]
    exact ⟨hw, nofun⟩
  cases h with
  | refused h | paced h | narrowed h =>
    subst h
    exact hsame rfl rfl
  | sent hattempt => exact hsame (attempt_spec hattempt hcoh).1.window rfl
  | closed hattempt h =>
    subst h
    have hreading := (attempt_spec hattempt hcoh).1
    exact hsame hreading.window rfl
  | polled hpoll => exact hsame ((polled_pollTransmit hpoll).polls hcoh).1.window rfl
  | rotated h =>
    subst h
    exact hsame (advances_rotate hcoh).2.window rfl
  | dropped hrecv =>
    refine hsame ?_ rfl
    obtain hwindow | ⟨n, hstale, hwindow⟩ := recv_error hrecv hcoh
    · exact hwindow
    · exact hwindow.trans ((hw.admit_ n).2.2 hstale)
  | @taken src now datagram received hrecv =>
    obtain ⟨header, body, hopen, hfresh, hwindow, -⟩ := recv_ok hrecv hcoh
    have hnumber : taking (some (src, datagram.length)) (.recv src now datagram) = [header.number] := by
      rw [taking, Option.isSome_some, if_pos rfl, numberOf, decode_of_openDatagram hopen]
    have hinsert : {n | n ∈ admitted ++ [header.number]} = insert header.number {n | n ∈ admitted} := by
      ext n
      simp [or_comm]
    rw [hnumber, hinsert, hwindow]
    refine ⟨(hw.admit_ _).2.1 hfresh, fun n hn => ?_⟩
    rw [List.mem_singleton.mp hn]
    exact ((hw.admit_ _).1.mp hfresh).1

end Endpoint

/-- An endpoint with every challenge it has emitted, those emitted since the candidate was proposed
that there is, and the numbers it has taken. -/
structure Candidacy (Secret Key Addr : Type*) where
  endpoint : Endpoint Secret Key (Carrier Addr) Addr
  challenged : List (Addr × List UInt8)
  asked : List (Addr × List UInt8)
  admitted : List ℕ

namespace Candidacy

variable [DecidableEq Addr] (st : Setting Secret Key (Carrier Addr) Addr)

/-- Dialled, or told of its peer; an endpoint that is accepted is told of its peer and takes a datagram. -/
inductive Opened : Candidacy Secret Key Addr → Prop where
  | connect (peer : Addr) : Opened ⟨.new st.cipher st.cid st.root (st.dialled peer) .clientToServer, [], [], []⟩
  | listen (peer : Addr) : Opened ⟨.new st.cipher st.cid st.root (st.claimed peer) .serverToClient, [], [], []⟩

def next (g : Candidacy Secret Key Addr) (a : Call Addr) : Option (Candidacy Secret Key Addr) :=
  (g.endpoint.call st.cipher st.transport a).map fun (e, out, took) =>
    let said := challengesIn st.cipher st.root g.endpoint.keys.sending out
    { endpoint := e
      challenged := g.challenged ++ said
      asked := (if e.transport.path.candidacy = g.endpoint.transport.path.candidacy then g.asked else []) ++ said
      admitted := g.admitted ++ taking took a }

def system : System (Candidacy Secret Key Addr) (Call Addr) := ⟨Opened st, next st⟩

def echoed (e : Endpoint Secret Key (Carrier Addr) Addr) : Call Addr → Option (List UInt8)
  | .recv _ _ datagram => (st.cipher.openDatagram st.root e.keys.sending.opposite datagram).bind fun (header, body) =>
      if header.kind = .response then some body else none
  | _ => none

/-- No token is drawn twice, and none is echoed that was drawn and not emitted. -/
def Unguessed (g : Candidacy Secret Key Addr) (a : Call Addr) : Prop :=
  (∀ g' ∈ next st g a, g'.endpoint.transport.entropy.Distinct) ∧
  ∀ body ∈ echoed st g.endpoint a, (∃ k < g.endpoint.transport.entropy.drawn,
    (g.endpoint.transport.entropy.pool k).map Token.bytes = some body) → body ∈ g.challenged.map Prod.snd

instance (g : Candidacy Secret Key Addr) (a : Call Addr) : Decidable (Unguessed st g a) :=
  inferInstanceAs (Decidable (_ ∧ _))

variable {st} {cipher : Cipher Secret Key} {root : Secret} {cid : ConnectionId} {dialling listening : Side}
  {g g' : Candidacy Secret Key Addr} {a : Call Addr}

variable (cipher root) in
/-- A challenge that carries the candidate's token went to the candidate since it was proposed. -/
structure Sound (g : Candidacy Secret Key Addr) : Prop where
  fit : g.endpoint.Fit cipher root
  settled : g.endpoint.transport.path.Settled g.endpoint.transport.entropy
  given : ∀ q ∈ g.challenged, ∃ token : Token, g.endpoint.transport.entropy.Gave token ∧ token.bytes = q.2
  asked : ∀ q ∈ g.challenged, ∀ at_, ∀ token : Token, g.endpoint.transport.path.awaiting = some (at_, token) →
    token.bytes = q.2 → q.1 = at_ ∧ q ∈ g.asked
  window : g.endpoint.window.Remembers {n | n ∈ g.admitted}

theorem sound_opened (h : Opened (carried cipher root cid dialling listening) g) : g.Sound cipher root := by
  have hwindow : ReplayWindow.new.Remembers {n | n ∈ ([] : List ℕ)} := by
    simpa using ReplayWindow.remembers_new
  cases h with
  | connect peer =>
    have hopened : Endpoint.Opened (carried cipher root cid dialling listening) .clientToServer _ := .connect peer
    exact ⟨hopened.fit, ⟨nofun, nofun, nofun⟩, nofun, nofun, hwindow⟩
  | listen peer =>
    have hopened : Endpoint.Opened (carried cipher root cid dialling listening) .serverToClient _ := .listen peer
    exact ⟨hopened.fit, ⟨nofun, nofun, nofun⟩, nofun, nofun, hwindow⟩

theorem Sound.next (hc : cipher.Lawful) (hk : cipher.KeepsLength) (h : g.Sound cipher root)
    (hs : next (carried cipher root cid dialling listening) g a = some g') (hd : g'.endpoint.transport.entropy.Distinct) :
    g'.Sound cipher root := by
  obtain ⟨⟨e, out, took⟩, hcall, rfl⟩ := Option.map_eq_some_iff.mp hs
  have hturned := (Endpoint.course_call hc hk h.fit hcall).turned h.settled hd
  refine ⟨h.fit.call hcall, hturned.settled, fun q hq => ?_, fun q hq at_ token hawaiting hbytes => ?_, ?_⟩
  · obtain hq | hq := List.mem_append.mp hq
    · obtain ⟨token, hgave, hbytes⟩ := h.given q hq
      exact ⟨token, hturned.turns.later.gave hgave, hbytes⟩
    · obtain ⟨token, hbytes, hheld⟩ := hturned.said q hq
      exact ⟨token, hheld.elim (hturned.settled.standing token) fun hheld => hturned.settled.awaiting _ hheld, hbytes⟩
  · obtain hq | hq := List.mem_append.mp hq
    · -- a token drawn since is in no challenge from before
      obtain ⟨token', hgave, hbytes'⟩ := h.given q hq
      obtain rfl := Token.ext_bytes (hbytes'.trans hbytes.symm)
      obtain hbefore | hnew := hturned.turns.awaiting _ hawaiting
      · obtain ⟨hat, hasked⟩ := h.asked q hq at_ token' hbefore hbytes
        have hsame := (PathValidator.candidacy_of_awaiting hawaiting).trans
          (PathValidator.candidacy_of_awaiting hbefore).symm
        exact ⟨hat, List.mem_append_left _ ((if_pos hsame).symm ▸ hasked)⟩
      · exact absurd hgave (hnew.not_gave hturned.turns.later hd)
    · obtain ⟨token', hbytes', hheld⟩ := hturned.said q hq
      obtain rfl := Token.ext_bytes (hbytes'.trans hbytes.symm)
      have hheld := hheld.resolve_left (hturned.settled.apart _ hawaiting)
      obtain ⟨hat, -⟩ := Prod.mk.inj (Option.some.inj (hheld.symm.trans hawaiting))
      exact ⟨hat, List.mem_append_right _ hq⟩
  · exact ((Endpoint.called_call hcall).window h.fit.coherent h.window).1

section

variable (hc : cipher.Lawful) (hk : cipher.KeepsLength)
  (h : (system (carried cipher root cid dialling listening)).Via (Unguessed (carried cipher root cid dialling listening)) g)

include hc hk h

theorem sound :
    g.Sound cipher root :=
  System.Via.invariant h (fun _ hg => sound_opened hg) fun _ _ _ hg hok hs => hg.next hc hk hs (hok.1 _ hs)

/-- The candidate is never the address in use; and if no token is guessed, the address in use changes
only to the candidate, by a response from there that opens, was not taken before and echoes a
challenge that went there since it was proposed. -/
theorem migration_earned :
    (∀ candidate ∈ g.endpoint.transport.path.candidate, candidate.1 ≠ g.endpoint.transport.path.current) ∧
    ∀ a g', Unguessed (carried cipher root cid dialling listening) g a →
      next (carried cipher root cid dialling listening) g a = some g' →
      g'.endpoint.transport.path.current ≠ g.endpoint.transport.path.current →
      ∃ src now datagram header body, a = .recv src now datagram ∧ g'.endpoint.transport.path.current = src ∧
        g.endpoint.transport.path.candidacy = some src ∧
        cipher.openDatagram root g.endpoint.keys.sending.opposite datagram = some (header, body) ∧
        header.kind = .response ∧ header.number ∉ g.admitted ∧ (src, body) ∈ g.asked := by
  have hsound := sound hc hk h
  refine ⟨hsound.fit.apart, fun a g' hok hs hchanged => ?_⟩
  obtain ⟨hdistinct, hunguessed⟩ := hok
  have hd := hdistinct _ hs
  obtain ⟨⟨e, out, took⟩, hcall, rfl⟩ := Option.map_eq_some_iff.mp hs
  have hturned := (Endpoint.course_call hc hk hsound.fit hcall).turned hsound.settled hd
  obtain ⟨src, now, datagram, header, token, rfl, htook, hopen, hkind, hawaiting, hmoved⟩ :=
    hturned.moved.resolve_left hchanged
  obtain ⟨k, hk, hpool⟩ := hsound.settled.awaiting _ hawaiting
  have hechoed : echoed (carried cipher root cid dialling listening) g.endpoint (.recv src now datagram) = some token.bytes := by
    change (cipher.openDatagram root g.endpoint.keys.sending.opposite datagram).bind _ = _
    rw [hopen]
    exact if_pos hkind
  obtain ⟨q, hq, hbytes⟩ := List.mem_map.mp (hunguessed _ hechoed ⟨k, hk, congrArg (Option.map _) hpool⟩)
  obtain ⟨hat, hasked⟩ := hsound.asked q hq src token hawaiting hbytes.symm
  have hnumber := ((Endpoint.called_call hcall).window hsound.fit.coherent hsound.window).2 header.number (by
    rw [taking, if_pos htook, numberOf, decode_of_openDatagram hopen]
    exact List.mem_singleton_self _)
  refine ⟨src, now, datagram, header, token.bytes, rfl, hmoved, PathValidator.candidacy_of_awaiting hawaiting, hopen, hkind,
    hnumber, ?_⟩
  have hpair : q = (src, token.bytes) := Prod.ext hat hbytes
  exact hpair ▸ hasked

end

def proposedRun : List (Call ℕ) := [.recv 2 0 (sampled .serverToClient .frame 0 [105]), .pollTransmit 0]

def echo : Call ℕ := .recv 2 1 (sampled .serverToClient .response 1 (Foundation.beBytes 8 0))

theorem migration_earned_echo : ∃ g g', (system sample).Via (Unguessed sample) g ∧ next sample g echo = some g' ∧
    g.endpoint.transport.path.current = 1 ∧ g'.endpoint.transport.path.current = 2 ∧ ∃ body, (2, body) ∈ g.asked := by
  obtain ⟨g, hvia, hcurrent, hunguessed, hnext⟩ : ∃ g, (system sample).Via (Unguessed sample) g ∧
      g.endpoint.transport.path.current = 1 ∧ Unguessed sample g echo ∧
      (next sample g echo).any (fun g' => g'.endpoint.transport.path.current = 2) = true :=
    System.Via.of_run ⟨.new sample.cipher sample.cid sample.root (sample.dialled 1) .clientToServer, [], [], []⟩ proposedRun
      (.connect 1) (by decide +kernel)
  obtain ⟨g', hs, hmoved⟩ := (Option.any_eq_true _ _).1 hnext
  have hmoved := of_decide_eq_true hmoved
  have hchanged : g'.endpoint.transport.path.current ≠ g.endpoint.transport.path.current := by
    rw [hmoved, hcurrent]
    decide
  obtain ⟨src, _, _, _, body, -, hsrc, -, -, -, -, hasked⟩ :=
    (migration_earned Pair.lawful_plain keepsLength_sample hvia).2 echo g' hunguessed hs hchanged
  obtain rfl := hmoved.symm.trans hsrc
  exact ⟨g, g', hvia, hs, hcurrent, hmoved, body, hasked⟩

end Candidacy

end Braid.Dgram
