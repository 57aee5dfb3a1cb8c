import Braid.Dgram.Opening
import Braid.Foundation.System

/-! One side of a connection over the whole life of its root secret. The dialling side
connects. The other holds an offer, lets datagrams try it, may release what it accepted
and offer the secret again, and commits at most once. An endpoint is then called in any
order, at any times and with any datagrams. -/

namespace Braid.Dgram

open Foundation

/-- What the two sides share, and what is below them. -/
structure Setting (Secret Key τ Addr : Type*) where
  cipher : Cipher Secret Key
  transport : Transport τ Addr
  root : Secret
  cid : ConnectionId
  dialled : Addr → τ
  claimed : Addr → τ

inductive Holding (Secret Key τ Addr : Type*) where
  | offer
  | accepted (e : Endpoint Secret Key τ Addr)
  | live (e : Endpoint Secret Key τ Addr)

def Holding.live? {Secret Key τ Addr : Type*} : Holding Secret Key τ Addr → Option (Endpoint Secret Key τ Addr)
  | .live e => some e
  | _ => none

theorem Holding.live?_eq_some {Secret Key τ Addr : Type*} {h : Holding Secret Key τ Addr}
    {e : Endpoint Secret Key τ Addr} : h.live? = some e ↔ h = .live e := by
  cases h <;> simp [live?]

def Holding.endpoint {Secret Key τ Addr : Type*} : Holding Secret Key τ Addr → Option (Endpoint Secret Key τ Addr)
  | .offer => none
  | .accepted e | .live e => some e

/-- A side with its history: the datagrams emitted under the secret, the frames that were
sent in them by number, and what has arrived at, was admitted by and was delivered from the
endpoint held. -/
structure Party (Secret Key τ Addr : Type*) where
  holding : Holding Secret Key τ Addr
  emitted : List (List UInt8)
  sent : List (ℕ × List UInt8)
  arrived : List (List UInt8)
  admitted : List ℕ
  delivered : List (ℕ × List UInt8)

inductive Call (Addr : Type*) where
  | connect (peer : Addr)
  | listen (peer : Addr)
  | accept (src : Addr) (now : ℕ) (datagram : List UInt8)
  | commit
  | release
  | send (frame : List UInt8) (now : ℕ)
  | close (now : ℕ)
  | rotate
  | pollTransmit (now : ℕ)
  | recv (src : Addr) (now : ℕ) (datagram : List UInt8)
  | pathRefused (carries now : ℕ)
  | rekeyEvery (packets : ℕ)

def numberOf (datagram : List UInt8) : ℕ :=
  match Header.decode datagram with
  | .ok header => header.number
  | .error _ => 0

namespace Party

variable {Secret Key τ Addr : Type*} (st : Setting Secret Key τ Addr) (role : Direction)

def start : Party Secret Key τ Addr := ⟨.offer, [], [], [], [], []⟩

variable (p : Party Secret Key τ Addr)

def emit (e : Endpoint Secret Key τ Addr) (out : Option (List UInt8)) :
    Party Secret Key τ Addr :=
  { p with holding := .live e, emitted := p.emitted ++ out.toList }

def took (datagram : List UInt8) (received : Received Addr) : Party Secret Key τ Addr :=
  { p with
    arrived := p.arrived ++ [datagram]
    admitted := p.admitted ++ [numberOf datagram]
    delivered := p.delivered ++ match received with
      | .frame frame => [(numberOf datagram, frame)]
      | _ => [] }

def onLive (f : Endpoint Secret Key τ Addr → Option (Party Secret Key τ Addr)) :
    Option (Party Secret Key τ Addr) :=
  match p.holding with
  | .live e => f e
  | _ => none

def next (p : Party Secret Key τ Addr) : Call Addr → Option (Party Secret Key τ Addr)
  | .connect peer => match p.holding, role with
    | .offer, .clientToServer =>
      some { p with holding := .live (.new st.cipher st.cid st.root (st.dialled peer) .clientToServer) }
    | _, _ => none
  | .listen peer => match p.holding, role with
    | .offer, .serverToClient =>
      some { p with holding := .live (.new st.cipher st.cid st.root (st.claimed peer) .serverToClient) }
    | _, _ => none
  | .accept src now datagram => match p.holding, role with
    | .offer, .serverToClient =>
      match Endpoint.accept st.cipher st.transport st.cid st.root st.claimed src now datagram with
      | .ok (e, received) => some { p.took datagram received with holding := .accepted e }
      | .error _ => some p
    | _, _ => none
  | .commit => match p.holding with
    | .accepted e => some { p with holding := .live e }
    | _ => none
  | .release => match p.holding with
    | .accepted _ => some { p with holding := .offer, arrived := [], admitted := [], delivered := [] }
    | _ => none
  | .send frame now => p.onLive fun e =>
      (e.send st.cipher st.transport frame now).map fun
        | (e', .ok (_, datagram)) => { p.emit e' (some datagram) with sent := p.sent ++ [(e.next, frame)] }
        | (e', .error _) => p.emit e' none
  | .close now => p.onLive fun e =>
      (e.close st.cipher st.transport now).map fun (e', result) => p.emit e' (result.toOption.map Prod.snd)
  | .rotate => p.onLive fun e => some (p.emit (e.rotate st.cipher).1 none)
  | .pollTransmit now => p.onLive fun e =>
      (e.pollTransmit st.cipher st.transport now).map fun (e', sent) => p.emit e' (sent.map Prod.snd)
  | .recv src now datagram => p.onLive fun e =>
      match e.recv st.cipher st.transport src now datagram with
      | (e', .ok received) => some { p.took datagram received with holding := .live e' }
      | (e', .error _) => some { p with holding := .live e', arrived := p.arrived ++ [datagram] }
  | .pathRefused carries now => p.onLive fun e => some (p.emit (e.pathRefused st.transport carries now) none)
  | .rekeyEvery packets => p.onLive fun e => some (p.emit (e.rekeyEveryPackets packets) none)

def system : System (Party Secret Key τ Addr) (Call Addr) := ⟨(· = start), next st role⟩

/-- The calls a side can make: the offer is there, the endpoint may be released, or it is in use. -/
def Ready (call : Call Addr) : Prop :=
  match p.holding, call with
  | .offer, .connect _ => role = .clientToServer
  | .offer, .listen _ | .offer, .accept .. => role = .serverToClient
  | .accepted _, .commit | .accepted _, .release => True
  | .live _, .send .. | .live _, .close _ | .live _, .rotate | .live _, .pollTransmit _ | .live _, .recv ..
  | .live _, .pathRefused .. | .live _, .rekeyEvery _ => True
  | _, _ => False

/-! ### The sending half over a run -/

/-- The endpoint is this side's. -/
structure Own (e : Endpoint Secret Key τ Addr) : Prop where
  cid : e.cid = st.cid
  sending : e.keys.sending = role
  coherent : e.keys.Coherent st.cipher st.root
  top_le : e.window.top ≤ maxPacketNumber

/-- What was emitted, datagram by datagram. -/
structure Logged (p : Party Secret Key τ Addr) (packets : List Packet) : Prop where
  emitted : packets.map Packet.datagram = p.emitted
  packet : ∀ q ∈ packets, q.Sealed st.cipher st.root role ∧ q.header.cid = st.cid
  numbers : packets.Pairwise (·.header.number < ·.header.number)
  sent : p.sent = (packets.filter (·.header.kind = .frame)).map fun q => (q.header.number, q.body)
  holding : match p.holding with
    | .offer => packets = []
    | .accepted e => packets = [] ∧ e.next = 0 ∧ Own st role e
    | .live e => (∀ q ∈ packets, q.header.number < e.next) ∧ Own st role e

variable {st role} {p p' : Party Secret Key τ Addr} {packets : List Packet} {e e' : Endpoint Secret Key τ Addr}

theorem own_new (transport : τ) (role : Direction) :
    Own st role (.new st.cipher st.cid st.root transport role : Endpoint Secret Key τ Addr) :=
  ⟨rfl, rfl, KeySchedule.coherent_new st.root role, Nat.zero_le _⟩

theorem Own.advances {out : Option Packet} (h : Own st role e) (hadv : e.Advances st.cipher st.root e' out)
    (htop : e'.window.top ≤ maxPacketNumber) : Own st role e' :=
  ⟨hadv.cid.trans h.cid, hadv.sending.trans h.sending, hadv.coherent, htop⟩

theorem Own.recv {src : Addr} {now : ℕ} {datagram : List UInt8} {result : Except RecvError (Received Addr)}
    (h : Own st role e) (hrecv : e.recv st.cipher st.transport src now datagram = (e', result)) : Own st role e' := by
  refine h.advances (Endpoint.advances_recv hrecv h.coherent) ?_
  obtain ⟨header, body, keys, hopen, -, -, hcoh, -, -, -, heq⟩ | ⟨error, ahead, -, -, heq⟩ :=
    Endpoint.recv_cases (t := st.transport) h.coherent src now datagram
  · have hnumber : header.number ≤ maxPacketNumber := Header.number_decode (decode_of_openDatagram hopen)
    have htop : (e.window.admit_ header.number).1.top ≤ maxPacketNumber := by
      rw [ReplayWindow.top_admit_]
      split_ifs
      · exact max_le h.top_le hnumber
      · exact h.top_le
    obtain ⟨htake, hdrop⟩ :=
      Endpoint.admitted_spec (t := st.transport) (e := { e with keys }) hcoh src now datagram.length header body
    rw [heq] at hrecv
    by_cases hfresh : (e.window.admit_ header.number).2 = .fresh
    · obtain ⟨e₁, received, htaken, -, hwindow, -⟩ := htake hfresh
      obtain ⟨rfl, -⟩ := Prod.mk.inj (htaken.symm.trans hrecv)
      rw [hwindow]
      exact htop
    · obtain ⟨rfl, -⟩ := Prod.mk.inj ((hdrop hfresh).symm.trans hrecv)
      exact htop
  · obtain ⟨rfl, -⟩ := Prod.mk.inj (heq.symm.trans hrecv)
    exact h.top_le

/-! ### What a call does -/

variable (st role) in
/-- One call, by what it does to the side and its history. -/
inductive Moves (p : Party Secret Key τ Addr) : Call Addr → Party Secret Key τ Addr → Prop where
  | opened {call : Call Addr} (transport : τ) : p.holding = .offer →
      Moves p call { p with holding := .live (.new st.cipher st.cid st.root transport role) }
  | accepted {src : Addr} {now : ℕ} {datagram : List UInt8} {e : Endpoint Secret Key τ Addr} {received : Received Addr} :
      p.holding = .offer →
      Endpoint.recv st.cipher st.transport (.new st.cipher st.cid st.root (st.claimed src) role) src now datagram =
        (e, .ok received) →
      Moves p (.accept src now datagram) { p.took datagram received with holding := .accepted e }
  | rejected {src : Addr} {now : ℕ} {datagram : List UInt8} : Moves p (.accept src now datagram) p
  | committed {e : Endpoint Secret Key τ Addr} : p.holding = .accepted e → Moves p .commit { p with holding := .live e }
  | released {e : Endpoint Secret Key τ Addr} : p.holding = .accepted e →
      Moves p .release { p with holding := .offer, arrived := [], admitted := [], delivered := [] }
  | spoke {call : Call Addr} {e e' : Endpoint Secret Key τ Addr} {out : Option Packet} : p.holding = .live e →
      e.Advances st.cipher st.root e' out → e.SameReading e' →
      Moves p call { p with
        holding := .live e'
        emitted := p.emitted ++ (out.map Packet.datagram).toList
        sent := p.sent ++ (out.toList.filter (·.header.kind = .frame)).map fun q => (q.header.number, q.body) }
  | took {src : Addr} {now : ℕ} {datagram : List UInt8} {e e' : Endpoint Secret Key τ Addr} {received : Received Addr} :
      p.holding = .live e → e.recv st.cipher st.transport src now datagram = (e', .ok received) →
      Moves p (.recv src now datagram) { p.took datagram received with holding := .live e' }
  | refused {src : Addr} {now : ℕ} {datagram : List UInt8} {e e' : Endpoint Secret Key τ Addr} {error : RecvError} :
      p.holding = .live e → e.recv st.cipher st.transport src now datagram = (e', .error error) →
      Moves p (.recv src now datagram) { p with holding := .live e', arrived := p.arrived ++ [datagram] }
  | repaced {packets : ℕ} {e : Endpoint Secret Key τ Addr} : p.holding = .live e →
      Moves p (.rekeyEvery packets) { p with holding := .live (e.rekeyEveryPackets packets) }

variable {f : Endpoint Secret Key τ Addr → Option (Party Secret Key τ Addr)}

theorem exists_of_onLive
    (h : p.onLive f = some p') : ∃ e, p.holding = .live e ∧ f e = some p' := by
  unfold onLive at h
  split at h
  · exact ⟨_, ‹_›, h⟩
  · cases h

variable {call : Call Addr}

theorem Moves.emit {out : Option Packet} {bytes : Option (List UInt8)} (hlive : p.holding = .live e)
    (hadv : e.Advances st.cipher st.root e' out) (hsame : e.SameReading e') (hbytes : bytes = out.map Packet.datagram)
    (hkind : ∀ q ∈ out, q.header.kind ≠ .frame) : Moves st role p call (p.emit e' bytes) := by
  have hnone : out.toList.filter (·.header.kind = .frame) = [] := by
    rw [List.filter_eq_nil_iff]
    intro q hq
    simpa using hkind q (Option.mem_toList.mp hq)
  have hspoke : Moves st role p call _ := .spoke hlive hadv hsame
  rw [hnone, List.map_nil, List.append_nil] at hspoke
  rw [hbytes]
  exact hspoke

theorem moves_of_next (hown : ∀ e, p.holding = .live e → Own st role e)
    (h : next st role p call = some p') : Moves st role p call p' := by
  cases call with
  | connect peer =>
    dsimp only [next] at h
    split at h
    · cases h
      exact .opened _ ‹_›
    · cases h
  | listen peer =>
    dsimp only [next] at h
    split at h
    · cases h
      exact .opened _ ‹_›
    · cases h
  | accept src now datagram =>
    dsimp only [next] at h
    split at h
    · rename_i hoffer
      split at h
      · rename_i e received haccept
        cases h
        exact .accepted hoffer (Endpoint.recv_of_accept haccept)
      · cases h
        exact .rejected
    · cases h
  | commit =>
    dsimp only [next] at h
    split at h
    · cases h
      exact .committed ‹_›
    · cases h
  | release =>
    dsimp only [next] at h
    split at h
    · cases h
      exact .released ‹_›
    · cases h
  | send frame now =>
    obtain ⟨e, hlive, h⟩ := exists_of_onLive h
    obtain ⟨⟨e', result⟩, hsend, rfl⟩ := Option.map_eq_some_iff.mp h
    obtain ⟨hsame, out, hadv, hresult, hout⟩ := Endpoint.send_spec hsend (hown e hlive).coherent
    cases result with
    | error error =>
      obtain rfl := Option.map_eq_none_iff.mp hresult.symm
      exact .emit hlive hadv hsame rfl nofun
    | ok sent =>
      obtain ⟨q, rfl, hq⟩ := Option.map_eq_some_iff.mp hresult.symm
      obtain ⟨hkind, rfl⟩ := hout q rfl
      obtain ⟨-, -, hnumber, -⟩ := hadv.packet q rfl
      have hspoke : Moves st role p (.send q.body now) _ := .spoke hlive hadv hsame
      simp only [Option.toList_some, List.filter_cons, hkind, decide_true, if_true, List.filter_nil, List.map_cons,
        List.map_nil, hnumber, Option.map_some, hq] at hspoke
      exact hspoke
  | close now =>
    obtain ⟨e, hlive, h⟩ := exists_of_onLive h
    obtain ⟨⟨e', result⟩, hclose, rfl⟩ := Option.map_eq_some_iff.mp h
    obtain ⟨hsame, out, hadv, hresult, hkind⟩ := Endpoint.close_spec hclose (hown e hlive).coherent
    exact .emit hlive hadv hsame hresult hkind
  | rotate =>
    obtain ⟨e, hlive, h⟩ := exists_of_onLive h
    cases h
    obtain ⟨hadv, hsame⟩ := Endpoint.advances_rotate (hown e hlive).coherent
    exact .emit hlive hadv hsame rfl nofun
  | pollTransmit now =>
    obtain ⟨e, hlive, h⟩ := exists_of_onLive h
    obtain ⟨⟨e', sent⟩, hpoll, rfl⟩ := Option.map_eq_some_iff.mp h
    obtain ⟨hsame, out, hadv, hsent, hkind⟩ := (Endpoint.polled_pollTransmit hpoll).polls (hown e hlive).coherent
    exact .emit hlive hadv hsame hsent hkind
  | recv src now datagram =>
    obtain ⟨e, hlive, h⟩ := exists_of_onLive h
    split at h
    · cases h
      exact .took hlive ‹_›
    · cases h
      exact .refused hlive ‹_›
  | pathRefused carries now =>
    obtain ⟨e, hlive, h⟩ := exists_of_onLive h
    cases h
    exact .emit hlive (Endpoint.advances_of_eq (hown e hlive).coherent rfl rfl rfl rfl rfl) ⟨rfl, rfl, rfl⟩ rfl nofun
  | rekeyEvery packets =>
    obtain ⟨e, hlive, h⟩ := exists_of_onLive h
    cases h
    rw [Party.emit, Option.toList_none, List.append_nil]
    exact .repaced hlive

theorem Logged.emit (h : Logged st role p packets) (hlive : p.holding = .live e) {out : Option Packet}
    (hadv : e.Advances st.cipher st.root e' out) (hsame : e.SameReading e') (hp' : p'.holding = .live e')
    (hemitted : p'.emitted = p.emitted ++ (out.map Packet.datagram).toList)
    (hsent : p'.sent = p.sent ++ (out.toList.filter (·.header.kind = .frame)).map fun q => (q.header.number, q.body)) :
    Logged st role p' (packets ++ out.toList) := by
  have hholding := h.holding
  rw [hlive] at hholding
  obtain ⟨hbelow, hown⟩ := hholding
  have hout : ∀ q ∈ out.toList, q.Sealed st.cipher st.root role ∧ q.header.cid = st.cid ∧ q.header.number = e.next :=
    fun q hq => by
      obtain ⟨hsealed, hcid, hnumber, -⟩ := hadv.packet q (Option.mem_toList.mp hq)
      exact ⟨hown.sending ▸ hsealed, hcid.trans hown.cid, hnumber⟩
  refine ⟨?_, fun q hq => ?_, List.pairwise_append.mpr ⟨h.numbers, ?_, fun a ha b hb => ?_⟩, ?_, ?_⟩
  · rw [List.map_append, h.emitted, hemitted]
    cases out <;> rfl
  · obtain hq | hq := List.mem_append.mp hq
    · exact h.packet q hq
    · exact ⟨(hout q hq).1, (hout q hq).2.1⟩
  · cases out
    · exact List.Pairwise.nil
    · exact List.pairwise_singleton _ _
  · rw [(hout b hb).2.2]
    exact hbelow a ha
  · rw [hsent, h.sent, List.filter_append, List.map_append]
  · rw [hp']
    refine ⟨fun q hq => ?_, hown.advances hadv (hsame.window ▸ hown.top_le)⟩
    rw [hadv.next]
    obtain hq | hq := List.mem_append.mp hq
    · exact Nat.lt_add_right _ (hbelow q hq)
    · rw [(hout q hq).2.2]
      exact Nat.lt_add_of_pos_right (List.length_pos_of_mem hq)

theorem Logged.keep (h : Logged st role p packets) (hlive : p.holding = .live e)
    (hadv : e.Advances st.cipher st.root e' none) (htop : e'.window.top ≤ maxPacketNumber)
    (hp' : p'.holding = .live e') (hemitted : p'.emitted = p.emitted) (hsent : p'.sent = p.sent) :
    Logged st role p' packets := by
  have hholding := h.holding
  rw [hlive] at hholding
  refine ⟨h.emitted.trans hemitted.symm, h.packet, h.numbers, hsent.trans h.sent, ?_⟩
  rw [hp']
  exact ⟨fun q hq => hadv.next ▸ hholding.1 q hq, hholding.2.advances hadv htop⟩

theorem endpoint_live (hlive : p.holding = .live e) : p.holding.endpoint = some e := by
  rw [hlive, Holding.endpoint]

theorem Logged.own (h : Logged st role p packets) (hheld : p.holding.endpoint = some e) : Own st role e := by
  have hholding := h.holding
  cases hp : p.holding with
  | offer =>
    rw [hp] at hheld
    cases hheld
  | accepted e =>
    rw [hp] at hholding hheld
    exact Option.some.inj hheld ▸ hholding.2.2
  | live e =>
    rw [hp] at hholding hheld
    exact Option.some.inj hheld ▸ hholding.2

theorem logged_start : Logged st role start [] := ⟨rfl, nofun, .nil, rfl, rfl⟩

/-- Every call adds what it emits to the log. -/
theorem Logged.moves (h : Logged st role p packets) (hmoves : Moves st role p call p') :
    ∃ more, Logged st role p' (packets ++ more) := by
  have hholding := h.holding
  cases hmoves with
  | opened transport hoffer =>
    rw [hoffer] at hholding
    obtain rfl : packets = [] := hholding
    exact ⟨[], h.emitted, h.packet, h.numbers, h.sent, ⟨nofun, own_new transport role⟩⟩
  | accepted hoffer hrecv =>
    rw [hoffer] at hholding
    obtain rfl : packets = [] := hholding
    have hadv := Endpoint.advances_recv hrecv (own_new _ role).coherent
    exact ⟨[], h.emitted, h.packet, h.numbers, h.sent, ⟨rfl, hadv.next, (own_new _ role).recv hrecv⟩⟩
  | rejected => exact ⟨[], by rw [List.append_nil]; exact h⟩
  | committed hheld =>
    rw [hheld] at hholding
    obtain ⟨rfl, -, hown⟩ := hholding
    exact ⟨[], h.emitted, h.packet, h.numbers, h.sent, ⟨nofun, hown⟩⟩
  | released hheld =>
    rw [hheld] at hholding
    obtain ⟨rfl, -⟩ := hholding
    exact ⟨[], h.emitted, h.packet, h.numbers, h.sent, rfl⟩
  | spoke hlive hadv hsame => exact ⟨_, h.emit hlive hadv hsame rfl rfl rfl⟩
  | took hlive hrecv | refused hlive hrecv =>
    have hown := h.own (endpoint_live hlive)
    refine ⟨[], ?_⟩
    rw [List.append_nil]
    exact h.keep hlive (Endpoint.advances_recv hrecv hown.coherent) (hown.recv hrecv).top_le rfl rfl rfl
  | repaced hlive =>
    rw [hlive] at hholding
    refine ⟨[], ?_⟩
    rw [List.append_nil]
    obtain ⟨hbelow, hown⟩ := hholding
    exact ⟨h.emitted, h.packet, h.numbers, h.sent,
      ⟨hbelow, { hown with }⟩⟩

theorem Logged.next (h : Logged st role p packets) (hs : next st role p call = some p') :
    ∃ more, Logged st role p' (packets ++ more) :=
  h.moves (moves_of_next (fun _ hlive => h.own (endpoint_live hlive)) hs)

theorem exists_logged (h : (system st role).Reachable p) : ∃ packets, Logged st role p packets := by
  refine System.Reachable.invariant (P := fun p => ∃ packets, Logged st role p packets) h (fun s hs => ?_)
    fun s call s' hp hs => ?_
  · obtain rfl := hs
    exact ⟨[], logged_start⟩
  · obtain ⟨packets, hlogged⟩ := hp
    obtain ⟨more, hlogged⟩ := hlogged.next hs
    exact ⟨_, hlogged⟩

/-! ### Rotations that keep up -/

/-- The default interval is left in force. -/
def Default (_ : Party Secret Key τ Addr) : Call Addr → Prop
  | .rekeyEvery _ => False
  | _ => True

instance (p : Party Secret Key τ Addr) : (call : Call Addr) → Decidable (p.Default call)
  | .rekeyEvery _ => .isFalse id
  | .connect _ | .listen _ | .accept .. | .commit | .release | .send .. | .close _ | .rotate | .pollTransmit _ | .recv ..
  | .pathRefused .. => .isTrue trivial

theorem paced_new (transport : τ) :
    (Endpoint.new st.cipher st.cid st.root transport role : Endpoint Secret Key τ Addr).Paced :=
  ⟨rfl, Nat.zero_le _, (Nat.one_mul rekeyAfter).ge⟩

theorem paced_moves (h : Logged st role p packets) (hdefault : p.Default call)
    (hpaced : ∀ e, p.holding.endpoint = some e → e.Paced) (hmoves : Moves st role p call p') :
    ∀ e, p'.holding.endpoint = some e → e.Paced := by
  intro e' hheld
  cases hmoves with
  | opened transport hoffer => exact Option.some.inj hheld ▸ paced_new transport
  | accepted hoffer hrecv =>
    have hadv := Endpoint.advances_recv hrecv (KeySchedule.coherent_new st.root role)
    exact Option.some.inj hheld ▸ hadv.paced (paced_new _)
  | rejected => exact hpaced e' hheld
  | committed hheld' => exact hpaced e' (by rw [hheld']; exact hheld)
  | released hheld' => cases (hheld : none = some e')
  | spoke hlive hadv hsame => exact Option.some.inj hheld ▸ hadv.paced (hpaced _ (endpoint_live hlive))
  | took hlive hrecv | refused hlive hrecv =>
    have hadv := Endpoint.advances_recv hrecv (h.own (endpoint_live hlive)).coherent
    exact Option.some.inj hheld ▸ hadv.paced (hpaced _ (endpoint_live hlive))
  | repaced hlive => cases hdefault

theorem paced_of_default (h : (system st role).Via Default p) :
    ∀ e, p.holding.endpoint = some e → e.Paced := by
  -- the log comes along, since it is what says that the keys are this side's
  have hboth := System.Via.invariant (P := fun p => (∃ packets, Logged st role p packets) ∧
      ∀ e, p.holding.endpoint = some e → e.Paced) h (fun s hs => ?_)
    fun s call s' ⟨⟨packets, hlogged⟩, hpaced⟩ hdefault hs => ?_
  · exact hboth.2
  · obtain rfl := hs
    exact ⟨⟨[], logged_start⟩, nofun⟩
  · have hmoves := moves_of_next (fun e hlive => hlogged.own (endpoint_live hlive)) hs
    obtain ⟨more, hlogged'⟩ := hlogged.moves hmoves
    exact ⟨⟨_, hlogged'⟩, paced_moves hlogged hdefault hpaced hmoves⟩

theorem onLive_isSome (hlive : p.holding = .live e)
    (hf : (f e).isSome = true) : (p.onLive f).isSome = true := by
  rw [onLive, hlive]
  exact hf

theorem next_isSome (hlogged : Logged st role p packets)
    (hpaced : ∀ e, p.holding.endpoint = some e → e.Paced) (hready : Ready role p call) :
    (next st role p call).isSome = true := by
  have hown : ∀ e, p.holding = .live e → Own st role e ∧ e.Paced := fun e hlive =>
    ⟨hlogged.own (endpoint_live hlive), hpaced e (endpoint_live hlive)⟩
  unfold Ready at hready
  cases hholding : p.holding with
  | offer =>
    rw [hholding] at hready
    cases call with
    | connect peer =>
      obtain rfl := hready
      simp only [next, hholding, Option.isSome_some]
    | listen peer =>
      obtain rfl := hready
      simp only [next, hholding, Option.isSome_some]
    | accept src now datagram =>
      obtain rfl := hready
      simp only [next, hholding]
      split <;> rfl
    | _ => cases hready
  | accepted e =>
    rw [hholding] at hready
    cases call with
    | commit | release => simp only [next, hholding, Option.isSome_some]
    | _ => cases hready
  | live e =>
    rw [hholding] at hready
    obtain ⟨hown, hpaced⟩ := hown e hholding
    cases call with
    | send frame now =>
      refine onLive_isSome hholding ?_
      rw [Option.isSome_map]
      exact Endpoint.send_isSome hown.coherent hpaced
    | close now =>
      refine onLive_isSome hholding ?_
      rw [Option.isSome_map]
      exact Endpoint.close_isSome hown.coherent hpaced
    | pollTransmit now =>
      refine onLive_isSome hholding ?_
      rw [Option.isSome_map]
      exact Endpoint.pollTransmit_isSome hown.coherent hpaced hown.top_le
    | recv src now datagram =>
      refine onLive_isSome hholding ?_
      split <;> rfl
    | rotate | pathRefused carries now | rekeyEvery packets => exact onLive_isSome hholding rfl
    | _ => cases hready

/-- Over the whole life of a root secret no two datagrams are emitted under one epoch and
number, and the numbers go up. What was accepted and released has emitted nothing. With the
default interval every call returns; past the last number it is that the epochs are exhausted. -/
theorem nonces_never_repeat (h : (system st role).Reachable p) :
    (∃ packets : List Packet, packets.map Packet.datagram = p.emitted ∧
      (∀ q ∈ packets, q.Sealed st.cipher st.root role) ∧
      packets.Pairwise (·.header.number < ·.header.number) ∧
      (packets.map fun q => (q.header.epoch, q.header.number)).Nodup) ∧
    ((∀ e, p.holding ≠ .live e) → p.emitted = []) ∧
    ((system st role).Via Default p →
      (∀ call, Ready role p call → (next st role p call).isSome = true) ∧
      ∀ e, p.holding = .live e → maxPacketNumber < e.next →
        (∀ frame now, frame.length ≤ e.payloadLimit st.transport → e.writable st.transport now frame.length = true →
          e.send st.cipher st.transport frame now = some (e, .error .exhausted)) ∧
        ∀ kind body dest now, e.closed = false → (kind.tracked = true → st.transport.admits e.transport = true) →
          e.seal_ st.cipher st.transport kind body dest now = some (e, .error .exhausted)) := by
  obtain ⟨packets, hlogged⟩ := exists_logged h
  refine ⟨⟨packets, hlogged.emitted, fun q hq => (hlogged.packet q hq).1, hlogged.numbers, ?_⟩, fun hnot => ?_,
    fun hdefault => ⟨fun call hready => next_isSome hlogged (paced_of_default hdefault) hready, fun e hlive hlast => ?_⟩⟩
  · refine List.pairwise_map.mpr (hlogged.numbers.imp fun hlt heq => ?_)
    exact absurd (Prod.mk.inj heq).2 hlt.ne
  · have hholding := hlogged.holding
    rw [← hlogged.emitted]
    cases hheld : p.holding with
    | offer =>
      rw [hheld] at hholding
      rw [hholding, List.map_nil]
    | accepted e =>
      rw [hheld] at hholding
      rw [hholding.1, List.map_nil]
    | live e => exact absurd hheld (hnot e)
  · have hpaced := paced_of_default hdefault e (endpoint_live hlive)
    exact ⟨fun frame now hsize hwritable => Endpoint.send_exhausted hpaced hlast hsize hwritable,
      fun kind body dest now hclosed hadmits => Endpoint.seal_exhausted hpaced hlast hclosed hadmits⟩

def plain : Setting ℕ (Direction × ℕ) Unit ℕ where
  cipher := {
    ratchet := (· + 1)
    derive direction secret := (direction, secret)
    encrypt key _ number body := (body, stamp key number)
    decrypt key _ number payload tag := if tag = stamp key number then some payload else none }
  transport := {
    current _ := 0
    maySend _ _ _ := true
    spent _ _ _ := ()
    arrived _ _ _ _ := ()
    answered _ _ _ := ((), none)
    pollChallenge _ _ := ((), none)
    admits _ := true
    writable _ _ _ := true
    sealed _ _ _ _ := ()
    expire _ _ := ()
    acknowledged _ _ _ _ := ()
    migrated _ := ()
    datagram _ := 1200
    confirming _ := false
    pollProbe _ _ := ((), none)
    probing _ _ := ()
    refused _ _ _ := () }
  root := 7
  cid := ⟨List.replicate 8 9, rfl⟩
  dialled _ := ()
  claimed _ := ()
where
  stamp (key : Direction × ℕ) (number : ℕ) : List UInt8 :=
    (if key.1 = .clientToServer then 1 else 2) :: Foundation.beBytes 1 key.2 ++ Foundation.beBytes 14 number

/-- The first datagram the dialling side emits, if it is a frame of one byte. -/
def hello : List UInt8 :=
  0 :: List.replicate 8 9 ++ [0, 0, 0, 0, 0, 0, 0] ++ [104] ++ plain.stamp (.clientToServer, 7) 0

/-- A datagram accepted, released and accepted again; then a frame and the acknowledgement. -/
def greetRun : List (Call ℕ) :=
  [.accept 1 0 hello, .release, .accept 1 0 hello, .commit, .send [105] 0, .rotate, .pollTransmit 25000000]

theorem nonces_never_repeat_greetRun : ∃ p, (system plain .serverToClient).Via Default p ∧ p.emitted.length = 2 ∧
    (∃ packets : List Packet, packets.map Packet.datagram = p.emitted ∧
      (packets.map fun q => (q.header.epoch, q.header.number)).Nodup) ∧
    ∀ call, Ready .serverToClient p call → (next plain .serverToClient p call).isSome = true := by
  obtain ⟨p, hvia, hlength⟩ : ∃ p, (system plain .serverToClient).Via Default p ∧ p.emitted.length = 2 :=
    System.Via.of_run start greetRun rfl (by decide)
  obtain ⟨⟨packets, hemitted, -, -, hnodup⟩, -, hdefault⟩ := nonces_never_repeat hvia.reachable
  exact ⟨p, hvia, hlength, ⟨packets, hemitted, hnodup⟩, (hdefault hvia).1⟩

end Party

end Braid.Dgram
