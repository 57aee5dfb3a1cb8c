import Braid.Client.Retire
import Braid.Forwarding.Sending

/-! The thread that reads the local socket of a forward, beside the pump. Both grant it room: the
pump what the stream has, under the table; the reader what it was told when it last wrote to
the stream, after it let go of the table. One step is what happens under one lock. The local
side declares no end and the socket makes no errors. -/

namespace Braid.Client

open Foundation Forwarding

inductive Reader where
  /-- In `Credit::take`: to read, or to go on with the rest of what it read. -/
  | taking (rest : List UInt8)
  | reading (allowed : ℕ)
  | ingesting (bytes : List UInt8)
  /-- It has let go of the table, and holds the room it was told. -/
  | granting (room : ℕ) (rest : List UInt8)
  | gone
  deriving DecidableEq

def Reader.held : Reader → Option ℕ
  | granting room _ => some room
  | _ => none

/-- A connection with its reader, and whether the pump was notified since its last pass began. -/
structure Feed where
  conn : Conn
  reader : Reader
  woken : Bool
  deriving DecidableEq

inductive FeedAction where
  | take
  | read (bytes : List UInt8)
  | interrupted
  | ingest (now : ℕ)
  | grant
  /-- Frames arrive, the pump makes its pass, the writer works. -/
  | conn (a : ConnAction)
  | notify
  deriving DecidableEq

namespace Feed

def new : Feed := ⟨.new, .taking [], true⟩

def readLoop (g : Feed) : Reader → FeedAction → Option Feed
  | .taking rest, .take =>
    if g.conn.credit.closed then some { g with reader := .gone }
    else if g.conn.credit.allowed = 0 then none
    else some { g with
      reader := if rest = [] then .reading (min g.conn.credit.allowed maxForwardChunk) else .ingesting rest }
  | .reading allowed, .read bytes =>
    if bytes ≠ [] ∧ bytes.length ≤ allowed then some { g with reader := .ingesting bytes } else none
  | .reading _, .interrupted => some { g with reader := .taking [] }
  | .ingesting bytes, .ingest now =>
    if g.conn.phase = .retired then some { g with reader := .gone }
    else if g.conn.phase = .idle then
      let (stream, taken) := g.conn.stream.write bytes now
      some ⟨{ g.conn with stream }, .granting stream.writable (bytes.drop taken), true⟩
    else none
  | .granting room rest, .grant =>
    some { g with conn := { g.conn with credit := { g.conn.credit with allowed := room } }, reader := .taking rest }
  | _, _ => none

/-- What a step of the others does to the notification; the reader's own steps are not among them. -/
def stir (woken : Bool) : ConnAction → Option Bool
  | .ingest _ _ | .localEnd => none
  | .onData _ _ _ | .onAck _ _ _ _ => some true
  | .moveFirst _ => some false
  | _ => some woken

def next (g : Feed) : FeedAction → Option Feed
  | .conn a => (stir g.woken a).bind fun woken => (g.conn.next a).map fun conn => { g with conn, woken }
  | .notify => if g.conn.phase = .idle then some { g with woken := true } else none
  | a => g.readLoop g.reader a

def system : System Feed FeedAction := ⟨(· = new), next⟩

/-- The reader waits for room, and nobody is on the way to grant it some. -/
structure Parked (g : Feed) : Prop where
  idle : g.conn.phase = .idle
  unwoken : g.woken = false
  taking : ∃ rest, g.reader = .taking rest
  spent : g.conn.credit.allowed = 0
  live : g.conn.credit.closed = false

/-- When the pump grants, the reader does not hold that there is no room although there is. -/
def Fresh (g : Feed) (a : FeedAction) : Prop :=
  a = .conn .handEnd → ∀ rest, g.reader = .granting 0 rest → g.conn.stream.writable = 0

variable {g g' : Feed} {a : FeedAction}

/-- The pump has yet to grant. -/
def owed (g : Feed) : Bool :=
  g.woken || match g.conn.phase with
    | .second _ _ | .ending => true
    | _ => false

/-- The room the reader has, once it has granted what it holds. -/
def figure (g : Feed) : ℕ := g.reader.held.getD g.conn.credit.allowed

/-- If the pump has not yet to grant, the reader is short of room only if the stream is. -/
def Fed (g : Feed) : Prop := g.owed = false → g.figure = 0 → g.conn.stream.writable = 0

theorem Fed.congr (h : g.Fed) (howed : g'.owed = g.owed) (hfigure : g'.figure = g.figure)
    (hwritable : g'.conn.stream.writable = g.conn.stream.writable) : g'.Fed := by
  intro hquiet hzero
  rw [hwritable]
  exact h (howed ▸ hquiet) (hfigure ▸ hzero)

theorem pumpOut_writable (s : Stream) (now budget wrap : ℕ) (ackTaken : Bool) (room : ℕ) :
    (Conn.pumpOut s now budget wrap ackTaken room).send.buffer = s.send.buffer ∧
      (Conn.pumpOut s now budget wrap ackTaken room).send.fin = s.send.fin := by
  have hpoll : ∀ s : Sender, (s.pollTransmit now budget wrap).1.buffer = s.buffer ∧
      (s.pollTransmit now budget wrap).1.fin = s.fin := fun s => by
    obtain ⟨-, -, -, -, hbuffer, hfin⟩ := s.wake_frame now
    unfold Sender.pollTransmit
    dsimp only
    split_ifs
    · exact ⟨rfl, rfl⟩
    · exact ⟨hbuffer, hfin⟩
  have hloop : ∀ s' : Stream, s'.send = s.send → (s'.transmitAll now budget wrap room).send.buffer = s.send.buffer ∧
      (s'.transmitAll now budget wrap room).send.fin = s.send.fin := fun s' hsend =>
    Stream.transmitAll_rule (fun s' => s'.send.buffer = s.send.buffer ∧ s'.send.fin = s.send.fin)
      (fun s' h => ⟨(hpoll s'.send).1.trans h.1, (hpoll s'.send).2.trans h.2⟩) (fun _ _ h => h) room (hsend ▸ ⟨rfl, rfl⟩)
  unfold Conn.pumpOut
  split <;> rename_i heq <;> simp only [Stream.pollAck, Prod.mk.injEq] at heq <;> obtain ⟨rfl, -⟩ := heq
  · split_ifs
    · exact hloop _ rfl
    · exact ⟨rfl, rfl⟩
  · exact hloop _ rfl

theorem writable_congr {s s' : Sender} (hbuffer : s'.buffer = s.buffer) (hfin : s'.fin = s.fin) : s'.writable = s.writable := by
  rw [Sender.writable, Sender.writable, hbuffer, hfin]

theorem Fed.readLoop (h : g.Fed) {reader : Reader} (hreader : g.reader = reader) (hs : g.readLoop reader a = some g') : g'.Fed := by
  have hmoved : ∀ reader' : Reader, reader.held = none → reader'.held = none → Fed { g with reader := reader' } := by
    intro reader' hheld hheld'
    refine h.congr rfl ?_ rfl
    rw [figure, figure, hreader, hheld, hheld']
  unfold Feed.readLoop at hs
  split at hs
  · split_ifs at hs <;>
    · cases hs
      exact hmoved _ rfl rfl
  · split_ifs at hs
    cases hs
    exact hmoved _ rfl rfl
  · cases hs
    exact hmoved _ rfl rfl
  · split_ifs at hs
    · cases hs
      exact hmoved _ rfl rfl
    · cases hs
      exact nofun
  · cases hs
    refine h.congr rfl ?_ rfl
    rw [figure, figure, hreader]
    rfl
  · cases hs

theorem Fed.pump (h : g.Fed) {phase : Phase} {a : ConnAction} {woken : Bool} {conn : Conn} (hok : Fresh g (.conn a))
    (hphase : g.conn.phase = phase) (hstir : stir g.woken a = some woken) (hs : g.conn.pump phase a = some conn) :
    Fed { g with conn, woken } := by
  -- past the grant, the connection counts for its allowance and its room alone
  have hpast : ∀ conn : Conn, phase = .outgoing ∨ phase = .checking ∨ phase = .retiring →
      conn.phase = .checking ∨ conn.phase = .idle ∨ conn.phase = .retiring ∨ conn.phase = .retired →
      conn.credit.allowed = g.conn.credit.allowed → conn.stream.writable = g.conn.stream.writable →
      stir g.woken a = some g.woken → Fed { g with conn, woken } := by
    intro conn hbefore hafter hallowed hwritable hsame
    obtain rfl := Option.some.inj (hsame.symm.trans hstir)
    refine h.congr ?_ (congrArg g.reader.held.getD hallowed) hwritable
    rw [owed, owed, hphase]
    obtain rfl | rfl | rfl := hbefore <;> obtain hafter | hafter | hafter | hafter := hafter <;> rw [hafter]
  unfold Conn.pump at hs
  split at hs
  · cases hs
    intro howed
    split_ifs at howed <;> cases (Bool.or_eq_false_iff.mp howed).2
  · cases hs
    intro howed
    cases (Bool.or_eq_false_iff.mp howed).2
  · obtain ⟨-, hs⟩ := Option.ite_none_left_eq_some.mp hs
    cases hs
    intro _ hfigure
    cases hreader : g.reader with
    | granting room rest =>
      rw [hreader] at hfigure
      obtain rfl : room = 0 := hfigure
      exact hok rfl rest hreader
    | taking | reading | ingesting | gone =>
      rw [hreader] at hfigure
      exact hfigure
  · cases hs
    obtain ⟨hbuffer, hfin⟩ := pumpOut_writable g.conn.stream _ _ _ _ _
    exact hpast _ (.inl rfl) (.inl rfl) rfl (writable_congr hbuffer hfin) rfl
  · cases hs
    exact hpast _ (.inl rfl) (.inl rfl) rfl rfl rfl
  · cases hs
    refine hpast _ (.inr (.inl rfl)) ?_ rfl rfl rfl
    split_ifs
    · exact .inr (.inr (.inl rfl))
    · exact .inr (.inl rfl)
  · cases hs
    exact hpast _ (.inr (.inr rfl)) (.inr (.inr (.inr rfl))) rfl rfl rfl
  · cases hs

/-- Of the others, only a frame changes the room the stream has, and it notifies the pump. -/
theorem Fed.conn (h : g.Fed) {a : ConnAction} (hok : Fresh g (.conn a)) (hs : g.next (.conn a) = some g') : g'.Fed := by
  obtain ⟨woken, hstir, hs⟩ := Option.bind_eq_some_iff.mp hs
  obtain ⟨conn, hconn, rfl⟩ := Option.map_eq_some_iff.mp hs
  cases a with
  | ingest bytes now | localEnd => cases hstir
  | onData off fin bytes | onAck off window held now =>
    cases hstir
    exact nofun
  | work step =>
    cases hstir
    obtain ⟨-, hconn⟩ := Option.ite_none_left_eq_some.mp hconn
    obtain ⟨outlet, -, rfl⟩ := Option.map_eq_some_iff.mp hconn
    exact h
  | moveFirst | moveSecond | handEnd | transmit | skip | check | retire => exact h.pump hok rfl hstir hconn

theorem Fed.next (h : g.Fed) (hok : Fresh g a) (hs : g.next a = some g') : g'.Fed := by
  cases a with
  | conn a => exact h.conn hok hs
  | notify =>
    obtain ⟨-, hs⟩ := Option.ite_none_right_eq_some.mp hs
    cases hs
    exact nofun
  | take | read bytes | interrupted | ingest now | grant => exact h.readLoop rfl hs

theorem fed (h : system.Via Fresh g) : g.Fed := by
  refine System.Via.invariant h (fun g hg => ?_) fun g a g' hg hok hs => hg.next hok hs
  obtain rfl : g = new := hg
  exact nofun

/-- The reader is never starved while no grant of the pump is overtaken by an older one. -/
theorem reader_fed (h : system.Via Fresh g) (hparked : g.Parked) : g.conn.stream.writable = 0 := by
  obtain ⟨rest, hreader⟩ := hparked.taking
  refine fed h ?_ ?_
  · rw [owed, hparked.unwoken, hparked.idle]
    rfl
  · rw [figure, hreader]
    exact hparked.spent

/-! ### A stream that fills up -/

/-- Nothing arrives and no end is declared; that many bytes are buffered, and it is between passes. -/
structure Buffered (g : Feed) (n : ℕ) : Prop where
  idle : g.conn.phase = .idle
  ready : g.conn.stream.recv.ready = []
  working : g.conn.writer.failed = false
  live : g.conn.credit.closed = false
  fin : g.conn.stream.send.fin = none
  buffer : g.conn.stream.send.buffer.length = n

theorem Buffered.writable {n : ℕ} (h : g.Buffered n) : g.conn.stream.writable = forwardWindow - n := by
  rw [Stream.writable, Sender.writable, h.fin, h.buffer]
  rfl

variable {ok : Feed → FeedAction → Prop} {n : ℕ}

/-- A pass of the pump over a link, which transmits what the peer's window allows. -/
theorem Buffered.pass (h : g.Buffered n) (hvia : system.Via ok g) (hfree : ∀ s a, a ≠ .conn .handEnd → ok s a)
    (hgrant : ∀ s : Feed, s.reader = g.reader → s.conn.stream.writable = forwardWindow - n → ok s (.conn .handEnd)) :
    ∃ g', system.Via ok g' ∧ g'.Buffered n ∧ g'.reader = g.reader ∧ g'.woken = false ∧
      g'.conn.credit.allowed = forwardWindow - n := by
  have hwritable := h.writable
  obtain ⟨⟨stream, writer, credit, phase, received⟩, reader, woken⟩ := g
  obtain ⟨rfl, hready, hworking, hlive, hfin, hbuffer⟩ := h
  dsimp only at hready hworking hlive hfin hbuffer hwritable hgrant
  have hfirst : next ⟨⟨stream, writer, credit, .idle, received⟩, reader, woken⟩ (.conn (.moveFirst 0)) =
      some ⟨⟨stream, writer, credit, .second [] 0, received⟩, reader, false⟩ := by
    simp [next, stir, Conn.next, Conn.pump, Stream.readable, Receiver.readable, hready, LocalWriter.write]
  have hsecond : next ⟨⟨stream, writer, credit, .second [] 0, received⟩, reader, false⟩ (.conn .moveSecond) =
      some ⟨⟨stream.consume 0, writer, credit, .ending, received⟩, reader, false⟩ := rfl
  obtain ⟨writer', hworking', hhand⟩ : ∃ writer' : LocalWriter, writer'.failed = false ∧
      next ⟨⟨stream.consume 0, writer, credit, .ending, received⟩, reader, false⟩ (.conn .handEnd) =
        some ⟨⟨stream.consume 0, writer', { credit with allowed := stream.writable }, .outgoing, received⟩, reader, false⟩ := by
    refine ⟨if (stream.consume 0).peerFinished ∧ (stream.consume 0).recv.ready = [] then writer.finish else writer, ?_, ?_⟩
    · split_ifs <;> exact hworking
    · simp only [next, stir, Conn.next, Conn.pump, hworking]
      rfl
  obtain ⟨hbuffer', hfin'⟩ := pumpOut_writable (stream.consume 0) 0 maxForwardChunk 0 true 8
  have hread := (Conn.pumpOut_sameRead (stream.consume 0) 0 maxForwardChunk 0 true 8).ready
  generalize hout : Conn.pumpOut (stream.consume 0) 0 maxForwardChunk 0 true 8 = stream' at hbuffer' hfin' hread
  have htransmit : next ⟨⟨stream.consume 0, writer', { credit with allowed := stream.writable }, .outgoing, received⟩, reader, false⟩
      (.conn (.transmit 0 maxForwardChunk 0 true 8)) =
        some ⟨⟨stream', writer', { credit with allowed := stream.writable }, .checking, received⟩, reader, false⟩ := by
    simp only [next, stir, Conn.next, Conn.pump, hout]
    rfl
  have hcheck : next ⟨⟨stream', writer', { credit with allowed := stream.writable }, .checking, received⟩, reader, false⟩
      (.conn .check) =
        some ⟨⟨stream', writer', { credit with allowed := stream.writable }, .idle, received⟩, reader, false⟩ := by
    have hdone : stream'.isDone = false := by
      rw [Stream.isDone, Sender.isDone, hfin'.trans hfin]
      rfl
    simp only [next, stir, Conn.next, Conn.pump, hdone]
    rfl
  have hvia := hvia.step (hfree _ (.conn (.moveFirst 0)) (by rintro ⟨⟩)) hfirst
  have hvia := hvia.step (hfree _ (.conn .moveSecond) (by rintro ⟨⟩)) hsecond
  have hvia := hvia.step (hgrant _ rfl hwritable) hhand
  have hvia := hvia.step (hfree _ (.conn (.transmit 0 maxForwardChunk 0 true 8)) (by rintro ⟨⟩)) htransmit
  have hvia := hvia.step (hfree _ (.conn .check) (by rintro ⟨⟩)) hcheck
  refine ⟨_, hvia, ⟨rfl, ?_, hworking', hlive, hfin'.trans hfin, (congrArg List.length hbuffer').trans hbuffer⟩, rfl, rfl, hwritable⟩
  rw [hread]
  exact (Receiver.consume_ready _ _).trans (by rw [hready]; rfl)

theorem exists_chunk : ∃ bytes : List UInt8, bytes.length = maxForwardChunk := ⟨_, List.length_replicate (a := 0)⟩

theorem Buffered.ask (h : g.Buffered n) (hvia : system.Via ok g) (hfree : ∀ s a, a ≠ .conn .handEnd → ok s a)
    (hreader : g.reader = .taking []) (hallowed : maxForwardChunk ≤ g.conn.credit.allowed)
    (hroom : n + maxForwardChunk ≤ forwardWindow) : ∃ g', system.Via ok g' ∧ g'.Buffered (n + maxForwardChunk) ∧
      g'.reader = .granting (forwardWindow - (n + maxForwardChunk)) [] := by
  obtain ⟨⟨stream, writer, credit, phase, received⟩, reader, woken⟩ := g
  obtain ⟨rfl, hready, hworking, hlive, hfin, hbuffer⟩ := h
  obtain rfl : reader = .taking [] := hreader
  dsimp only at hready hworking hlive hfin hbuffer hallowed
  have hpos : 0 < maxForwardChunk := by decide
  obtain ⟨bytes, hlength⟩ := exists_chunk
  have hsome : bytes ≠ [] := fun hnil => hpos.ne' (hlength.symm.trans (congrArg List.length hnil))
  have htake : next ⟨⟨stream, writer, credit, .idle, received⟩, .taking [], woken⟩ .take =
      some ⟨⟨stream, writer, credit, .idle, received⟩, .reading maxForwardChunk, woken⟩ := by
    simp only [next, readLoop, hlive, min_eq_right hallowed, (hpos.trans_le hallowed).ne']
    rfl
  have hread : next ⟨⟨stream, writer, credit, .idle, received⟩, .reading maxForwardChunk, woken⟩ (.read bytes) =
      some ⟨⟨stream, writer, credit, .idle, received⟩, .ingesting bytes, woken⟩ := if_pos ⟨hsome, hlength.le⟩
  obtain ⟨send, hwrite, hfin', hbuffer'⟩ : ∃ send, stream.write bytes 0 = (⟨send, stream.recv⟩, maxForwardChunk) ∧
      send.fin = none ∧ send.buffer.length = n + maxForwardChunk := by
    have hroom' : min stream.send.writable bytes.length = maxForwardChunk := by
      rw [Sender.writable, hfin, hbuffer, hlength]
      exact min_eq_right (Nat.le_sub_of_add_le' hroom)
    refine ⟨(stream.send.write bytes 0).1, ?_, ?_⟩
    · rw [← hroom']
      rfl
    · unfold Sender.write
      dsimp only
      rw [hroom', if_pos hpos]
      refine ⟨hfin, ?_⟩
      rw [List.length_append, hbuffer, List.length_take, hlength, min_self]
  have hingest : next ⟨⟨stream, writer, credit, .idle, received⟩, .ingesting bytes, woken⟩ (.ingest 0) =
      some ⟨⟨⟨send, stream.recv⟩, writer, credit, .idle, received⟩, .granting (forwardWindow - (n + maxForwardChunk)) [], true⟩ := by
    have hrest : bytes.drop maxForwardChunk = [] := by rw [← hlength, List.drop_length]
    have hwritable : Stream.writable ⟨send, stream.recv⟩ = forwardWindow - (n + maxForwardChunk) := by
      rw [Stream.writable, Sender.writable, hfin', hbuffer']
      exact if_neg Bool.false_ne_true
    simp only [next, readLoop, hwrite, hrest, hwritable, reduceCtorEq, if_true, if_false]
  have hvia := hvia.step (hfree _ .take (by rintro ⟨⟩)) htake
  have hvia := hvia.step (hfree _ (.read bytes) (by rintro ⟨⟩)) hread
  exact ⟨_, hvia.step (hfree _ (.ingest 0) (by rintro ⟨⟩)) hingest, ⟨rfl, hready, hworking, hlive, hfin', hbuffer'⟩, rfl⟩

theorem Buffered.grant {room : ℕ} {rest : List UInt8} (h : g.Buffered n) (hvia : system.Via ok g)
    (hfree : ∀ s a, a ≠ .conn .handEnd → ok s a) (hreader : g.reader = .granting room rest) :
    ∃ g', system.Via ok g' ∧ g'.Buffered n ∧ g'.reader = .taking rest ∧ g'.woken = g.woken ∧ g'.conn.credit.allowed = room := by
  refine ⟨{ g with conn := { g.conn with credit := { g.conn.credit with allowed := room } }, reader := .taking rest },
    hvia.step (hfree _ .grant nofun) ?_, { h with }, rfl, rfl, rfl⟩
  change g.readLoop g.reader .grant = _
  rw [hreader]
  rfl

/-- The reader fills the stream, and is told that there is no room left. -/
theorem exists_full (hfree : ∀ s a, a ≠ .conn .handEnd → ok s a)
    (hgrant : ∀ s : Feed, s.reader = .taking [] → ok s (.conn .handEnd)) :
    ∃ g, system.Via ok g ∧ g.Buffered forwardWindow ∧ g.reader = .granting 0 [] := by
  have hfills : ∀ k < 8, ∃ g, system.Via ok g ∧ g.Buffered (k * maxForwardChunk) ∧ g.reader = .taking [] ∧
      g.conn.credit.allowed = forwardWindow - k * maxForwardChunk := by
    intro k
    induction k with
    | zero =>
      intro _
      have hnew : new.Buffered 0 := ⟨rfl, rfl, rfl, rfl, rfl, rfl⟩
      obtain ⟨g, hvia, hbuffered, hreader, -, hallowed⟩ := hnew.pass (.init rfl) hfree fun s hs _ => hgrant s hs
      exact ⟨g, hvia, hbuffered, hreader, hallowed⟩
    | succ k ih =>
      intro hk
      obtain ⟨g, hvia, hbuffered, hreader, hallowed⟩ := ih (Nat.lt_of_succ_lt hk)
      have hroom : k * maxForwardChunk + maxForwardChunk ≤ forwardWindow := by
        rw [← Nat.succ_mul]
        exact Nat.mul_le_mul_right maxForwardChunk (show k + 1 ≤ 8 from hk.le)
      obtain ⟨g', hvia', hbuffered', hreader'⟩ :=
        hbuffered.ask hvia hfree hreader (hallowed.symm ▸ Nat.le_sub_of_add_le' hroom) hroom
      obtain ⟨g'', hvia'', hbuffered'', hreader'', -, hallowed''⟩ := hbuffered'.grant hvia' hfree hreader'
      rw [Nat.succ_mul]
      exact ⟨g'', hvia'', hbuffered'', hreader'', hallowed''⟩
  obtain ⟨g, hvia, hbuffered, hreader, hallowed⟩ := hfills 7 (by decide)
  exact hbuffered.ask hvia hfree hreader (by rw [hallowed]; decide) (by decide)

theorem Buffered.ack {k : ℕ} (window : ℕ) (h : g.Buffered n) (hvia : system.Via ok g)
    (hfree : ∀ s a, a ≠ .conn .handEnd → ok s a) (hk : 0 < k) (hn : k ≤ n) :
    ∃ g', system.Via ok g' ∧ g'.Buffered (n - k) ∧ g'.reader = g.reader := by
  obtain ⟨⟨⟨send, recv⟩, writer, credit, phase, received⟩, reader, woken⟩ := g
  obtain ⟨rfl, hready, hworking, hlive, hfin, hbuffer⟩ := h
  obtain ⟨hfin', hbuffer'⟩ : (send.onAck (send.base + k) window .empty 0).1.fin = none ∧
      (send.onAck (send.base + k) window .empty 0).1.buffer.length = n - k := by
    have hadvance : min (send.base + k) send.endOff - send.base = k := by
      rw [Sender.endOff, hbuffer, min_eq_left (Nat.add_le_add_left hn _), Nat.add_sub_cancel_left]
    have hrelease : (send.release (send.base + k)).fin = none ∧ (send.release (send.base + k)).buffer.length = n - k := by
      rw [Sender.release, if_pos (Nat.lt_add_of_pos_right hk)]
      refine ⟨hfin, ?_⟩
      rw [hadvance, List.length_drop, hbuffer]
    rcases send.onAck_cases (send.base + k) window .empty 0 with ⟨hstale, -⟩ | ⟨-, -, _, _, _, heq, -⟩ |
      ⟨-, ⟨run, hrun, -⟩, -⟩
    · exact absurd hstale (Nat.le_add_right _ _).not_gt
    · rw [heq]
      exact hrelease
    · cases hrun
  exact ⟨_, hvia.step (hfree _ (.conn (.onAck (send.base + k) window .empty 0)) (by rintro ⟨⟩)) rfl,
    ⟨rfl, hready, hworking, hlive, hfin', hbuffer'⟩, rfl⟩

/-- The reader writes the last byte there is room for; before it grants the room it was told, the peer
acknowledges everything and the pump grants the whole window. Nothing is on its way any more. -/
theorem reader_starved : ∃ g, system.Reachable g ∧ g.Parked ∧ g.conn.stream.send.buffer = [] ∧
    g.conn.stream.writable = forwardWindow := by
  have hfree : ∀ (s : Feed) (a : FeedAction), a ≠ .conn .handEnd → True := fun _ _ _ => trivial
  obtain ⟨g₀, hvia₀, hbuffered₀, hreader₀⟩ := exists_full hfree fun _ _ => trivial
  obtain ⟨g₁, hvia₁, hbuffered₁, hreader₁, -⟩ := hbuffered₀.pass hvia₀ hfree fun _ _ _ => trivial
  obtain ⟨g₂, hvia₂, hbuffered₂, hreader₂⟩ := hbuffered₁.ack forwardWindow hvia₁ hfree (k := maxForwardChunk) (by decide) (by decide)
  obtain ⟨g₃, hvia₃, hbuffered₃, hreader₃, -⟩ := hbuffered₂.pass hvia₂ hfree fun _ _ _ => trivial
  obtain ⟨g₄, hvia₄, hbuffered₄, hreader₄⟩ := hbuffered₃.ack forwardWindow hvia₃ hfree (by decide) le_rfl
  obtain ⟨g₅, hvia₅, hbuffered₅, hreader₅, hwoken₅, -⟩ := hbuffered₄.pass hvia₄ hfree fun _ _ _ => trivial
  have hreader : g₅.reader = .granting 0 [] := by rw [hreader₅, hreader₄, hreader₃, hreader₂, hreader₁, hreader₀]
  obtain ⟨g, hvia, hbuffered, htaking, hwoken, hallowed⟩ := hbuffered₅.grant hvia₅ hfree hreader
  exact ⟨g, hvia, ⟨hbuffered.idle, hwoken.trans hwoken₅, ⟨[], htaking⟩, hallowed, hbuffered.live⟩,
    List.length_eq_zero_iff.mp hbuffered.buffer, hbuffered.writable⟩

/-- The same reader, when the peer acknowledges nothing. -/
theorem reader_fed_full : ∃ g, system.Via Fresh g ∧ g.Parked ∧ g.conn.stream.writable = 0 := by
  have hfree : ∀ (s : Feed) (a : FeedAction), a ≠ .conn .handEnd → Fresh s a := fun _ _ ha hend => absurd hend ha
  have hgrant : ∀ s : Feed, s.reader = .taking [] → Fresh s (.conn .handEnd) := fun s hs _ rest hreader => by
    rw [hs] at hreader
    cases hreader
  obtain ⟨g₀, hvia₀, hbuffered₀, hreader₀⟩ := exists_full hfree hgrant
  obtain ⟨g₁, hvia₁, hbuffered₁, htaking₁, -, -⟩ := hbuffered₀.grant hvia₀ hfree hreader₀
  obtain ⟨g, hvia, hbuffered, hreader, hwoken, hallowed⟩ :=
    hbuffered₁.pass hvia₁ hfree fun s hs _ => hgrant s (hs.trans htaking₁)
  have hparked : g.Parked :=
    ⟨hbuffered.idle, hwoken, ⟨[], hreader.trans htaking₁⟩, hallowed.trans (Nat.sub_self _), hbuffered.live⟩
  exact ⟨g, hvia, hparked, reader_fed hvia hparked⟩

end Feed

end Braid.Client
