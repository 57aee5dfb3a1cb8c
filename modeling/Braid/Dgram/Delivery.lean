import Braid.Dgram.Party
import Mathlib.Data.List.Nodup

/-! The two sides of a connection over a network that drops, repeats, reorders, cuts and
forges datagrams. The one thing it cannot do is make a datagram that opens under a key of
the connection and that the side with that key did not emit. A frame that is delivered was
then sent by the other side, once, and what keeps a datagram from being taken when it first
arrives is only an epoch out of reach or a number too far behind. -/

namespace Braid.Dgram

open Foundation

variable {Secret Key τ Addr : Type*}

/-- What is asked of the cipher: what was sealed opens, and tags have their size. -/
structure Cipher.Lawful (c : Cipher Secret Key) : Prop where
  tag_length : ∀ key head number body, (c.encrypt key head number body).2.length = tagBytes
  decrypt_encrypt : ∀ key head number body,
    c.decrypt key head number (c.encrypt key head number body).1 (c.encrypt key head number body).2 = some body

theorem Packet.Sealed.openDatagram {c : Cipher Secret Key} (hc : c.Lawful) {root : Secret} {sending : Direction} {q : Packet}
    (h : q.Sealed c root sending) : c.openDatagram root sending q.datagram = some (q.header, q.body) := by
  obtain ⟨head, payload, tag, hhead, hencrypt, hdatagram⟩ := h
  have hlen := Header.length_encode hhead
  have htag : tag.length = tagBytes := by
    rw [← hc.tag_length (c.keyAt sending root q.header.epoch.val) head q.header.number q.body, hencrypt]
  have hopen := hc.decrypt_encrypt (c.keyAt sending root q.header.epoch.val) head q.header.number q.body
  rw [hencrypt] at hopen
  have hdecode : Header.decode q.datagram = .ok q.header := by
    rw [hdatagram, List.append_assoc]
    refine Header.decode_encode hhead ?_
    rw [List.length_append, htag]
    exact Nat.le_add_left _ _
  have hcut : q.datagram.length - tagBytes = (head ++ payload).length := by
    rw [hdatagram, List.length_append, htag, Nat.add_sub_cancel]
  have hpayload : (q.datagram.take (q.datagram.length - tagBytes)).drop headerBytes = payload := by
    rw [hcut, hdatagram, List.take_left, ← hlen, List.drop_left]
  have hrest : q.datagram.drop (q.datagram.length - tagBytes) = tag := by
    rw [hcut, hdatagram, List.drop_left]
  have htake : q.datagram.take headerBytes = head := by
    rw [hdatagram, List.append_assoc, ← hlen, List.take_left]
  rw [Cipher.openDatagram, hdecode]
  dsimp only
  rw [htake, hpayload, hrest, hopen]
  rfl

namespace Pair

open Party

variable (st : Setting Secret Key τ Addr)

def system : System (Direction → Party Secret Key τ Addr) (Direction × Call Addr) where
  init s := s = fun _ => Party.start
  next s label := (Party.next st label.1 (s label.1) label.2).map fun p => Function.update s label.1 p

/-- The cipher opens only what the other side emitted. -/
def Authentic (s : Direction → Party Secret Key τ Addr) : Direction × Call Addr → Prop
  | (side, .recv _ _ datagram) | (side, .accept _ _ datagram) =>
    (st.cipher.openDatagram st.root side.opposite datagram).isSome = true → datagram ∈ (s side.opposite).emitted
  | _ => True

instance (s : Direction → Party Secret Key τ Addr) : (label : Direction × Call Addr) → Decidable (Authentic st s label)
  | (side, .recv _ _ datagram) | (side, .accept _ _ datagram) =>
    inferInstanceAs (Decidable ((st.cipher.openDatagram st.root side.opposite datagram).isSome = true →
      datagram ∈ (s side.opposite).emitted))
  | (_, .rekeyEvery _) | (_, .connect _) | (_, .listen _) | (_, .commit) | (_, .release) | (_, .send ..) | (_, .close _)
  | (_, .rotate) | (_, .pollTransmit _) | (_, .pathRefused ..) => .isTrue trivial

/-- What the receiving half of a side has taken, against what the other side emitted. -/
structure Reads (p : Party Secret Key τ Addr) (packets : List Packet) : Prop where
  window : ∀ e, p.holding.endpoint = some e →
    e.window.Remembers {n | n ∈ p.admitted} ∧ (e.window.top = 0 ∨ e.window.top ∈ p.admitted)
  admitted : ∀ n ∈ p.admitted, ∃ q ∈ packets, q.header.number = n ∧ q.datagram ∈ p.arrived
  nodup : p.admitted.Nodup
  delivered : ∀ x ∈ p.delivered, ∃ q ∈ packets, q.header.kind = .frame ∧ x = (q.header.number, q.body)
  sublist : (p.delivered.map Prod.fst).Sublist p.admitted
  offer : p.holding = .offer → p.arrived = [] ∧ p.admitted = [] ∧ p.delivered = []

variable {st} {p p' : Party Secret Key τ Addr} {role : Direction} {packets own : List Packet}
  {e e' : Endpoint Secret Key τ Addr}

theorem reads_start : Reads (start : Party Secret Key τ Addr) packets :=
  ⟨nofun, nofun, .nil, nofun, .slnil, fun _ => ⟨rfl, rfl, rfl⟩⟩

theorem Reads.mono (h : Reads p packets) (more : List Packet) : Reads p (packets ++ more) := by
  refine ⟨h.window, fun n hn => ?_, h.nodup, fun x hx => ?_, h.sublist, h.offer⟩
  · obtain ⟨q, hq, hrest⟩ := h.admitted n hn
    exact ⟨q, List.mem_append_left _ hq, hrest⟩
  · obtain ⟨q, hq, hrest⟩ := h.delivered x hx
    exact ⟨q, List.mem_append_left _ hq, hrest⟩

theorem Reads.keep (h : Reads p packets) (hheld : p.holding.endpoint = some e) (hwindow : e'.window = e.window)
    (hheld' : p'.holding.endpoint = some e') (harrived : p.arrived ⊆ p'.arrived) (hadmitted : p'.admitted = p.admitted)
    (hdelivered : p'.delivered = p.delivered) : Reads p' packets := by
  refine ⟨fun e₁ he₁ => ?_, fun n hn => ?_, hadmitted ▸ h.nodup, hdelivered ▸ h.delivered, ?_, fun hoffer => ?_⟩
  · obtain rfl := Option.some.inj (hheld'.symm.trans he₁)
    rw [hwindow, hadmitted]
    exact h.window e hheld
  · obtain ⟨q, hq, hnumber, hmem⟩ := h.admitted n (hadmitted ▸ hn)
    exact ⟨q, hq, hnumber, harrived hmem⟩
  · rw [hdelivered, hadmitted]
    exact h.sublist
  · rw [hoffer] at hheld'
    cases hheld'

variable {peer : Party Secret Key τ Addr} {src : Addr} {now : ℕ} {datagram : List UInt8}

/-- A datagram the other side emitted opens as the packet it was sealed from. -/
theorem exists_packet (hc : st.cipher.Lawful) (hpeer : Logged st role peer packets) (hmem : datagram ∈ peer.emitted) :
    ∃ q ∈ packets, q.datagram = datagram ∧ st.cipher.openDatagram st.root role datagram = some (q.header, q.body) ∧
      Header.decode datagram = .ok q.header := by
  rw [← hpeer.emitted] at hmem
  obtain ⟨q, hq, rfl⟩ := List.mem_map.mp hmem
  have hopen := (hpeer.packet q hq).1.openDatagram hc
  exact ⟨q, hq, rfl, hopen, decode_of_openDatagram hopen⟩

theorem numberOf_eq {header : Header} (h : Header.decode datagram = .ok header) : numberOf datagram = header.number := by
  rw [numberOf, h]

theorem Reads.took (hc : st.cipher.Lawful) (h : Reads p packets) (hown : Own st role e)
    (hpeer : Logged st role.opposite peer packets)
    (hauth : (st.cipher.openDatagram st.root role.opposite datagram).isSome = true → datagram ∈ peer.emitted)
    (hwindow : e.window.Remembers {n | n ∈ p.admitted} ∧ (e.window.top = 0 ∨ e.window.top ∈ p.admitted))
    {received : Received Addr} (hrecv : e.recv st.cipher st.transport src now datagram = (e', .ok received))
    {holding : Holding Secret Key τ Addr} (hheld : holding.endpoint = some e') :
    Reads { p.took datagram received with holding } packets := by
  obtain ⟨header, body, hopen, hfresh, hwindow', hframe⟩ := Endpoint.recv_ok hrecv hown.coherent
  rw [hown.sending] at hopen
  obtain ⟨q, hq, rfl, hopen', hdecode⟩ := exists_packet hc hpeer (hauth (by rw [hopen]; rfl))
  obtain ⟨rfl, rfl⟩ := Prod.mk.inj (Option.some.inj (hopen.symm.trans hopen'))
  have hnumber : numberOf q.datagram = q.header.number := numberOf_eq hdecode
  obtain ⟨hiff, hinsert, -⟩ := hwindow.1.admit_ q.header.number
  have hset : {n | n ∈ p.admitted ++ [q.header.number]} = insert q.header.number {n | n ∈ p.admitted} := by
    ext n
    simp [or_comm]
  have htop : (e.window.admit_ q.header.number).1.top = max e.window.top q.header.number := by
    rw [ReplayWindow.top_admit_, if_pos hfresh]
  refine ⟨fun e₁ he₁ => ?_, fun n hn => ?_, ?_, fun x hx => ?_, ?_, fun hoffer => ?_⟩
  · obtain rfl := Option.some.inj (hheld.symm.trans he₁)
    change e'.window.Remembers {n | n ∈ p.admitted ++ [numberOf q.datagram]} ∧
      (_ ∨ _ ∈ p.admitted ++ [numberOf q.datagram])
    rw [hnumber, hwindow', htop]
    refine ⟨?_, ?_⟩
    · rw [hset]
      exact hinsert hfresh
    · obtain hle | hle := le_total e.window.top q.header.number
      · rw [max_eq_right hle]
        exact .inr (List.mem_append_right _ (List.mem_singleton_self _))
      · rw [max_eq_left hle]
        exact hwindow.2.imp_right (List.mem_append_left _)
  · obtain hn | hn := List.mem_append.mp hn
    · obtain ⟨k, hk, hknumber, hkmem⟩ := h.admitted n hn
      exact ⟨k, hk, hknumber, List.mem_append_left _ hkmem⟩
    · exact ⟨q, hq, (hnumber.symm.trans (List.mem_singleton.mp hn).symm), List.mem_append_right _ (List.mem_singleton_self _)⟩
  · change (p.admitted ++ [numberOf q.datagram]).Nodup
    rw [hnumber]
    exact List.Nodup.append h.nodup (List.nodup_singleton _) (List.disjoint_singleton.mpr (hiff.mp hfresh).1)
  · obtain hx | hx := List.mem_append.mp hx
    · exact h.delivered x hx
    · cases received with
      | frame frame =>
        obtain ⟨hkind, rfl⟩ := hframe frame rfl
        refine ⟨q, hq, hkind, ?_⟩
        rw [← hnumber]
        exact List.mem_singleton.mp hx
      | _ => cases hx
  · change ((p.delivered ++ _).map Prod.fst).Sublist (p.admitted ++ [numberOf q.datagram])
    rw [List.map_append]
    refine h.sublist.append ?_
    cases received with
    | frame frame => exact List.Sublist.refl _
    | _ => exact List.nil_sublist _
  · change holding = .offer at hoffer
    rw [hoffer] at hheld
    cases hheld

theorem remembers_new (transport : τ) :
    (Endpoint.new st.cipher st.cid st.root transport role : Endpoint Secret Key τ Addr).window.Remembers
      {n | n ∈ ([] : List ℕ)} := by
  have hnone : {n : ℕ | n ∈ ([] : List ℕ)} = ∅ := by simp
  rw [hnone]
  exact ReplayWindow.remembers_new

theorem Reads.moves (hc : st.cipher.Lawful) (h : Reads p packets) (hlogged : Logged st role p own)
    (hpeer : Logged st role.opposite peer packets) {call : Call Addr} (hmoves : Moves st role p call p')
    (hauth : ∀ src now datagram, call = .recv src now datagram ∨ call = .accept src now datagram →
      (st.cipher.openDatagram st.root role.opposite datagram).isSome = true → datagram ∈ peer.emitted) :
    Reads p' packets := by
  cases hmoves with
  | opened transport hoffer =>
    obtain ⟨harrived, hadmitted, hdelivered⟩ := h.offer hoffer
    refine ⟨fun e he => ?_, h.admitted, h.nodup, h.delivered, h.sublist, nofun⟩
    cases he
    rw [hadmitted]
    exact ⟨remembers_new _, .inl rfl⟩
  | accepted hoffer hrecv =>
    obtain ⟨harrived, hadmitted, hdelivered⟩ := h.offer hoffer
    refine h.took hc (own_new _ role) hpeer (hauth _ _ _ (.inr rfl)) ?_ hrecv rfl
    rw [hadmitted]
    exact ⟨remembers_new _, .inl rfl⟩
  | rejected => exact h
  | committed hheld => exact h.keep (by rw [hheld]; rfl) rfl rfl (List.Subset.refl _) rfl rfl
  | released hheld => exact ⟨nofun, nofun, .nil, nofun, .slnil, fun _ => ⟨rfl, rfl, rfl⟩⟩
  | spoke hlive hadv hsame => exact h.keep (endpoint_live hlive) hsame.window rfl (List.Subset.refl _) rfl rfl
  | took hlive hrecv =>
    exact h.took hc (hlogged.own (endpoint_live hlive)) hpeer (hauth _ _ _ (.inl rfl)) (h.window _ (endpoint_live hlive))
      hrecv rfl
  | refused hlive hrecv =>
    have hheld := endpoint_live hlive
    refine h.keep hheld ?_ rfl (List.subset_append_left _ _) rfl rfl
    obtain hwindow | ⟨n, hstale, hwindow⟩ := Endpoint.recv_error hrecv (hlogged.own hheld).coherent
    · exact hwindow
    · rw [hwindow]
      exact ((h.window _ hheld).1.admit_ n).2.2 hstale
  | repaced hlive =>
    exact h.keep (endpoint_live hlive) (Eq.refl (Endpoint.rekeyEveryPackets _ _).window) rfl (List.Subset.refl _) rfl rfl

/-- Both sides' logs, and what each has read of the other's. -/
theorem exists_reads (hc : st.cipher.Lawful) {s : Direction → Party Secret Key τ Addr}
    (h : (system st).Via (Authentic st) s) : ∃ log : Direction → List Packet,
      ∀ side, Logged st side (s side) (log side) ∧ Reads (s side) (log side.opposite) := by
  refine System.Via.invariant (P := fun s => ∃ log : Direction → List Packet,
      ∀ side, Logged st side (s side) (log side) ∧ Reads (s side) (log side.opposite)) h (fun s hs => ?_)
    fun s ⟨role, call⟩ s' ⟨log, hlog⟩ hauth hs => ?_
  · obtain rfl := hs
    exact ⟨fun _ => [], fun side => ⟨logged_start, reads_start⟩⟩
  · obtain ⟨p', hnext, rfl⟩ := Option.map_eq_some_iff.mp hs
    have hmoves := moves_of_next (fun e hlive => (hlog role).1.own (endpoint_live hlive)) hnext
    obtain ⟨more, hlogged⟩ := (hlog role).1.moves hmoves
    have hreads : Reads p' (log role.opposite) := by
      refine (hlog role).2.moves hc (hlog role).1 (hlog role.opposite).1 hmoves fun src now datagram hcall hopen => ?_
      obtain rfl | rfl := hcall
      · exact hauth hopen
      · exact hauth hopen
    have hother : role.opposite ≠ role := by cases role <;> nofun
    refine ⟨Function.update log role (log role ++ more), fun side => ?_⟩
    by_cases hside : side = role
    · subst hside
      rw [Function.update_self, Function.update_self, Function.update_of_ne hother]
      exact ⟨hlogged, hreads⟩
    · obtain rfl : side = role.opposite := by cases side <;> cases role <;> simp_all [Direction.opposite]
      rw [Function.update_of_ne hside, Function.update_of_ne hside, Direction.opposite_opposite, Function.update_self]
      have hmore := (hlog role.opposite).2.mono more
      rw [Direction.opposite_opposite] at hmore
      exact ⟨(hlog _).1, hmore⟩

theorem packet_eq_of_number (h : Logged st role p packets) {q k : Packet} (hq : q ∈ packets) (hk : k ∈ packets)
    (hnumber : q.header.number = k.header.number) : q = k := by
  have hnodup : (packets.map fun q => q.header.number).Nodup :=
    List.pairwise_map.mpr (h.numbers.imp fun hlt => hlt.ne)
  exact List.inj_on_of_nodup_map hnodup hq hk hnumber

/-- The numbers of the frames sent are distinct. A frame that is delivered was sent by the
other side, under that number, and is delivered once. A datagram the other side emitted is
taken when it first arrives exactly if its epoch is the one being read, the one last
retired or one of the next few, and its number is less than the window's width behind
every number admitted; and a side that holds the offer then accepts it. -/
theorem delivery_authentic_once (hc : st.cipher.Lawful) {s : Direction → Party Secret Key τ Addr}
    (h : (system st).Via (Authentic st) s) (side : Direction) :
    ((s side.opposite).sent.map Prod.fst).Nodup ∧
    (∀ x ∈ (s side).delivered, x ∈ (s side.opposite).sent) ∧
    ((s side).delivered.map Prod.fst).Nodup ∧
    (∀ e, (s side).holding = .live e → ∀ datagram ∈ (s side.opposite).emitted, datagram ∉ (s side).arrived →
      ∃ header, Header.decode datagram = .ok header ∧ ∀ src now,
        ((∃ received, (e.recv st.cipher st.transport src now datagram).2 = .ok received) ↔
          e.keys.Reached header.epoch ∧ ∀ n ∈ (s side).admitted, n < header.number + windowWidth)) ∧
    ((s side).holding = .offer → side = .serverToClient → ∀ datagram ∈ (s side.opposite).emitted,
      ∃ header, Header.decode datagram = .ok header ∧ ∀ src now,
        ((∃ accepted, Endpoint.accept st.cipher st.transport st.cid st.root st.claimed src now datagram = .ok accepted) ↔
          header.epoch.val ≤ maxEpochCatchup)) := by
  obtain ⟨log, hlog⟩ := exists_reads hc h
  obtain ⟨hlogged, hreads⟩ := hlog side
  have hpeer := (hlog side.opposite).1
  refine ⟨?_, fun x hx => ?_, hreads.nodup.sublist hreads.sublist, fun e hlive datagram hmem hfirst => ?_,
    fun hoffer hside datagram hmem => ?_⟩
  · rw [hpeer.sent, List.map_map]
    exact List.pairwise_map.mpr ((hpeer.numbers.filter _).imp fun hlt => hlt.ne)
  · obtain ⟨q, hq, hkind, rfl⟩ := hreads.delivered x hx
    rw [hpeer.sent]
    exact List.mem_map_of_mem (List.mem_filter.mpr ⟨hq, decide_eq_true hkind⟩)
  · obtain ⟨q, hq, rfl, hopen, hdecode⟩ := exists_packet hc hpeer hmem
    have hown := hlogged.own (endpoint_live hlive)
    obtain ⟨hremembers, htop⟩ := hreads.window e (endpoint_live hlive)
    have hnew : q.header.number ∉ (s side).admitted := fun hmem => by
      obtain ⟨k, hk, hnumber, harrived⟩ := hreads.admitted _ hmem
      exact hfirst (packet_eq_of_number hpeer hk hq hnumber ▸ harrived)
    refine ⟨q.header, hdecode, fun src now => ?_⟩
    rw [Endpoint.recv_isOk_iff hown.coherent src now (by rw [hown.sending]; exact hopen)
      ((hpeer.packet q hq).2.trans hown.cid.symm), (hremembers.admit_ _).1]
    refine and_congr_right fun _ => ⟨fun hfresh n hn => ?_, fun hbehind => ⟨hnew, ?_⟩⟩
    · exact (hremembers.le_top n hn).trans_lt hfresh.2
    · obtain hzero | hadmitted := htop
      · rw [hzero]
        exact Nat.add_pos_right _ (by decide)
      · exact hbehind _ hadmitted
  · subst hside
    obtain ⟨q, hq, rfl, hopen, hdecode⟩ := exists_packet hc hpeer hmem
    refine ⟨q.header, hdecode, fun src now => ?_⟩
    have hnew : Own st .serverToClient (Endpoint.new st.cipher st.cid st.root (st.claimed src) .serverToClient :
      Endpoint Secret Key τ Addr) := own_new _ _
    have hfresh := (ReplayWindow.remembers_new.admit_ q.header.number).1.mpr ⟨nofun, Nat.add_pos_right _ (by decide)⟩
    rw [Endpoint.accept_isOk_iff, Endpoint.recv_isOk_iff hnew.coherent src now hopen (hpeer.packet q hq).2]
    exact (and_iff_left hfresh).trans (KeySchedule.reached_new _ _ _)

theorem lawful_plain : plain.cipher.Lawful where
  tag_length key head number body := by
    change (plain.stamp key number).length = tagBytes
    simp [plain.stamp, tagBytes]
  decrypt_encrypt key head number body := if_pos rfl

def again : List UInt8 :=
  0 :: List.replicate 8 9 ++ [1, 0, 0, 0, 0, 0, 1] ++ [105] ++ plain.stamp (.clientToServer, 8) 1

/-- The later of two frames arrives twice, and the keys were rotated between them. -/
def rotatedRun : List (Direction × Call ℕ) :=
  [(.clientToServer, .connect 0), (.clientToServer, .send [104] 0), (.clientToServer, .rotate),
    (.clientToServer, .send [105] 0), (.serverToClient, .accept 1 0 hello), (.serverToClient, .commit),
    (.serverToClient, .recv 1 1 again), (.serverToClient, .recv 1 2 again)]

theorem delivery_authentic_once_rotatedRun : ∃ s, (system plain).Via (Authentic plain) s ∧
    (s .serverToClient).delivered = [(0, [104]), (1, [105])] ∧
    (∀ x ∈ (s .serverToClient).delivered, x ∈ (s .clientToServer).sent) ∧
    ((s .serverToClient).delivered.map Prod.fst).Nodup := by
  obtain ⟨s, hvia, hdelivered⟩ : ∃ s, (system plain).Via (Authentic plain) s ∧
      (s .serverToClient).delivered = [(0, [104]), (1, [105])] :=
    System.Via.of_run (fun _ => start) rotatedRun rfl (by decide)
  obtain ⟨-, hsent, honce, -⟩ := delivery_authentic_once lawful_plain hvia .serverToClient
  exact ⟨s, hvia, hdelivered, hsent, honce⟩

end Pair

end Braid.Dgram
