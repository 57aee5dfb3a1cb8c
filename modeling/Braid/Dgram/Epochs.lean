import Braid.Dgram.Delivery

/-! The epochs of what a side emits climb with the numbers, and a side has taken nothing
from an epoch past the one it reads. So what the other side emitted in a later epoch has a
number above all those taken, and the window always finds it fresh. -/

namespace Braid.Dgram

open Foundation

variable {Secret Key τ Addr : Type*}

def epochOf (datagram : List UInt8) : ℕ :=
  match Header.decode datagram with
  | .ok header => header.epoch.val
  | .error _ => 0

theorem epochOf_eq {datagram : List UInt8} {header : Header} (h : Header.decode datagram = .ok header) :
    epochOf datagram = header.epoch.val := by
  rw [epochOf, h]

namespace Endpoint

variable {st : Setting Secret Key τ Addr} {c : Cipher Secret Key} {t : Transport τ Addr} {root : Secret}
  {e e' : Endpoint Secret Key τ Addr} {src : Addr} {now : ℕ} {datagram : List UInt8}

/-- A datagram never takes the epoch read back, is taken only from epochs up to it, and moves
it only to its own. -/
theorem epoch_recv {result : Except RecvError (Received Addr)} (h : e.keys.Coherent c root)
    (hrecv : e.recv c t src now datagram = (e', result)) :
    e.keys.recv.epoch.val ≤ e'.keys.recv.epoch.val ∧
      (result.isOk = true → epochOf datagram ≤ e'.keys.recv.epoch.val) ∧
      (e'.keys.recv.epoch.val = e.keys.recv.epoch.val ∨
        (c.openDatagram root e.keys.sending.opposite datagram).isSome = true ∧
          epochOf datagram = e'.keys.recv.epoch.val) := by
  obtain ⟨header, body, keys, hopen, -, -, hcoh, -, -, hfollows, heq⟩ | ⟨error, ahead, -, -, heq⟩ :=
    recv_cases (t := t) h src now datagram
  · have hkept : e'.keys.recv = keys.recv := by
      obtain ⟨htake, hdrop⟩ := admitted_spec (t := t) (e := { e with keys }) hcoh src now datagram.length header body
      rw [heq] at hrecv
      by_cases hfresh : (e.window.admit_ header.number).2 = .fresh
      · obtain ⟨e₁, received, htaken, -, -, hkeys, -⟩ := htake hfresh
        obtain ⟨rfl, -⟩ := Prod.mk.inj (htaken.symm.trans hrecv)
        exact hkeys
      · obtain ⟨rfl, -⟩ := Prod.mk.inj ((hdrop hfresh).symm.trans hrecv)
        rfl
    rw [hkept, epochOf_eq (decode_of_openDatagram hopen), hopen]
    obtain ⟨hle, rfl⟩ | ⟨hlt, hepoch⟩ := hfollows
    · exact ⟨Nat.le_refl _, fun _ => hle, .inl rfl⟩
    · rw [hepoch]
      exact ⟨hlt.le, fun _ => Nat.le_refl _, .inr ⟨rfl, rfl⟩⟩
  · obtain ⟨rfl, rfl⟩ := Prod.mk.inj (heq.symm.trans hrecv)
    exact ⟨Nat.le_refl _, nofun, .inl rfl⟩

end Endpoint

namespace Pair

open Party

variable {st : Setting Secret Key τ Addr} {role : Direction} {p p' peer peer' : Party Secret Key τ Addr}
  {packets own : List Packet} {call : Call Addr} {s : Direction → Party Secret Key τ Addr}

/-- The datagrams a side emitted, in the order of their numbers, and none from an epoch past
the one it seals in. -/
structure Climbs (p : Party Secret Key τ Addr) : Prop where
  order : p.emitted.Pairwise fun a b => numberOf a < numberOf b ∧ epochOf a ≤ epochOf b
  reached : ∀ e, p.holding = .live e → ∀ datagram ∈ p.emitted, epochOf datagram ≤ e.keys.send.epoch.val

/-- What a side has taken came from epochs up to the one it reads. -/
def Trails (p peer : Party Secret Key τ Addr) : Prop :=
  ∀ e, p.holding.endpoint = some e → ∀ n ∈ p.admitted,
    ∃ datagram ∈ peer.emitted, numberOf datagram = n ∧ epochOf datagram ≤ e.keys.recv.epoch.val

theorem emitted_subset (h : Moves st role p call p') : p.emitted ⊆ p'.emitted := by
  cases h with
  | spoke => exact List.subset_append_left _ _
  | _ => exact List.Subset.refl _

variable {e e' : Endpoint Secret Key τ Addr}

theorem Climbs.keep (h : Climbs p) (hlive : p.holding = .live e)
    (hemitted : p'.emitted = p.emitted) (hlive' : p'.holding = .live e')
    (hepoch : e.keys.send.epoch ≤ e'.keys.send.epoch) : Climbs p' := by
  refine ⟨hemitted ▸ h.order, fun e₁ he₁ datagram hmem => ?_⟩
  obtain rfl := Holding.live.inj (hlive'.symm.trans he₁)
  exact (h.reached e hlive datagram (hemitted ▸ hmem)).trans hepoch

theorem Climbs.moves (hc : st.cipher.Lawful) (h : Climbs p) (hlogged : Logged st role p packets)
    (hmoves : Moves st role p call p') : Climbs p' := by
  cases hmoves with
  | opened transport hoffer =>
    refine ⟨h.order, fun e _ datagram hmem => ?_⟩
    have hnone := hlogged.holding
    rw [hoffer] at hnone
    have hempty := hlogged.emitted
    rw [hnone] at hempty
    cases hempty ▸ hmem
  | accepted hoffer hrecv => exact ⟨h.order, nofun⟩
  | rejected => exact h
  | committed hheld =>
    refine ⟨h.order, fun e _ datagram hmem => ?_⟩
    have hnone := hlogged.holding
    rw [hheld] at hnone
    have hempty := hlogged.emitted
    rw [hnone.1] at hempty
    cases hempty ▸ hmem
  | released hheld => exact ⟨h.order, nofun⟩
  | @spoke _ e e' out hlive hadv hsame =>
    cases out with
    | none => exact h.keep hlive (List.append_nil _) rfl hadv.epoch
    | some q =>
      obtain ⟨hsealed, -, hnumber, hepoch⟩ := hadv.packet q rfl
      have hdecode := decode_of_openDatagram (hsealed.openDatagram hc)
      have hbelow := hlogged.holding
      rw [hlive] at hbelow
      refine ⟨?_, fun e₁ he₁ datagram hmem => ?_⟩
      · change (p.emitted ++ [q.datagram]).Pairwise _
        refine List.pairwise_append.mpr ⟨h.order, List.pairwise_singleton _ _, fun a ha b hb => ?_⟩
        obtain rfl := List.mem_singleton.mp hb
        obtain ⟨k, hk, -, -, hdecode'⟩ := exists_packet hc hlogged ha
        rw [numberOf_eq hdecode, epochOf_eq hdecode, numberOf_eq hdecode', hnumber, hepoch]
        exact ⟨hbelow.1 k hk, (h.reached e hlive a ha).trans hadv.epoch⟩
      · obtain rfl := Holding.live.inj he₁
        obtain hmem | hmem := List.mem_append.mp hmem
        · exact (h.reached e hlive datagram hmem).trans hadv.epoch
        · obtain rfl := List.mem_singleton.mp hmem
          rw [epochOf_eq hdecode, hepoch]
  | took hlive hrecv =>
    have hown := hlogged.own (endpoint_live hlive)
    exact h.keep hlive rfl rfl (Endpoint.advances_recv hrecv hown.coherent).epoch
  | refused hlive hrecv =>
    have hown := hlogged.own (endpoint_live hlive)
    exact h.keep hlive rfl rfl (Endpoint.advances_recv hrecv hown.coherent).epoch
  | repaced hlive => exact h.keep hlive rfl rfl (Nat.le_refl _)

theorem Trails.mono (h : Trails p peer) (hmore : peer.emitted ⊆ peer'.emitted) : Trails p peer' := fun e he n hn =>
  let ⟨datagram, hmem, hrest⟩ := h e he n hn
  ⟨datagram, hmore hmem, hrest⟩

theorem Trails.keep (h : Trails p peer) (hheld : p.holding.endpoint = some e)
    (hadmitted : p'.admitted = p.admitted) (hheld' : p'.holding.endpoint = some e')
    (hepoch : e.keys.recv.epoch.val ≤ e'.keys.recv.epoch.val) : Trails p' peer := by
  intro e₁ he₁ n hn
  obtain rfl := Option.some.inj (hheld'.symm.trans he₁)
  obtain ⟨datagram, hmem, hnumber, hle⟩ := h e hheld n (hadmitted ▸ hn)
  exact ⟨datagram, hmem, hnumber, hle.trans hepoch⟩

theorem Trails.took {src : Addr} {now : ℕ} {datagram : List UInt8}
    {received : Received Addr} {holding : Holding Secret Key τ Addr} (hown : Own st role e)
    (h : ∀ n ∈ p.admitted, ∃ datagram ∈ peer.emitted, numberOf datagram = n ∧ epochOf datagram ≤ e.keys.recv.epoch.val)
    (hauth : (st.cipher.openDatagram st.root role.opposite datagram).isSome = true → datagram ∈ peer.emitted)
    (hrecv : e.recv st.cipher st.transport src now datagram = (e', .ok received)) (hheld : holding.endpoint = some e') :
    Trails { p.took datagram received with holding } peer := by
  obtain ⟨header, body, hopen, -⟩ := Endpoint.recv_ok hrecv hown.coherent
  rw [hown.sending] at hopen
  obtain ⟨hle, htook, -⟩ := Endpoint.epoch_recv hown.coherent hrecv
  intro e₁ he₁ n hn
  obtain rfl := Option.some.inj (hheld.symm.trans he₁)
  obtain hn | hn := List.mem_append.mp hn
  · obtain ⟨d, hmem, hnumber, hbelow⟩ := h n hn
    exact ⟨d, hmem, hnumber, hbelow.trans hle⟩
  · exact ⟨datagram, hauth (by rw [hopen]; rfl), (List.mem_singleton.mp hn).symm, htook rfl⟩

theorem Trails.moves (h : Trails p peer) (hlogged : Logged st role p packets) (hreads : Reads p own)
    (hmoves : Moves st role p call p')
    (hauth : ∀ src now datagram, call = .recv src now datagram ∨ call = .accept src now datagram →
      (st.cipher.openDatagram st.root role.opposite datagram).isSome = true → datagram ∈ peer.emitted) :
    Trails p' peer := by
  cases hmoves with
  | opened transport hoffer =>
    intro e _ n hn
    cases (hreads.offer hoffer).2.1 ▸ hn
  | accepted hoffer hrecv =>
    refine Trails.took (own_new _ role) (fun n hn => ?_) (hauth _ _ _ (.inr rfl)) hrecv rfl
    cases (hreads.offer hoffer).2.1 ▸ hn
  | rejected => exact h
  | committed hheld => exact h.keep (by rw [hheld]; rfl) rfl rfl (Nat.le_refl _)
  | released hheld => exact nofun
  | spoke hlive hadv hsame =>
    refine h.keep (endpoint_live hlive) rfl rfl ?_
    rw [hsame.recv]
  | took hlive hrecv =>
    exact Trails.took (hlogged.own (endpoint_live hlive)) (h _ (endpoint_live hlive)) (hauth _ _ _ (.inl rfl)) hrecv rfl
  | refused hlive hrecv =>
    have hown := hlogged.own (endpoint_live hlive)
    exact h.keep (endpoint_live hlive) rfl rfl (Endpoint.epoch_recv hown.coherent hrecv).1
  | repaced hlive => exact h.keep (endpoint_live hlive) rfl rfl (Nat.le_refl _)

theorem climbs_and_trails (hc : st.cipher.Lawful) (h : (system st).Via (Authentic st) s) (side : Direction) :
    Climbs (s side) ∧ Trails (s side) (s side.opposite) := by
  induction h generalizing side with
  | init hs =>
    obtain rfl := hs
    exact ⟨⟨.nil, nofun⟩, nofun⟩
  | @step s s' label hvia hauth hs ih =>
    obtain ⟨role, call⟩ := label
    obtain ⟨log, hlog⟩ := exists_reads hc hvia
    obtain ⟨p', hnext, rfl⟩ := Option.map_eq_some_iff.mp hs
    have hmoves := moves_of_next (fun e hlive => (hlog role).1.own (endpoint_live hlive)) hnext
    have hother : role.opposite ≠ role := by cases role <;> nofun
    by_cases hside : side = role
    · subst hside
      rw [Function.update_self, Function.update_of_ne hother]
      refine ⟨(ih side).1.moves hc (hlog side).1 hmoves, ?_⟩
      refine (ih side).2.moves (hlog side).1 (hlog side).2 hmoves fun src now datagram hcall hopen => ?_
      obtain rfl | rfl := hcall
      · exact hauth hopen
      · exact hauth hopen
    · obtain rfl : side = role.opposite := by cases side <;> cases role <;> simp_all [Direction.opposite]
      rw [Function.update_of_ne hside, Direction.opposite_opposite, Function.update_self]
      have htrails := (ih role.opposite).2
      rw [Direction.opposite_opposite] at htrails
      exact ⟨(ih role.opposite).1, htrails.mono (emitted_subset hmoves)⟩

/-- Of two datagrams a side emitted, the one from the later epoch has the higher number. -/
theorem Climbs.number_lt (h : Climbs p) {a b : List UInt8} (ha : a ∈ p.emitted) (hb : b ∈ p.emitted)
    (hlt : epochOf a < epochOf b) : numberOf a < numberOf b := by
  refine List.Pairwise.forall_of_forall_of_flip (R := fun a b => epochOf a < epochOf b → numberOf a < numberOf b)
    (fun x _ hself => absurd hself (lt_irrefl _)) (h.order.imp fun hab _ => hab.1) (h.order.imp fun hab hback => ?_) ha hb hlt
  exact absurd hback hab.2.not_gt

theorem fresh_of_epoch_lt (hc : st.cipher.Lawful) (h : (system st).Via (Authentic st) s) {side : Direction}
    {e : Endpoint Secret Key τ Addr} (hheld : (s side).holding.endpoint = some e) {datagram : List UInt8}
    (hmem : datagram ∈ (s side.opposite).emitted) (hlt : e.keys.recv.epoch.val < epochOf datagram) :
    (e.window.admit_ (numberOf datagram)).2 = .fresh := by
  obtain ⟨log, hlog⟩ := exists_reads hc h
  obtain ⟨hremembers, htop⟩ := (hlog side).2.window e hheld
  have hclimbs := (climbs_and_trails hc h side.opposite).1
  have habove : ∀ n ∈ (s side).admitted, n < numberOf datagram := fun n hn => by
    obtain ⟨d, hd, rfl, hle⟩ := (climbs_and_trails hc h side).2 e hheld n hn
    exact hclimbs.number_lt hd hmem (hle.trans_lt hlt)
  refine (hremembers.admit_ _).1.mpr ⟨fun hmem => (habove _ hmem).false, ?_⟩
  obtain hzero | hadmitted := htop
  · rw [hzero]
    exact Nat.add_pos_right _ (by decide)
  · exact (habove _ hadmitted).trans_le (Nat.le_add_right _ _)

end Pair

end Braid.Dgram
