import Braid.Dgram.Floor
import Mathlib.Order.MinMax

/-! When the pacer says a frame may leave. Tokens are gained in whole bytes for whole
microseconds, and the wait is counted in whole microseconds for the bytes that are missing,
one rounded down and the other up. The wait is counted from the instant that is asked about and
the tokens from the instant of the last packet, so the two agree unless the first is the earlier. -/

namespace Braid.Dgram

open Foundation

namespace Pacer

variable {p : Pacer} {now bytes window burst refilled : ℕ} {srtt : Option ℕ}

/-- Bytes gained over microseconds are `elapsed * window` times the first over the second. -/
def pace : Option ℕ → ℕ × ℕ
  | some srtt => (paceNumerator, paceDenominator * max (micros srtt) 1)
  | none => (1, micros initialPace)

def gained (srtt : Option ℕ) (window elapsed : ℕ) : ℕ := elapsed * ((pace srtt).1 * window) / (pace srtt).2

def wait (srtt : Option ℕ) (window short : ℕ) : ℕ := ready.divCeil ((pace srtt).2 * short) ((pace srtt).1 * window)

theorem available_eq (h : p.refilled = some refilled) (now window burst : ℕ) (srtt : Option ℕ) :
    p.available now window burst srtt = min (p.tokens + gained srtt window (micros (now - refilled))) burst := by
  rw [available, h]
  cases srtt with
  | none => simp only [gained, pace, Nat.one_mul]
  | some srtt => simp only [gained, pace, Nat.mul_assoc]

theorem ready_eq (hsrtt : ∀ s ∈ srtt, 1 ≤ micros s) (hwindow : 0 < window)
    (hshort : bytes - p.available now window burst srtt ≠ 0) :
    p.ready now bytes window burst srtt =
      now + ofMicros (min (wait srtt window (bytes - p.available now window burst srtt)) u64Max) := by
  rw [ready]
  rw [if_neg hshort, max_eq_left hwindow]
  cases srtt with
  | none => simp only [wait, pace, Nat.one_mul]
  | some srtt =>
    have hmicros : max (micros srtt) 1 = micros srtt := max_eq_left (hsrtt srtt rfl)
    simp only [wait, pace, hmicros, Nat.mul_comm paceDenominator]

theorem pace_pos (srtt : Option ℕ) : 0 < (pace srtt).1 ∧ 0 < (pace srtt).2 := by
  cases srtt with
  | none => decide
  | some srtt => exact ⟨Nat.succ_pos _, Nat.mul_pos (by decide) (Nat.lt_of_lt_of_le Nat.one_pos (le_max_right _ _))⟩

theorem pace_le (srtt : Option ℕ) : (pace srtt).2 ≤ u64Max * (pace srtt).1 := by
  cases srtt with
  | none => decide
  | some srtt =>
    have hmicros : max (micros srtt) 1 ≤ u64Max := max_le (min_le_right _ _) (by decide)
    calc paceDenominator * max (micros srtt) 1
      _ ≤ paceNumerator * u64Max := Nat.mul_le_mul (by decide) hmicros
      _ = u64Max * paceNumerator := Nat.mul_comm _ _

/-- The wait is the least time in which the bytes are gained. -/
theorem wait_le_iff (hwindow : 0 < window) {short elapsed : ℕ} :
    wait srtt window short ≤ elapsed ↔ short ≤ gained srtt window elapsed := by
  obtain ⟨hnum, hden⟩ := pace_pos srtt
  have hrate : 0 < (pace srtt).1 * window := Nat.mul_pos hnum hwindow
  rw [wait, ready.divCeil, gained, Nat.le_div_iff_mul_le hden, Nat.div_le_iff_le_mul_add_pred hrate, Nat.mul_comm _ elapsed,
    Nat.mul_comm short]
  omega

theorem gained_add (srtt : Option ℕ) (window a b : ℕ) :
    gained srtt window a + gained srtt window b ≤ gained srtt window (a + b) := by
  rw [gained, gained, gained, Nat.add_mul]
  exact Nat.div_add_div_le_add_div

theorem gained_zero (srtt : Option ℕ) (window : ℕ) : gained srtt window 0 = 0 := by
  rw [gained, Nat.zero_mul, Nat.zero_div]

theorem gained_mono {a b : ℕ} (h : a ≤ b) : gained srtt window a ≤ gained srtt window b :=
  Nat.div_le_div_right (Nat.mul_le_mul_right _ h)

theorem window_le_gained (srtt : Option ℕ) (window : ℕ) : window ≤ gained srtt window u64Max := by
  rw [gained, Nat.le_div_iff_mul_le (pace_pos srtt).2, Nat.mul_comm, ← Nat.mul_assoc]
  exact Nat.mul_le_mul_right _ (pace_le srtt)

theorem available_mono {later : ℕ} (h : now ≤ later) : p.available now window burst srtt ≤ p.available later window burst srtt := by
  cases hrefilled : p.refilled with
  | none => rw [available, available, hrefilled]
  | some refilled =>
    rw [available_eq hrefilled, available_eq hrefilled]
    have helapsed : micros (now - refilled) ≤ micros (later - refilled) :=
      min_le_min_right _ (Nat.div_le_div_right (Nat.sub_le_sub_right h refilled))
    exact min_le_min_right _ (Nat.add_le_add_left (gained_mono helapsed) _)

/-- What is asked for fits the burst and the window, and the round trip is no less than the clock's tick. -/
structure Askable (bytes window burst : ℕ) (srtt : Option ℕ) : Prop where
  positive : 0 < window
  window : bytes ≤ window
  burst : bytes ≤ burst
  srtt : ∀ s ∈ srtt, 1 ≤ micros s

section

variable (h : Askable bytes window burst srtt)

include h

theorem wait_le_u64Max {short : ℕ} (hshort : short ≤ bytes) :
    wait srtt window short ≤ u64Max :=
  (wait_le_iff h.positive).mpr ((hshort.trans h.window).trans (window_le_gained srtt window))

theorem available_of_ready (hrefilled : p.refilled = some refilled) (hclock : refilled ≤ now)
    (hshort : p.available now window burst srtt < bytes) {later : ℕ} (hlater : p.ready now bytes window burst srtt ≤ later) :
    bytes ≤ p.available later window burst srtt := by
  have hne : bytes - p.available now window burst srtt ≠ 0 := Nat.sub_ne_zero_of_lt hshort
  rw [ready_eq h.srtt h.positive hne, min_eq_left (wait_le_u64Max h (Nat.sub_le _ _)), ofMicros] at hlater
  rw [available_eq hrefilled] at hshort hlater ⊢
  refine le_min ?_ h.burst
  have hnow : p.tokens + gained srtt window (micros (now - refilled)) < bytes :=
    (min_lt_iff.mp hshort).resolve_right (Nat.not_lt.mpr h.burst)
  rw [min_eq_left (hnow.le.trans h.burst)] at hlater
  generalize hw : wait srtt window (bytes - (p.tokens + gained srtt window (micros (now - refilled)))) = wait_ at hlater
  have hgained := (wait_le_iff h.positive).mp hw.le
  by_cases hlong : micros (later - refilled) = u64Max
  · rw [hlong]
    exact (h.window.trans (window_le_gained srtt window)).trans (Nat.le_add_left _ _)
  · have helapsed : micros (now - refilled) + wait_ ≤ micros (later - refilled) := by
      unfold micros at hlong ⊢
      omega
    have hmono : gained srtt window _ ≤ gained srtt window _ := gained_mono helapsed
    have hsum := gained_add srtt window (micros (now - refilled)) wait_
    omega

theorem available_ready_lt (hrefilled : p.refilled = some refilled) (hclock : now < refilled)
    (hshort : p.tokens < bytes) :
    p.available (p.ready now bytes window burst srtt) window burst srtt < bytes := by
  have hnone : gained srtt window (micros (now - refilled)) = 0 := by
    rw [Nat.sub_eq_zero_of_le hclock.le]
    exact gained_zero srtt window
  have hnow : p.available now window burst srtt = p.tokens := by
    rw [available_eq hrefilled, hnone, Nat.add_zero, min_eq_left (hshort.le.trans h.burst)]
  have hne : bytes - p.available now window burst srtt ≠ 0 := by
    rw [hnow]
    exact Nat.sub_ne_zero_of_lt hshort
  rw [ready_eq h.srtt h.positive hne, min_eq_left (wait_le_u64Max h (Nat.sub_le _ _)), hnow, available_eq hrefilled, ofMicros]
  refine min_lt_of_left_lt ?_
  generalize hw : wait srtt window (bytes - p.tokens) = wait_
  -- the wait is the least that gives the bytes, and a part of it is over before the last packet
  have hpos : wait_ ≠ 0 := by
    intro hzero
    have hgained := (wait_le_iff h.positive).mp (hw.trans hzero).le
    rw [gained_zero] at hgained
    omega
  have helapsed : micros (now + wait_ * 1000 - refilled) < wait_ := by
    unfold micros
    omega
  have hless : ¬bytes - p.tokens ≤ gained srtt window (micros (now + wait_ * 1000 - refilled)) := by
    rw [← wait_le_iff h.positive, hw]
    exact Nat.not_le.mpr helapsed
  omega

/-- From the instant it names on there are enough just if it was not asked too early, short of tokens. -/
theorem available_ready_iff :
    (∀ later, p.ready now bytes window burst srtt ≤ later → bytes ≤ p.available later window burst srtt) ↔
      ∀ refilled ∈ p.refilled, refilled ≤ now ∨ bytes ≤ p.tokens := by
  constructor
  · intro hlater refilled hrefilled
    by_contra hearly
    obtain ⟨hclock, hshort⟩ := not_or.mp hearly
    have hlt := available_ready_lt h hrefilled (Nat.not_le.mp hclock) (Nat.not_le.mp hshort)
    exact absurd (hlater _ le_rfl) (Nat.not_le.mpr hlt)
  · intro hasked later hlater
    by_cases hnow : bytes ≤ p.available now window burst srtt
    · rw [ready, Nat.sub_eq_zero_of_le hnow] at hlater
      exact hnow.trans (available_mono hlater)
    have hshort := Nat.not_le.mp hnow
    cases hrefilled : p.refilled with
    | none =>
      rw [available, hrefilled] at hshort
      exact absurd h.burst (Nat.not_le.mpr hshort)
    | some refilled =>
      obtain hclock | htokens := hasked refilled hrefilled
      · exact available_of_ready h hrefilled hclock hshort hlater
      · rw [available_eq hrefilled] at hshort
        exact absurd (le_min (htokens.trans (Nat.le_add_right _ _)) h.burst) (Nat.not_le.mpr hshort)

end

end Pacer

namespace Congestion

variable {c : Congestion}

theorem acknowledged_srtt (bytes sent : ℕ) (rtt : Rtt) (limited : Limited) :
    (c.acknowledged bytes sent rtt limited).srtt = rtt.smoothed.map ofMicros := by
  have hgrow : ∀ turns (c : Congestion), (grow turns c).srtt = c.srtt := by
    intro turns
    induction turns with
    | zero => exact fun c => rfl
    | succ turns ih =>
      intro c
      rw [grow]
      split_ifs
      · exact ih _
      · rfl
  have hopen : ∀ c : Congestion, (c.openWindow bytes limited).srtt = c.srtt := by
    intro c
    unfold openWindow
    split_ifs
    · rfl
    · rfl
    · exact hgrow _ _
  have hovershoot : ∀ c : Congestion, (c.checkOvershoot rtt).srtt = c.srtt := by
    intro c
    unfold checkOvershoot
    split
    · rfl
    · dsimp only
      split_ifs <;> rfl
  rw [acknowledged, hopen, noteArrival]
  dsimp only
  split
  · exact hovershoot _
  · rfl

theorem lost_srtt (bytes sent now : ℕ) : (c.lost bytes sent now).srtt = c.srtt := by
  unfold lost
  dsimp only
  split_ifs <;> rfl

theorem spurious_srtt : c.spurious.srtt = c.srtt := by
  unfold spurious
  split <;> rfl

end Congestion

namespace LossDetector

variable {d : LossDetector}

theorem shed_rtt (flight : List InFlight) : (shed flight d).rtt = d.rtt := by
  induction flight generalizing d with
  | nil => rfl
  | cons oldest rest ih =>
    rw [shed]
    split_ifs
    · exact ih
    · rfl

theorem giveUp_rtt (now lossDelay probeTimeout : ℕ) (flight : List InFlight) (abandoned : Bool) :
    (giveUp now lossDelay probeTimeout flight d abandoned).1.rtt = d.rtt := by
  induction flight generalizing d abandoned with
  | nil => rfl
  | cons oldest rest ih =>
    rw [giveUp]
    split_ifs
    · exact ih _
    · exact ih _
    · rfl

theorem detect_rtt (now : ℕ) : (d.detect now).rtt = d.rtt := by
  have hgive := giveUp_rtt (d := d) now d.rtt.lossDelay d.probeTimeout d.sent false
  unfold detect
  dsimp only
  split_ifs <;> exact hgive

theorem acknowledged_smoothed (h : ∀ s ∈ d.rtt.smoothed, 1 ≤ s) (ack : Ack) (now : ℕ) :
    ∀ s ∈ (d.acknowledged ack now).rtt.smoothed, 1 ≤ s := by
  rw [acknowledged, detect_rtt, measured]
  split
  · exact h
  · rename_i packet hpacket
    intro s hs
    dsimp only [Rtt.sample] at hs
    split at hs
    · rw [← Option.some.inj hs]
      exact le_max_right _ _
    · rename_i smoothed hsmoothed
      have hone := h smoothed hsmoothed
      rw [← Option.some.inj hs]
      omega

end LossDetector

/-- The window is denominated in the width in force, and no round trip is below a microsecond. -/
structure Measured {Addr : Type*} (r : Carrier Addr) : Prop where
  datagram : r.congestion.datagram = r.mtu.plpmtu
  fit : r.mtu.Fit
  srtt : ∀ s ∈ r.congestion.srtt, 1 ≤ micros s
  smoothed : ∀ s ∈ r.loss.rtt.smoothed, 1 ≤ s

variable {Secret Key Addr : Type*} {r : Carrier Addr}

theorem measured_absorb (hfit : r.mtu.Fit) (hsrtt : ∀ s ∈ r.congestion.srtt, 1 ≤ micros s)
    (hsmoothed : ∀ s ∈ r.loss.rtt.smoothed, 1 ≤ s) (now : ℕ) : Measured (r.absorb now) := by
  have hkept : (r.absorb now).mtu.Fit ∧ (∀ s ∈ (r.absorb now).congestion.srtt, 1 ≤ micros s) ∧
      ∀ s ∈ (r.absorb now).loss.rtt.smoothed, 1 ≤ s := by
    refine Carrier.absorb_keeps (P := fun r => r.mtu.Fit ∧ (∀ s ∈ r.congestion.srtt, 1 ≤ micros s) ∧
      ∀ s ∈ r.loss.rtt.smoothed, 1 ≤ s) r now ?_ ?_ ?_ ?_
    · unfold Carrier.revive
      split_ifs
      · exact ⟨hfit, by rwa [Congestion.spurious_srtt], hsmoothed⟩
      · exact ⟨hfit, hsrtt, hsmoothed⟩
    · rintro r p ⟨hfit, -, hsmoothed⟩
      refine ⟨hfit.steps (r.mtu.steps_acknowledged p.number p.bytes), fun s hs => ?_, hsmoothed⟩
      dsimp only [Carrier.absorbArrived] at hs
      rw [Congestion.acknowledged_srtt] at hs
      obtain ⟨us, hus, rfl⟩ := Option.map_eq_some_iff.mp hs
      have hone := hsmoothed us hus
      rw [micros, ofMicros, Nat.mul_div_cancel _ (by decide)]
      exact le_min hone (by decide)
    · rintro r g ⟨hfit, hsrtt, hsmoothed⟩
      refine ⟨?_, ?_, ?_⟩
      · rw [Carrier.absorbGone_mtu]
        exact hfit.steps (r.mtu.steps_report g.cause g.number g.bytes now)
      · unfold Carrier.absorbGone
        split
        · rwa [Congestion.lost_srtt]
        · exact hsrtt
        · exact hsrtt
      · unfold Carrier.absorbGone
        split <;> exact hsmoothed
    · rintro r ⟨hfit, hsrtt, hsmoothed⟩
      unfold Carrier.settle
      dsimp only
      split_ifs <;> exact ⟨hfit, hsrtt, hsmoothed⟩
  refine ⟨?_, hkept.1, hkept.2.1, hkept.2.2⟩
  unfold Carrier.absorb Carrier.settle
  dsimp only
  split_ifs <;> rfl

variable [DecidableEq Addr]

theorem Measured.deed {s s' : ℕ × Carrier Addr} {d : Deed Addr} (h : Measured s.2) (hs : (carriage Addr).deed s d = some s') :
    Measured s'.2 := by
  obtain ⟨n, r⟩ := s
  obtain ⟨hdatagram, hfit, hsrtt, hsmoothed⟩ := h
  cases d with
  | challenge now | arrived src size now | answered src token =>
    cases hs
    exact ⟨hdatagram, hfit, hsrtt, hsmoothed⟩
  | probing number =>
    cases hs
    obtain ⟨hfit', hwidth⟩ := Mtu.probing_spec hfit number
    exact ⟨hdatagram.trans hwidth.symm, hfit', hsrtt, hsmoothed⟩
  | search now =>
    cases hs
    obtain ⟨hfit', hwidth⟩ := Mtu.poll_spec hfit now
    exact ⟨hdatagram.trans hwidth.symm, hfit', hsrtt, hsmoothed⟩
  | refused carries now =>
    cases hs
    exact ⟨rfl, hfit.steps (r.mtu.steps_refused carries now), hsrtt, hsmoothed⟩
  | migrated =>
    cases hs
    exact ⟨rfl, hfit.steps r.mtu.steps_migrated, nofun, nofun⟩
  | expire now =>
    cases hs
    refine measured_absorb (r := { r with loss := r.loss.expire now }) hfit hsrtt ?_ now
    dsimp only [LossDetector.expire]
    rwa [LossDetector.detect_rtt]
  | acknowledged ack now =>
    obtain rfl : (n, r.acknowledged ack n now) = s' := Option.some.inj hs
    unfold Carrier.acknowledged
    split_ifs
    · have hmeasured := measured_absorb (r := { r with loss := r.loss.acknowledged ack now }) hfit hsrtt
        (LossDetector.acknowledged_smoothed hsmoothed ack now) now
      obtain ⟨hfit', hwidth⟩ := Mtu.proven_spec hmeasured.fit
      exact ⟨hmeasured.datagram.trans hwidth.symm, hfit', hmeasured.srtt, hmeasured.smoothed⟩
    · exact ⟨hdatagram, hfit, hsrtt, hsmoothed⟩
  | emit kind dest size now =>
    obtain ⟨-, -, rfl⟩ := Transport.of_emit hs
    split_ifs
    · refine measured_absorb (r := { (carriage Addr).spent r dest size with
        congestion := (r.congestion.sealed size now).1
        loss := r.loss.sealed ⟨n, size, now, (r.congestion.sealed size now).2⟩ }) hfit hsrtt ?_ now
      dsimp only [LossDetector.sealed]
      rwa [LossDetector.shed_rtt]
    · exact ⟨hdatagram, hfit, hsrtt, hsmoothed⟩

namespace Endpoint

variable {c : Cipher Secret Key} {root : Secret} {cid : ConnectionId} {dialling listening : Side}
  {e : Endpoint Secret Key (Carrier Addr) Addr}

theorem reachable_measured (h : (system (carried c root cid dialling listening)).Reachable e) : Measured e.transport := by
  have hstanding := (standing_reachable h).2
  refine System.Reachable.invariant (P := fun s : ℕ × Carrier Addr => Measured s.2) hstanding (fun s hs => ?_)
    fun s d s' hs hd => hs.deed hd
  obtain ⟨-, peer, hr | hr⟩ := hs
  · rw [hr]
    exact ⟨rfl, Mtu.fit_new _, nofun, nofun⟩
  · rw [hr]
    exact ⟨rfl, Mtu.fit_new _, nofun, nofun⟩

/-- The instant an open endpoint names for a frame it may carry is one from which on the frame is
writable just if the endpoint was not asked about an instant before its last packet, short of tokens. -/
theorem ready_honest_iff (h : (system (carried c root cid dialling listening)).Reachable e) (hopen : e.closed = false)
    {now len t : ℕ} (hlen : len ≤ e.payloadLimit (carriage Addr)) (hready : e.ready now len = some t) :
    (∀ later, t ≤ later → e.writable (carriage Addr) later len = true) ↔
      ∀ refilled ∈ e.transport.congestion.pacer.refilled,
        refilled ≤ now ∨ len + headerBytes + tagBytes ≤ e.transport.congestion.pacer.tokens := by
  have hmeasured := reachable_measured h
  unfold ready at hready
  dsimp only at hready
  split at hready
  · cases hready
  rename_i hrefused
  have hadmits : e.admits (carriage Addr) ((carriage Addr).current e.transport) (len + headerBytes + tagBytes) = true := by
    simpa using hrefused
  rw [Congestion.ready] at hready
  split_ifs at hready with hwindow
  cases hready
  have hpositive : 0 < headerBytes + tagBytes := by decide
  have hask : Pacer.Askable (len + headerBytes + tagBytes) e.transport.congestion.window e.transport.congestion.burst
      e.transport.congestion.srtt := by
    have hbase : headerBytes + tagBytes ≤ e.transport.mtu.plpmtu := le_trans (by decide) hmeasured.fit.base
    have hlimit : len ≤ e.transport.mtu.plpmtu - headerBytes - tagBytes := hlen
    refine ⟨by omega, by omega, ?_, hmeasured.srtt⟩
    rw [Congestion.burst, hmeasured.datagram, burstDatagrams]
    exact le_min (by omega) (by omega)
  rw [← Pacer.available_ready_iff hask]
  have hwritable : ∀ later, e.writable (carriage Addr) later len = true ↔
      len + headerBytes + tagBytes ≤ e.transport.congestion.pacer.available later e.transport.congestion.window
        e.transport.congestion.burst e.transport.congestion.srtt := by
    intro later
    change (!e.closed && e.admits (carriage Addr) _ _ && (decide _ && decide _)) = true ↔ _
    rw [hopen, hadmits, decide_eq_true (Nat.not_lt.mp hwindow), Bool.not_false, Bool.true_and, Bool.true_and, Bool.true_and,
      decide_eq_true_iff]
  simp only [hwritable]

/-- Ten full frames leave at 10 ms, which spends every token, and the first nine of them are acknowledged. -/
def spentRun : List (Call ℕ) :=
  List.replicate 10 (.send (List.replicate 1168 0) 10000000) ++ [.recv 1 10000000 (named 0 8 255)]

theorem ready_honest_iff_spentRun : ∃ e, (system sample).Reachable e ∧ e.closed = false ∧
    1168 ≤ e.payloadLimit (carriage ℕ) ∧ e.ready 10000000 1168 = some 10001000 ∧
    ∀ later, 10001000 ≤ later → e.writable (carriage ℕ) later 1168 = true := by
  obtain ⟨e, hreach, hopen, hlen, hready, hrefilled⟩ : ∃ e, (system sample).Reachable e ∧ e.closed = false ∧
      1168 ≤ e.payloadLimit (carriage ℕ) ∧ e.ready 10000000 1168 = some 10001000 ∧
      e.transport.congestion.pacer.refilled = some 10000000 :=
    System.Reachable.of_run (new sample.cipher sample.cid sample.root (sample.dialled 1) .clientToServer) spentRun
      ⟨.clientToServer, .connect 1⟩ (by decide +kernel)
  refine ⟨e, hreach, hopen, hlen, hready, (ready_honest_iff hreach hopen hlen hready).mpr ?_⟩
  rw [hrefilled]
  rintro refilled ⟨⟩
  exact .inl le_rfl

/-- Asked about 9 ms, it names an instant before its last packet, at which the frame is refused. -/
theorem ready_dishonest : ∃ e, (system sample).Reachable e ∧ e.closed = false ∧ 1168 ≤ e.payloadLimit (carriage ℕ) ∧
    e.ready 9000000 1168 = some 9001000 ∧ e.writable (carriage ℕ) 9001000 1168 = false := by
  exact System.Reachable.of_run (new sample.cipher sample.cid sample.root (sample.dialled 1) .clientToServer) spentRun
    ⟨.clientToServer, .connect 1⟩ (by decide +kernel)

end Endpoint

end Braid.Dgram
