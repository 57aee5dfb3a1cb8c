import Braid.Foundation.Slice
import Braid.Dgram.Flight
import Mathlib.Data.List.Induction
import Mathlib.Data.List.TakeWhile

/-! Loss detection is exact. An acknowledgement is looked up in a slice of the flight only,
taken out from the back by index, and what is lost or silent is looked for at the front only.
The flight ascends by number and by the time of sealing, so what an acknowledgement can name
lies in the slice, and what is to be given up is a front of the flight. -/

namespace Braid.Dgram

open Foundation

namespace LossDetector

variable {d : LossDetector} {ack : Ack} {now : ℕ}

/-! ### What an acknowledgement names -/

theorem takeCovered_middle (front middle back : List InFlight) :
    takeCovered ack front.length (front.length + middle.length) (front ++ middle ++ back) =
      (front ++ middle.filter (fun packet => !ack.covers packet.number) ++ back,
        middle.filter fun packet => ack.covers packet.number) := by
  -- the walk starts at the last packet of the middle
  induction middle using List.reverseRecOn generalizing back with
  | nil =>
    simp only [List.length_nil, Nat.add_zero, List.append_nil, List.filter_nil]
    cases front.length with
    | zero => rw [takeCovered]
    | succ start => rw [takeCovered, if_pos le_rfl]
  | append_singleton middle packet ih =>
    have hlast : (front ++ (middle ++ [packet]) ++ back)[front.length + middle.length]? = some packet := by
      rw [List.append_assoc, List.append_assoc, List.getElem?_append_right (Nat.le_add_right _ _), Nat.add_sub_cancel_left,
        List.getElem?_append_right le_rfl, Nat.sub_self]
      rfl
    rw [List.length_append, List.length_singleton, ← Nat.add_assoc, takeCovered, if_neg (by omega), hlast]
    dsimp only
    cases hcovers : ack.covers packet.number with
    | true =>
      have herase : (front ++ (middle ++ [packet]) ++ back).eraseIdx (front.length + middle.length) =
          front ++ middle ++ back := by
        rw [← List.append_assoc, List.append_assoc, List.eraseIdx_append_of_length_le (by simp)]
        simp
      rw [if_pos rfl, herase, ih]
      simp [hcovers]
    | false =>
      have hback : front ++ (middle ++ [packet]) ++ back = front ++ middle ++ (packet :: back) := by simp
      rw [if_neg Bool.false_ne_true, hback, ih]
      simp [hcovers]

theorem not_covers {number : ℕ} (h : ack.largest < number ∨ number < ack.largest - 64) : ack.covers number = false := by
  simp only [Ack.covers, decide_eq_false_iff_not]
  omega

/-- A flight is what is too far below the largest to be named, the slice that is walked, and
what is above the largest. -/
theorem exists_slice {sent : List InFlight} (h : sent.Pairwise (·.number < ·.number)) (largest : ℕ) :
    ∃ front middle back, sent = front ++ middle ++ back ∧
      (sent.takeWhile fun packet => packet.number < largest - 64).length = front.length ∧
      (sent.takeWhile fun packet => packet.number ≤ largest).length = front.length + middle.length ∧
      (∀ packet ∈ front, packet.number < largest - 64) ∧ ∀ packet ∈ back, largest < packet.number := by
  have hupto := takeWhile_eq_filter (p := fun packet : InFlight => packet.number ≤ largest) h
    fun a b hlt hle => by simp only [decide_eq_true_eq] at hle ⊢; omega
  have hfloor := takeWhile_eq_filter (p := fun packet : InFlight => packet.number < largest - 64) h
    fun a b hlt hle => by simp only [decide_eq_true_eq] at hle ⊢; omega
  generalize hT : sent.takeWhile (fun packet => packet.number ≤ largest) = upto at hupto
  generalize hD : sent.dropWhile (fun packet => packet.number ≤ largest) = back at hupto
  have hsent : sent = upto ++ back := by rw [← hT, ← hD, List.takeWhile_append_dropWhile]
  have hback : ∀ packet ∈ back, largest < packet.number := by
    rw [hupto.2]
    simp
  have hfront : sent.takeWhile (fun packet => packet.number < largest - 64) =
      upto.takeWhile fun packet => packet.number < largest - 64 := by
    have hnumbers : upto.Pairwise (·.number < ·.number) := (List.pairwise_append.mp (hsent ▸ h)).1
    rw [hfloor.1, (takeWhile_eq_filter hnumbers fun a b hlt hle => by
      simp only [decide_eq_true_eq] at hle ⊢; omega).1, hsent, List.filter_append]
    refine (congrArg _ (List.filter_eq_nil_iff.mpr fun packet hpacket => ?_)).trans (List.append_nil _)
    have := hback packet hpacket
    simp only [decide_eq_true_eq]
    omega
  have hsplit := List.takeWhile_append_dropWhile (p := fun packet : InFlight => packet.number < largest - 64) (l := upto)
  refine ⟨upto.takeWhile fun packet => packet.number < largest - 64, upto.dropWhile fun packet => packet.number < largest - 64,
    back, ?_, congrArg _ hfront, ?_, ?_, hback⟩
  · rw [hsplit]
    exact hsent
  · rw [← List.length_append, hsplit]
  · intro packet hpacket
    simpa using List.mem_takeWhile_imp hpacket

theorem takeNamed_exact (h : d.sent.Pairwise (·.number < ·.number)) (ack : Ack) :
    (d.takeNamed ack).sent = d.sent.filter (fun packet => !ack.covers packet.number) ∧
      (d.takeNamed ack).arrived = d.sent.filter fun packet => ack.covers packet.number := by
  obtain ⟨front, middle, back, hsent, hstart, hstop, hfront, hback⟩ := exists_slice h ack.largest
  have hnamed : takeCovered ack front.length (front.length + middle.length) d.sent = _ :=
    (congrArg _ hsent).trans (takeCovered_middle front middle back)
  have hlow : ∀ packet ∈ front, ack.covers packet.number = false := fun packet hpacket => not_covers (.inr (hfront packet hpacket))
  have hhigh : ∀ packet ∈ back, ack.covers packet.number = false := fun packet hpacket => not_covers (.inl (hback packet hpacket))
  unfold takeNamed
  rw [hstart, hstop]
  dsimp only
  rw [hnamed, hsent]
  simp only [List.filter_append]
  constructor
  · have hkept : front.filter (fun packet => !ack.covers packet.number) = front := by simpa using hlow
    have hpast : back.filter (fun packet => !ack.covers packet.number) = back := by simpa using hhigh
    rw [hkept, hpast]
  · have hnone : front.filter (fun packet => ack.covers packet.number) = [] := by simpa using hlow
    have hpast : back.filter (fun packet => ack.covers packet.number) = [] := by simpa using hhigh
    rw [hnone, hpast, List.nil_append, List.append_nil]

/-! ### What is given up -/

/-- The peer has acknowledged around the packet: so many later ones, or a later one and it is
older than the loss delay. -/
def lost (d : LossDetector) (now : ℕ) (packet : InFlight) : Bool :=
  d.largestAcked.any (fun largest => packet.number + packetThreshold ≤ largest) ||
    (d.largestAcked.any (fun largest => packet.number < largest) && decide (d.rtt.lossDelay ≤ now - packet.sent))

/-- The packet is older than the probe timeout. -/
def silent (d : LossDetector) (now : ℕ) (packet : InFlight) : Bool := d.probeTimeout ≤ now - packet.sent

/-- How a packet that is given up is reported. -/
def written (d : LossDetector) (now : ℕ) (packet : InFlight) : Gone :=
  ⟨packet.number, packet.bytes, packet.sent, if d.lost now packet then .lost else .silent⟩

/-- The walk from the oldest stops at the first packet that is neither lost nor silent. -/
theorem giveUp_exact (d₀ : LossDetector) (now : ℕ) (flight : List InFlight) (d : LossDetector) (abandoned : Bool)
    (hlargest : d.largestAcked = d₀.largestAcked) :
    (giveUp now d₀.rtt.lossDelay d₀.probeTimeout flight d abandoned).1.sent =
        flight.dropWhile (fun packet => d₀.lost now packet || d₀.silent now packet) ∧
      (giveUp now d₀.rtt.lossDelay d₀.probeTimeout flight d abandoned).1.gone =
        d.gone ++ (flight.takeWhile fun packet => d₀.lost now packet || d₀.silent now packet).map (d₀.written now) ∧
      (giveUp now d₀.rtt.lossDelay d₀.probeTimeout flight d abandoned).1.arrived = d.arrived := by
  induction flight generalizing d abandoned with
  | nil => exact ⟨rfl, (List.append_nil _).symm, rfl⟩
  | cons oldest rest ih =>
    have hlost : (d.largestAcked.any (fun largest => oldest.number + packetThreshold ≤ largest) ||
        (d.largestAcked.any (fun largest => oldest.number < largest) && decide (d₀.rtt.lossDelay ≤ now - oldest.sent))) =
          d₀.lost now oldest := by rw [hlargest]; rfl
    rw [giveUp]
    rw [hlost]
    by_cases hgone : d₀.lost now oldest = true
    · obtain ⟨hsent, hreported, harrived⟩ := ih (d.retire oldest .lost) abandoned hlargest
      rw [if_pos hgone, hsent, hreported, harrived]
      simp [hgone, retire, written]
    · rw [if_neg hgone]
      by_cases hsilent : d₀.probeTimeout ≤ now - oldest.sent
      · have hquiet : d₀.silent now oldest = true := decide_eq_true hsilent
        rw [if_pos hsilent]
        generalize (d.silentSince.getD oldest.sent) = since
        obtain ⟨hsent, hreported, harrived⟩ := ih (LossDetector.retire { d with
          silentSince := some since
          persistent := d.persistent || (!d.answered && d.rtt.smoothed.isSome &&
            decide (d.rtt.persistentCongestionPeriod ≤ oldest.sent - since))
          answered := d.answered || (!d.answered && d.rtt.smoothed.isSome &&
            decide (d.rtt.persistentCongestionPeriod ≤ oldest.sent - since)) } oldest .silent) true hlargest
        rw [hsent, hreported, harrived]
        simp [hgone, hquiet, retire, written]
      · have hquiet : d₀.silent now oldest = false := decide_eq_false hsilent
        rw [if_neg hsilent]
        simp [hgone, hquiet]

theorem detect_walk (d : LossDetector) (now : ℕ) :
    (d.detect now).sent = d.sent.dropWhile (fun packet => d.lost now packet || d.silent now packet) ∧
      (d.detect now).gone =
        d.gone ++ (d.sent.takeWhile fun packet => d.lost now packet || d.silent now packet).map (d.written now) ∧
      (d.detect now).arrived = d.arrived := by
  have hwalk := giveUp_exact d now d.sent d false rfl
  unfold detect
  dsimp only
  split_ifs
  · exact hwalk
  · exact hwalk

/-- A later packet of the flight has the larger number and was sealed no sooner. -/
def Before (a b : InFlight) : Prop := a.number < b.number ∧ a.sent ≤ b.sent

theorem doomed_of_before {a b : InFlight} (h : Before a b) (hb : (d.lost now b || d.silent now b) = true) :
    (d.lost now a || d.silent now a) = true := by
  have hnumber := h.1
  have hsent := h.2
  simp only [lost, silent, Bool.or_eq_true, Bool.and_eq_true, Option.any_eq_true, decide_eq_true_eq] at hb ⊢
  rcases hb with (⟨largest, hlargest, hb⟩ | ⟨⟨largest, hlargest, hb⟩, hage⟩) | hage
  · exact .inl (.inl ⟨largest, hlargest, by omega⟩)
  · exact .inl (.inr ⟨⟨largest, hlargest, by omega⟩, by omega⟩)
  · exact .inr (by omega)

/-- The prefix that is examined holds all that is lost or silent. -/
theorem detect_exact (h : d.sent.Pairwise Before) (now : ℕ) :
    (d.detect now).sent = d.sent.filter (fun packet => !(d.lost now packet || d.silent now packet)) ∧
      (d.detect now).gone = d.gone ++ (d.sent.filter fun packet => d.lost now packet || d.silent now packet).map (d.written now) ∧
      (d.detect now).arrived = d.arrived := by
  have hfront := takeWhile_eq_filter (p := fun packet => d.lost now packet || d.silent now packet) h
    fun _ _ => doomed_of_before
  rw [← hfront.1, ← hfront.2]
  exact detect_walk d now

/-- Where an acknowledgement leaves the detector before it looks for what is gone. -/
def answeredBy (d : LossDetector) (ack : Ack) (now : ℕ) : LossDetector :=
  (((d.heard ack.largest).takeNamed ack).countSpurious ack).measured ack now

theorem answeredBy_exact (h : d.sent.Pairwise (·.number < ·.number)) (ack : Ack) (now : ℕ) :
    (d.answeredBy ack now).sent = d.sent.filter (fun packet => !ack.covers packet.number) ∧
      (d.answeredBy ack now).arrived = d.sent.filter (fun packet => ack.covers packet.number) ∧
      (d.answeredBy ack now).gone = [] := by
  obtain ⟨hsent, harrived, hgone, -⟩ :=
    (((d.heard ack.largest).takeNamed ack).countSpurious ack).measured_flight ack now
  obtain ⟨hleft, hnamed⟩ := takeNamed_exact (d := d.heard ack.largest) h ack
  exact ⟨hsent.trans hleft, harrived.trans hnamed, hgone⟩

theorem shed_sublist (flight : List InFlight) (d : LossDetector) :
    (shed flight d).sent.Sublist flight ∧ (shed flight d).arrived = d.arrived := by
  induction flight generalizing d with
  | nil => exact ⟨.slnil, rfl⟩
  | cons oldest rest ih =>
    rw [shed]
    split_ifs
    · obtain ⟨hsub, harrived⟩ := ih (d.retire oldest .overflowed)
      exact ⟨hsub.cons _, harrived⟩
    · exact ⟨.refl _, rfl⟩

theorem detect_sublist (d : LossDetector) (now : ℕ) : (d.detect now).sent.Sublist d.sent := by
  rw [(detect_walk d now).1]
  exact List.dropWhile_sublist _

theorem acknowledged_sublist (h : d.sent.Pairwise (·.number < ·.number)) (ack : Ack) (now : ℕ) :
    (d.acknowledged ack now).sent.Sublist d.sent := by
  have hsub := detect_sublist (d.answeredBy ack now) now
  rw [(answeredBy_exact h ack now).1] at hsub
  exact hsub.trans List.filter_sublist

end LossDetector

/-! ### Every history -/

inductive Detecting where
  | sealed (packet : InFlight)
  | acknowledged (ack : Ack) (now : ℕ)
  | expire (now : ℕ)
  | migrated

/-- A detector with the last packet that was sealed and the latest instant of a call. -/
structure History where
  detector : LossDetector
  last : Option InFlight
  clock : ℕ

namespace History

open LossDetector

variable {h h' : History} {call : Detecting}

def fresh : History := ⟨.new, none, 0⟩

/-- Packets are sealed with ascending numbers, and no instant is before an earlier one. -/
def next (h : History) : Detecting → Option History
  | .sealed packet =>
    if h.last.all (fun last => last.number < packet.number) ∧ h.clock ≤ packet.sent then
      some ⟨h.detector.sealed packet, some packet, packet.sent⟩
    else none
  | .acknowledged ack now =>
    if h.clock ≤ now then some { h with detector := h.detector.acknowledged ack now, clock := now } else none
  | .expire now => if h.clock ≤ now then some { h with detector := h.detector.expire now, clock := now } else none
  | .migrated => some { h with detector := h.detector.migrated }

def system : System History Detecting := ⟨(· = fresh), next⟩

/-- The flight is in order, and all of it was sealed by the last packet and by now. -/
structure Ordered (h : History) : Prop where
  flight : h.detector.sent.Pairwise Before
  last : ∀ packet ∈ h.detector.sent, ∃ last ∈ h.last, packet.number ≤ last.number
  clock : ∀ packet ∈ h.detector.sent, packet.sent ≤ h.clock

theorem Ordered.numbers (hh : Ordered h) : h.detector.sent.Pairwise (·.number < ·.number) := hh.flight.imp fun hab => hab.1

theorem Ordered.of_sublist (hh : Ordered h) {d : LossDetector} (hsub : d.sent.Sublist h.detector.sent) {now : ℕ}
    (hnow : h.clock ≤ now) : Ordered ⟨d, h.last, now⟩ where
  flight := hh.flight.sublist hsub
  last packet hpacket := hh.last packet (hsub.mem hpacket)
  clock packet hpacket := (hh.clock packet (hsub.mem hpacket)).trans hnow

theorem Ordered.sealed (hh : Ordered h) {packet : InFlight} (hlast : ∀ last ∈ h.last, last.number < packet.number)
    (hclock : h.clock ≤ packet.sent) : Ordered ⟨h.detector.sealed packet, some packet, packet.sent⟩ := by
  have hbefore : ∀ q ∈ h.detector.sent, Before q packet := by
    intro q hq
    obtain ⟨last, hmem, hle⟩ := hh.last q hq
    exact ⟨hle.trans_lt (hlast last hmem), (hh.clock q hq).trans hclock⟩
  have hsub := (shed_sublist (h.detector.sent ++ [packet]) h.detector.clear).1
  have hmem : ∀ q ∈ (h.detector.sealed packet).sent, q ∈ h.detector.sent ∨ q = packet := by
    intro q hq
    simpa using hsub.mem hq
  refine ⟨?_, fun q hq => ⟨packet, rfl, ?_⟩, fun q hq => ?_⟩
  · exact (List.pairwise_append.mpr ⟨hh.flight, List.pairwise_singleton _ _, by simpa using hbefore⟩).sublist hsub
  · obtain hq | rfl := hmem q hq
    · exact (hbefore q hq).1.le
    · exact le_rfl
  · obtain hq | rfl := hmem q hq
    · exact (hbefore q hq).2
    · exact le_rfl

theorem Ordered.next (hh : Ordered h) (hs : h.next call = some h') : Ordered h' := by
  cases call with
  | sealed packet =>
    obtain ⟨⟨hlast, hclock⟩, hs⟩ := Option.ite_none_right_eq_some.mp hs
    cases hs
    exact hh.sealed (fun last hmem => of_decide_eq_true ((Option.all_eq_true _ _).1 hlast last hmem)) hclock
  | acknowledged ack now =>
    obtain ⟨hclock, hs⟩ := Option.ite_none_right_eq_some.mp hs
    cases hs
    exact hh.of_sublist (acknowledged_sublist hh.numbers ack now) hclock
  | expire now =>
    obtain ⟨hclock, hs⟩ := Option.ite_none_right_eq_some.mp hs
    cases hs
    exact hh.of_sublist (detect_sublist h.detector.clear now) hclock
  | migrated =>
    cases hs
    exact hh.of_sublist (d := h.detector.migrated) (.refl h.detector.sent) le_rfl

theorem reachable_ordered (hr : system.Reachable h) : Ordered h := by
  refine hr.invariant ?_ fun h call h' hh hs => hh.next hs
  rintro h rfl
  exact ⟨List.Pairwise.nil, by rintro q ⟨⟩, by rintro q ⟨⟩⟩

/-- From every state of every history, at any instant: an acknowledgement takes exactly the
packets it names out of the flight, in ascending order, and what is then given up, as what a
timer gives up, is exactly what is lost or silent. -/
theorem detection_exact (hr : system.Reachable h) (ack : Ack) (now : ℕ) :
    let d := h.detector
    let named := d.answeredBy ack now
    (d.acknowledged ack now).arrived = d.sent.filter (fun packet => ack.covers packet.number) ∧
      (d.acknowledged ack now).arrived.Pairwise (·.number < ·.number) ∧
      named.sent = d.sent.filter (fun packet => !ack.covers packet.number) ∧
      (d.acknowledged ack now).sent = named.sent.filter (fun packet => !(named.lost now packet || named.silent now packet)) ∧
      (d.acknowledged ack now).gone =
        (named.sent.filter fun packet => named.lost now packet || named.silent now packet).map (named.written now) ∧
      (d.expire now).sent = d.sent.filter (fun packet => !(d.lost now packet || d.silent now packet)) ∧
      (d.expire now).gone = (d.sent.filter fun packet => d.lost now packet || d.silent now packet).map (d.written now) := by
  intro d named
  have hh := reachable_ordered hr
  obtain ⟨hleft, harrived, hgone⟩ := answeredBy_exact hh.numbers ack now
  have hflight : named.sent.Pairwise Before := by
    rw [hleft]
    exact hh.flight.sublist List.filter_sublist
  obtain ⟨hsent, hlost, hkept⟩ := detect_exact hflight now
  obtain ⟨hrest, hexpired, -⟩ := detect_exact (d := d.clear) hh.flight now
  have hnamed : (d.acknowledged ack now).arrived = d.sent.filter fun packet => ack.covers packet.number := hkept.trans harrived
  refine ⟨hnamed, ?_, hleft, hsent, ?_, hrest, hexpired⟩
  · rw [hnamed]
    exact hh.numbers.sublist List.filter_sublist
  · rw [hgone, List.nil_append] at hlost
    exact hlost

/-- Seven packets; the peer names the newest and two below it, and the rest is three behind or
not. -/
theorem detection_exact_seven : ∃ h, system.Reachable h ∧
    (h.detector.acknowledged ⟨6, 0, 0b1010⟩ 50).arrived.map (·.number) = [2, 4, 6] ∧
    (h.detector.acknowledged ⟨6, 0, 0b1010⟩ 50).gone.map (·.number) = [0, 1, 3] ∧
    (h.detector.acknowledged ⟨6, 0, 0b1010⟩ 50).sent.map (·.number) = [5] := by
  obtain ⟨h, hreach, hcovered, hgone, hleft⟩ : ∃ h, system.Reachable h ∧
      (h.detector.sent.filter fun packet => (⟨6, 0, 0b1010⟩ : Ack).covers packet.number).map (·.number) = [2, 4, 6] ∧
      ((h.detector.answeredBy ⟨6, 0, 0b1010⟩ 50).sent.filter fun packet =>
        (h.detector.answeredBy ⟨6, 0, 0b1010⟩ 50).lost 50 packet ||
          (h.detector.answeredBy ⟨6, 0, 0b1010⟩ 50).silent 50 packet).map (·.number) = [0, 1, 3] ∧
      ((h.detector.answeredBy ⟨6, 0, 0b1010⟩ 50).sent.filter fun packet =>
        !((h.detector.answeredBy ⟨6, 0, 0b1010⟩ 50).lost 50 packet ||
          (h.detector.answeredBy ⟨6, 0, 0b1010⟩ 50).silent 50 packet)).map (·.number) = [5] :=
    System.Reachable.of_run fresh ((List.range 7).map fun i => .sealed ⟨i, 1200, 3 * i, .application⟩) rfl (by decide +kernel)
  obtain ⟨hnamed, -, -, hsent, hlost, -⟩ := detection_exact hreach ⟨6, 0, 0b1010⟩ 50
  refine ⟨h, hreach, ?_, ?_, ?_⟩
  · rw [hnamed, hcovered]
  · rw [hlost, List.map_map]
    exact hgone
  · rw [hsent, hleft]

end History

end Braid.Dgram
