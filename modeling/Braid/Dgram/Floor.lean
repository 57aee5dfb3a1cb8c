import Braid.Dgram.Detection
import Braid.Dgram.Width

/-! The window against the width of the path. A loss halves the window down to two datagrams
of the size known at the loss. A probe that was sent before can raise the size afterwards, so
the window stays as wide as a datagram when an answered probe finds it so, and nothing is
lost by the same acknowledgement that the new size would have kept. -/

namespace Braid.Dgram

open Foundation

namespace Congestion

variable {c : Congestion} {b : ℕ}

theorem grow_window (turns : ℕ) (h : b ≤ c.window) (hceiling : b ≤ c.ceiling) :
    b ≤ (grow turns c).window ∧ (grow turns c).datagram = c.datagram := by
  induction turns generalizing c with
  | zero => exact ⟨h, rfl⟩
  | succ turns ih =>
    rw [grow]
    split_ifs
    · exact ih (c := { c with credit := c.credit - c.window, window := min (c.window + c.datagram) c.ceiling })
        (le_min (h.trans (Nat.le_add_right _ _)) hceiling) hceiling
    · exact ⟨h, rfl⟩

theorem checkOvershoot_window (rtt : Rtt) :
    (c.checkOvershoot rtt).window = c.window ∧ (c.checkOvershoot rtt).datagram = c.datagram := by
  unfold checkOvershoot
  split
  · exact ⟨rfl, rfl⟩
  · dsimp only
    split_ifs <;> exact ⟨rfl, rfl⟩

theorem noteArrival_window (bytes sent : ℕ) (rtt : Rtt) :
    (c.noteArrival bytes sent rtt).window = c.window ∧ (c.noteArrival bytes sent rtt).datagram = c.datagram := by
  unfold noteArrival
  dsimp only
  split
  · exact checkOvershoot_window rtt
  · exact ⟨rfl, rfl⟩

theorem acknowledged_window (h : b ≤ c.window) (hceiling : b ≤ c.ceiling) (bytes sent : ℕ) (rtt : Rtt) (limited : Limited) :
    b ≤ (c.acknowledged bytes sent rtt limited).window ∧
      (c.acknowledged bytes sent rtt limited).datagram = c.datagram := by
  obtain ⟨hwindow, hdatagram⟩ := noteArrival_window (c := c) bytes sent rtt
  have hceiling' : (c.noteArrival bytes sent rtt).ceiling = c.ceiling := congrArg (· * maxDatagrams) hdatagram
  rw [← hwindow] at h
  rw [← hceiling'] at hceiling
  rw [acknowledged, ← hdatagram]
  generalize c.noteArrival bytes sent rtt = noted at h hceiling
  unfold openWindow
  split_ifs
  · exact ⟨h, rfl⟩
  · exact ⟨le_min (h.trans (Nat.le_add_right _ _)) hceiling, rfl⟩
  · exact grow_window (c := { noted with credit := noted.credit + bytes }) (noted.credit + bytes) h hceiling

theorem lost_window (h : b ≤ c.window) (hfloor : b ≤ 2 * c.datagram) (bytes sent now : ℕ) :
    b ≤ (c.lost bytes sent now).window ∧ (c.lost bytes sent now).datagram = c.datagram := by
  unfold lost
  dsimp only
  split_ifs
  · exact ⟨h, rfl⟩
  · have hminimum : b ≤ min (c.datagram * minDatagrams) c.window := by
      refine le_min ?_ h
      rwa [minDatagrams, Nat.mul_comm]
    exact ⟨hminimum.trans (le_max_right _ _), rfl⟩

theorem spurious_window (h : b ≤ c.window) (hceiling : b ≤ c.ceiling) :
    b ≤ c.spurious.window ∧ c.spurious.datagram = c.datagram := by
  unfold spurious
  split
  · exact ⟨h, rfl⟩
  · exact ⟨le_min (h.trans (le_max_left _ _)) hceiling, rfl⟩

end Congestion

namespace Mtu

variable {m m' : Mtu} {call : Trial}

def pending (m : Mtu) : Option (ℕ × ℕ) :=
  match m.search with
  | .asking candidate (some number) _ _ => some (number, candidate)
  | _ => none

/-- No size is below the base. -/
structure Fit (m : Mtu) : Prop where
  base : baseDatagram ≤ m.plpmtu
  asking : ∀ candidate outstanding lost due, m.search = .asking candidate outstanding lost due → baseDatagram ≤ candidate

theorem Begun.pending (h : m.Begun) : m.pending = none := by
  unfold Mtu.pending
  obtain hsettled | ⟨_, -, -, hasking⟩ := h
  · rw [hsettled]
  · rw [hasking]

theorem Fit.steps (h : m.Fit) (hs : m.Steps call m') : m'.Fit := by
  have hbegun : m'.Begun → baseDatagram ≤ m'.plpmtu → m'.Fit := by
    intro hbegun hbase
    refine ⟨hbase, fun candidate outstanding lost due heq => ?_⟩
    obtain hsettled | ⟨_, -, hlt, hasking⟩ := hbegun
    · cases hsettled.symm.trans heq
    · obtain ⟨rfl, -⟩ := Search.asking.inj (hasking.symm.trans heq)
      exact hbase.trans hlt.le
  have hquiet : (∀ candidate outstanding lost due, m'.search ≠ .asking candidate outstanding lost due) →
      baseDatagram ≤ m'.plpmtu → m'.Fit := fun hnot hbase =>
    ⟨hbase, fun candidate outstanding lost due heq => absurd heq (hnot candidate outstanding lost due)⟩
  cases hs.shift with
  | still hwidth hsame => exact ⟨hwidth ▸ h.base, fun _ _ _ _ heq => h.asking _ _ _ _ (hsame.symm.trans heq)⟩
  | begun _ hwidth hb => exact hbegun hb (hwidth ▸ h.base)
  | found hasking hwidth hb => exact hbegun hb (hwidth ▸ le_min (h.asking _ _ _ _ hasking) (by decide))
  | again hasking hwidth hsame =>
    refine ⟨hwidth ▸ h.base, fun candidate _ _ _ heq => ?_⟩
    obtain ⟨rfl, -⟩ := Search.asking.inj (hsame.symm.trans heq)
    exact h.asking _ _ _ _ hasking
  | cooled _ hwidth hsame | doubted _ hwidth hsame | offered _ hwidth hsame | counted _ _ hwidth hsame =>
    exact hquiet (by rw [hsame]; nofun) (hwidth ▸ h.base)
  | narrowed _ _ _ hwidth hsame => exact hquiet (by rw [hsame]; nofun) hwidth.ge
  | refused _ hwidth hsame => exact hquiet (by rw [hsame]; nofun) (hwidth ▸ le_max_left _ _)
  | migrated heq =>
    rw [heq]
    exact ⟨le_rfl, by cases m.fragmentation <;> nofun⟩

theorem acknowledged_spec (h : m.Fit) (number bytes : ℕ) : (m.acknowledged number bytes).Fit ∧
    ((m.acknowledged number bytes).pending = m.pending ∨ (m.acknowledged number bytes).pending = none) ∧
    ((m.acknowledged number bytes).plpmtu = m.plpmtu ∨ ∃ candidate, m.pending = some (number, candidate) ∧
      (m.acknowledged number bytes).plpmtu = min candidate maxDatagram ∧ (m.acknowledged number bytes).pending = none) := by
  have hsteps := m.steps_acknowledged number bytes
  refine ⟨h.steps hsteps, ?_⟩
  cases hsteps.shift with
  | still hwidth hsame => exact ⟨.inl (by rw [pending, hsame, ← pending]), .inl hwidth⟩
  | begun _ hwidth hb => exact ⟨.inr hb.pending, .inl hwidth⟩
  | cooled _ hwidth hsame | doubted _ hwidth hsame => exact ⟨.inr (by rw [pending, hsame]), .inl hwidth⟩
  | found hasking hwidth hb =>
    exact ⟨.inr hb.pending, .inr ⟨_, by rw [pending, hasking], hwidth, hb.pending⟩⟩

/-- What is gone, and what the kernel refuses, raises no size. -/
theorem Steps.width_le (h : m.Fit) (hs : m.Steps call m') (hcall : call.arrival = none) : m'.plpmtu ≤ m.plpmtu := by
  cases hs.shift with
  | still hwidth | begun _ hwidth | again _ hwidth | cooled _ hwidth | doubted _ hwidth | offered _ hwidth
  | counted _ _ hwidth => exact hwidth.le
  | found => cases hcall
  | narrowed _ _ _ hwidth => exact hwidth.le.trans h.base
  | refused hlt hwidth => exact hwidth.le.trans hlt.le
  | migrated heq => exact heq ▸ h.base

theorem proven_spec (h : m.Fit) : m.proven.Fit ∧ m.proven.plpmtu = m.plpmtu := by
  have hsteps := m.steps_proven
  refine ⟨h.steps hsteps, ?_⟩
  cases hsteps.shift with
  | still hwidth | begun _ hwidth | cooled _ hwidth | doubted _ hwidth => exact hwidth

theorem fit_new (fragmentation : Fragmentation) : (new fragmentation).Fit := by
  cases fragmentation with
  | refused => exact ⟨le_rfl, nofun⟩
  | permitted => exact ⟨le_rfl, nofun⟩

theorem poll_spec (h : m.Fit) (now : ℕ) : (m.poll now).1.Fit ∧ (m.poll now).1.plpmtu = m.plpmtu := by
  have hsteps := m.steps_poll now
  refine ⟨h.steps hsteps, ?_⟩
  cases hsteps.shift with
  | still hwidth | begun _ hwidth | cooled _ hwidth | doubted _ hwidth | offered _ hwidth => exact hwidth

theorem probing_spec (h : m.Fit) (number : ℕ) : (m.probing number).Fit ∧ (m.probing number).plpmtu = m.plpmtu := by
  unfold probing
  split
  · rename_i candidate outstanding lost due hsearch
    refine ⟨⟨h.base, fun candidate' outstanding' lost' due' heq => ?_⟩, rfl⟩
    obtain ⟨rfl, -⟩ := Search.asking.inj heq
    exact h.asking _ _ _ _ hsearch
  · exact ⟨⟨h.base, nofun⟩, rfl⟩
  · exact ⟨h, rfl⟩

end Mtu

/-! ### What an acknowledgement loses -/

namespace LossDetector

variable {d : LossDetector} {ack : Ack}

/-- The flight ascends by number, and stays below the number that comes next. -/
structure Ascends (d : LossDetector) (next : ℕ) : Prop where
  numbers : d.sent.Pairwise (·.number < ·.number)
  below : ∀ q ∈ d.sent, q.number < next

theorem Ascends.sublist {d' : LossDetector} {next : ℕ} (h : d.Ascends next) (hsub : d'.sent.Sublist d.sent) :
    d'.Ascends next :=
  ⟨h.numbers.sublist hsub, fun q hq => h.below q (hsub.subset hq)⟩

theorem Ascends.sealed {next : ℕ} (h : d.Ascends next) (bytes now : ℕ) (limited : Limited) :
    (d.sealed ⟨next, bytes, now, limited⟩).Ascends (next + 1) := by
  have hnumbers : (d.sent ++ [(⟨next, bytes, now, limited⟩ : InFlight)]).Pairwise (·.number < ·.number) := by
    refine List.pairwise_append.mpr ⟨h.numbers, List.pairwise_singleton _ _, fun q hq p hp => ?_⟩
    obtain rfl := List.mem_singleton.mp hp
    exact h.below q hq
  obtain ⟨hsub, -⟩ := shed_sublist (d.sent ++ [⟨next, bytes, now, limited⟩]) d.clear
  refine ⟨hnumbers.sublist hsub, fun q hq => ?_⟩
  obtain hq | hq := List.mem_append.mp (hsub.subset hq)
  · exact (h.below q hq).trans (Nat.lt_succ_self next)
  · obtain rfl := List.mem_singleton.mp hq
    exact Nat.lt_succ_self next

/-- Nothing is lost of a flight that nothing later was acknowledged of. -/
theorem detect_keeps {largest : ℕ} (hlargest : d.largestAcked = some largest) (hflight : ∀ q ∈ d.sent, largest ≤ q.number)
    (hgone : ∀ g ∈ d.gone, g.cause ≠ .lost) (now : ℕ) : ∀ g ∈ (d.detect now).gone, g.cause ≠ .lost := by
  have hkept : ∀ q ∈ d.sent, d.lost now q = false := by
    intro q hq
    have hle := hflight q hq
    have hthreshold : 0 < packetThreshold := by decide
    simp only [lost, hlargest, Option.any_some, Bool.or_eq_false_iff, Bool.and_eq_false_iff, decide_eq_false_iff_not]
    omega
  intro g hg
  rw [(detect_walk d now).2.1] at hg
  obtain hg | hg := List.mem_append.mp hg
  · exact hgone g hg
  · obtain ⟨q, hq, rfl⟩ := List.mem_map.mp hg
    have hnot := hkept q ((List.takeWhile_sublist _).mem hq)
    simp [written, hnot]

/-- An acknowledgement takes what it names out of the flight, and reports nothing lost if it
names all that was in flight below the largest acknowledged. -/
theorem acknowledged_spec {next : ℕ} (h : d.Ascends next) (ack : Ack) (now : ℕ) :
    (d.acknowledged ack now).Ascends next ∧ (∀ q ∈ (d.acknowledged ack now).arrived, ack.covers q.number = true) ∧
    ((∀ q ∈ d.sent, q.number < max (d.largestAcked.getD 0) ack.largest → ack.covers q.number = true) →
      ∀ g ∈ (d.acknowledged ack now).gone, g.cause ≠ .lost) := by
  obtain ⟨hsent, harrived, hgone⟩ := answeredBy_exact h.numbers ack now
  have hlargest : (d.answeredBy ack now).largestAcked = some (max (d.largestAcked.getD 0) ack.largest) := by
    refine ((((d.heard ack.largest).takeNamed ack).countSpurious ack).measured_flight ack now).2.2.2.trans ?_
    change some ((d.largestAcked.map _).getD ack.largest) = _
    cases d.largestAcked with
    | none => rw [Option.map_none, Option.getD_none, Option.getD_none, Nat.zero_max]
    | some seen => rfl
  refine ⟨h.sublist (acknowledged_sublist h.numbers ack now), fun q hq => ?_, fun hnamed => ?_⟩
  · rw [show (d.acknowledged ack now).arrived = _ from (detect_walk _ now).2.2.trans harrived] at hq
    exact (List.mem_filter.mp hq).2
  · refine detect_keeps hlargest (fun q hq => ?_) (by rw [hgone]; rintro g ⟨⟩) now
    rw [hsent] at hq
    obtain ⟨hmem, hnot⟩ := List.mem_filter.mp hq
    by_contra hlt
    rw [hnamed q hmem (not_le.mp hlt)] at hnot
    cases hnot

end LossDetector

/-! ### What is absorbed -/

namespace Carrier

variable {Addr : Type*} {r : Carrier Addr}

/-- What arrivals do to the width: nothing, or the probe that was out is among them. -/
structure Widened (m₀ : Mtu) (arrived : List InFlight) (m : Mtu) : Prop where
  fit : m.Fit
  pending : m.pending = m₀.pending ∨ m.pending = none
  width : m.plpmtu = m₀.plpmtu ∨ m.pending = none ∧ ∃ p ∈ arrived, ∃ candidate,
    m₀.pending = some (p.number, candidate) ∧ m.plpmtu = min candidate maxDatagram

theorem Widened.arrived {m₀ m : Mtu} {arrived : List InFlight} (h : Widened m₀ arrived m) (p : InFlight) :
    Widened m₀ (arrived ++ [p]) (m.acknowledged p.number p.bytes) := by
  obtain ⟨hfit, hpending, hwidth⟩ := Mtu.acknowledged_spec h.fit p.number p.bytes
  have hnone : (m.acknowledged p.number p.bytes).pending = m₀.pending ∨ (m.acknowledged p.number p.bytes).pending = none := by
    obtain hpending | hpending := hpending
    · rw [hpending]
      exact h.pending
    · exact .inr hpending
  refine ⟨hfit, hnone, ?_⟩
  obtain hwidth | ⟨candidate, hout, hwidth, hdone⟩ := hwidth
  · rw [hwidth]
    refine h.width.imp_right fun ⟨hdone, q, hq, candidate, hcandidate⟩ => ⟨?_, q, List.mem_append_left _ hq, candidate, hcandidate⟩
    obtain hpending | hpending := hpending
    · rw [hpending, hdone]
    · exact hpending
  · obtain hsame | hdone' := h.pending
    · exact .inr ⟨hdone, p, List.mem_append_right _ List.mem_cons_self, candidate, hsame ▸ hout, hwidth⟩
    · rw [hdone'] at hout
      cases hout

theorem foldl_absorbArrived_mtu {m₀ : Mtu} {before : List InFlight} (h : Widened m₀ before r.mtu) (arrived : List InFlight) :
    Widened m₀ (before ++ arrived) (arrived.foldl absorbArrived r).mtu := by
  induction arrived generalizing r before with
  | nil => rwa [List.append_nil]
  | cons p arrived ih =>
    rw [List.append_cons]
    exact ih (r := r.absorbArrived p) (h.arrived p)

theorem foldl_absorbArrived_window {b : ℕ} (h : b ≤ r.congestion.window) (hceiling : b ≤ r.congestion.ceiling)
    (arrived : List InFlight) : b ≤ (arrived.foldl absorbArrived r).congestion.window ∧
      (arrived.foldl absorbArrived r).congestion.datagram = r.congestion.datagram := by
  induction arrived generalizing r with
  | nil => exact ⟨h, rfl⟩
  | cons p arrived ih =>
    obtain ⟨hwindow, hdatagram⟩ := Congestion.acknowledged_window h hceiling p.bytes p.sent r.loss.rtt p.limited
    have hceiling' : (r.absorbArrived p).congestion.ceiling = r.congestion.ceiling := congrArg (· * maxDatagrams) hdatagram
    obtain ⟨hwindow', hdatagram'⟩ := ih (r := r.absorbArrived p) hwindow (by rw [hceiling']; exact hceiling)
    exact ⟨hwindow', hdatagram'.trans hdatagram⟩

theorem absorbGone_mtu (now : ℕ) (g : Gone) : (absorbGone now r g).mtu = r.mtu.report g.cause g.number g.bytes now := by
  unfold absorbGone
  cases g.cause <;> rfl

theorem absorbGone_floor {b : ℕ} {g : Gone} (h : b ≤ r.congestion.window)
    (hfloor : b ≤ 2 * r.congestion.datagram ∨ g.cause ≠ .lost) (hfit : r.mtu.Fit) (hwidth : r.mtu.plpmtu ≤ b) (now : ℕ) :
    b ≤ (absorbGone now r g).congestion.window ∧
      (absorbGone now r g).congestion.datagram = r.congestion.datagram ∧ (absorbGone now r g).mtu.Fit ∧
      (absorbGone now r g).mtu.plpmtu ≤ b := by
  have hsteps := r.mtu.steps_report g.cause g.number g.bytes now
  rw [absorbGone_mtu, ← and_assoc]
  refine ⟨?_, hfit.steps hsteps, (hsteps.width_le hfit rfl).trans hwidth⟩
  unfold absorbGone
  split
  · rename_i hlost
    exact Congestion.lost_window h (hfloor.resolve_right (not_not_intro hlost)) g.bytes g.sent now
  · exact ⟨h, rfl⟩
  · exact ⟨h, rfl⟩

theorem foldl_absorbGone_floor {b : ℕ} (h : b ≤ r.congestion.window) (hfit : r.mtu.Fit) (hwidth : r.mtu.plpmtu ≤ b)
    (gone : List Gone) (hfloor : b ≤ 2 * r.congestion.datagram ∨ ∀ g ∈ gone, g.cause ≠ .lost) (now : ℕ) :
    b ≤ (gone.foldl (absorbGone now) r).congestion.window ∧ (gone.foldl (absorbGone now) r).mtu.Fit ∧
      (gone.foldl (absorbGone now) r).mtu.plpmtu ≤ b := by
  induction gone generalizing r with
  | nil => exact ⟨h, hfit, hwidth⟩
  | cons g gone ih =>
    obtain ⟨hwindow, hdatagram, hfit', hwidth'⟩ :=
      absorbGone_floor h (hfloor.imp_right fun hall => hall g List.mem_cons_self) hfit hwidth now
    refine ih hwindow hfit' hwidth' ?_
    rw [hdatagram]
    exact hfloor.imp_right fun hall q hq => hall q (List.mem_cons_of_mem _ hq)

/-- The window is as wide as a datagram, and denominated in it. -/
structure Floored (r : Carrier Addr) : Prop where
  datagram : r.congestion.datagram = r.mtu.plpmtu
  fit : r.mtu.Fit
  window : r.mtu.plpmtu ≤ r.congestion.window

theorem revive_floor {b : ℕ} (h : b ≤ r.congestion.window) (hceiling : b ≤ r.congestion.ceiling) :
    b ≤ r.revive.congestion.window ∧ r.revive.congestion.datagram = r.congestion.datagram ∧ r.revive.mtu = r.mtu := by
  unfold revive
  split_ifs
  · obtain ⟨hwindow, hdatagram⟩ := Congestion.spurious_window h hceiling
    exact ⟨hwindow, hdatagram, rfl⟩
  · exact ⟨h, rfl, rfl⟩

theorem settle_floor (hfit : r.mtu.Fit) (h : r.mtu.plpmtu ≤ r.congestion.window) (now : ℕ) : (r.settle now).Floored := by
  unfold settle
  dsimp only
  split_ifs
  · refine ⟨rfl, hfit, le_min ?_ h⟩
    exact Nat.le_mul_of_pos_right _ (by decide)
  · exact ⟨rfl, hfit, h⟩

/-- An answered probe must find the window as wide as what it asks for, and what is lost with
the answer must leave it so. -/
theorem Floored.absorb (h : r.Floored) (hanswer : ∀ p ∈ r.loss.arrived, ∀ candidate,
    r.mtu.pending = some (p.number, candidate) → candidate ≤ r.congestion.window ∧
      (candidate ≤ 2 * r.mtu.plpmtu ∨ ∀ g ∈ r.loss.gone, g.cause ≠ .lost)) (now : ℕ) : (r.absorb now).Floored := by
  have hmtu : r.revive.mtu = r.mtu := (revive_floor h.window (h.datagram ▸ Nat.le_mul_of_pos_right _ (by decide))).2.2
  have hstart : Widened r.mtu [] r.revive.mtu := ⟨hmtu ▸ h.fit, .inl (by rw [hmtu]), .inl (by rw [hmtu])⟩
  obtain ⟨hfit, -, hwidth⟩ := foldl_absorbArrived_mtu hstart r.loss.arrived
  -- the width the arrivals leave bounds the window through all that follows
  have hbound : (r.loss.arrived.foldl absorbArrived r.revive).mtu.plpmtu ≤ r.congestion.window ∧
      (r.loss.arrived.foldl absorbArrived r.revive).mtu.plpmtu ≤ r.congestion.ceiling ∧
      ((r.loss.arrived.foldl absorbArrived r.revive).mtu.plpmtu ≤ 2 * r.congestion.datagram ∨
        ∀ g ∈ r.loss.gone, g.cause ≠ .lost) := by
    rw [h.datagram, Congestion.ceiling, h.datagram]
    obtain hsame | ⟨-, p, hp, candidate, hpending, hwidth⟩ := hwidth
    · rw [hsame]
      exact ⟨h.window, Nat.le_mul_of_pos_right _ (by decide), .inl (Nat.le_mul_of_pos_left _ (by decide))⟩
    · obtain ⟨hcandidate, hlosses⟩ := hanswer p hp candidate hpending
      rw [hwidth]
      refine ⟨(min_le_left _ _).trans hcandidate, (min_le_right _ _).trans ?_, hlosses.imp_left (min_le_left _ _).trans⟩
      calc maxDatagram ≤ baseDatagram * maxDatagrams := by decide
        _ ≤ r.mtu.plpmtu * maxDatagrams := Nat.mul_le_mul_right _ h.fit.base
  obtain ⟨hwindow, hceiling, hlosses⟩ := hbound
  obtain ⟨hwindow₁, hdatagram₁, -⟩ := revive_floor hwindow hceiling
  have hceiling₁ : r.revive.congestion.ceiling = r.congestion.ceiling := congrArg (· * maxDatagrams) hdatagram₁
  rw [← hceiling₁] at hceiling
  obtain ⟨hwindow₂, hdatagram₂⟩ := foldl_absorbArrived_window hwindow₁ hceiling r.loss.arrived
  rw [← hdatagram₁, ← hdatagram₂] at hlosses
  obtain ⟨hwindow₃, hfit₃, hwidth₃⟩ := foldl_absorbGone_floor hwindow₂ hfit le_rfl r.loss.gone hlosses now
  exact settle_floor hfit₃ (hwidth₃.trans hwindow₃) now

/-- A packet in flight below the largest acknowledged that the acknowledgement does not name. -/
def passesOver (r : Carrier Addr) (ack : Ack) : Bool :=
  r.loss.sent.any fun packet =>
    decide (packet.number < max (r.loss.largestAcked.getD 0) ack.largest) && !ack.covers packet.number

/-- An acknowledgement that answers a search finds the window as wide as the size asked for;
and that is two datagrams at the most, or nothing is passed over. -/
def roomFor (r : Carrier Addr) (ack : Ack) : Bool :=
  r.mtu.pending.all fun (number, candidate) => !ack.covers number ||
    decide (candidate ≤ r.congestion.window) && (decide (candidate ≤ 2 * r.mtu.plpmtu) || !r.passesOver ack)

theorem named_of_not_passesOver {ack : Ack} (h : r.passesOver ack = false) :
    ∀ q ∈ r.loss.sent, q.number < max (r.loss.largestAcked.getD 0) ack.largest → ack.covers q.number = true := by
  intro q hq hlt
  have hnot := List.any_eq_false.mp h q hq
  simp only [Bool.and_eq_true, decide_eq_true_eq, Bool.not_eq_true', not_and, Bool.not_eq_false] at hnot
  exact hnot hlt

theorem Floored.acknowledged {next : ℕ} (h : r.Floored) (hascends : r.loss.Ascends next) {ack : Ack} (hroom : r.roomFor ack = true)
    (now : ℕ) : ({ r with loss := r.loss.acknowledged ack now }.absorb now).Floored := by
  obtain ⟨-, harrived, hkeeps⟩ := LossDetector.acknowledged_spec hascends ack now
  refine Floored.absorb (r := { r with loss := r.loss.acknowledged ack now }) { h with }
    (fun p hp candidate hpending => ?_) now
  have hanswered := harrived p hp
  have hpending' : r.mtu.pending = some (p.number, candidate) := hpending
  rw [roomFor, hpending'] at hroom
  simp only [Option.all_some, hanswered, Bool.not_true, Bool.false_or, Bool.and_eq_true, decide_eq_true_eq, Bool.or_eq_true,
    Bool.not_eq_true'] at hroom
  exact ⟨hroom.1, hroom.2.imp_right fun hnot => hkeeps (named_of_not_passesOver hnot)⟩

end Carrier

/-! ### Every run -/

variable {Secret Key Addr : Type*}

/-- What every deed keeps. -/
structure Kept (s : ℕ × Carrier Addr) : Prop where
  floored : s.2.Floored
  ascends : s.2.loss.Ascends s.1

theorem kept_new {r : Carrier Addr} {path : PathValidator Addr} {entropy : Entropy} {fragmentation : Fragmentation}
    (hr : r = .new path entropy fragmentation) : Kept (0, r) := by
  obtain rfl := hr
  have hwide : baseDatagram ≤ baseDatagram * initialDatagrams := by decide
  exact ⟨⟨rfl, Mtu.fit_new fragmentation, hwide⟩, .nil, nofun⟩

theorem kept_absorb {r : Carrier Addr} {n : ℕ} (h : r.Floored) (hascends : r.loss.Ascends n) (harrived : r.loss.arrived = [])
    (now : ℕ) : Kept (n, r.absorb now) := by
  refine ⟨h.absorb (fun p hp => ?_) now, ?_⟩
  · rw [harrived] at hp
    cases hp
  · rw [(Carrier.absorb_frame _ now).1]
    exact hascends

variable [DecidableEq Addr] {s s' : ℕ × Carrier Addr}

theorem Kept.deed {d : Deed Addr} (h : Kept s)
    (hroom : ∀ ack now, d = .acknowledged ack now → ack.largest < s.1 → s.2.roomFor ack = true)
    (hs : (carriage Addr).deed s d = some s') : Kept s' := by
  obtain ⟨n, r⟩ := s
  obtain ⟨hfloored, hascends⟩ := h
  cases d with
  | challenge now | arrived src size now | answered src token =>
    cases hs
    exact ⟨{ hfloored with }, hascends⟩
  | search now =>
    cases hs
    obtain ⟨hfit, hsame⟩ := Mtu.poll_spec hfloored.fit now
    exact ⟨⟨hfloored.datagram.trans hsame.symm, hfit, hsame.le.trans hfloored.window⟩, hascends⟩
  | probing number =>
    cases hs
    obtain ⟨hfit, hsame⟩ := Mtu.probing_spec hfloored.fit number
    exact ⟨⟨hfloored.datagram.trans hsame.symm, hfit, hsame.le.trans hfloored.window⟩, hascends⟩
  | refused carries now =>
    cases hs
    have hsteps := r.mtu.steps_refused carries now
    have hfit := hfloored.fit.steps hsteps
    have hle := hsteps.width_le hfloored.fit rfl
    exact ⟨⟨rfl, hfit, hle.trans hfloored.window⟩, hascends⟩
  | migrated =>
    cases hs
    have hwide : baseDatagram ≤ baseDatagram * initialDatagrams := by decide
    exact ⟨⟨rfl, Mtu.fit_new _, hwide⟩, hascends.numbers, hascends.below⟩
  | expire now =>
    cases hs
    have hsub := LossDetector.detect_sublist r.loss.clear now
    have harrived := (LossDetector.detect_walk r.loss.clear now).2.2
    exact kept_absorb (r := { r with loss := r.loss.expire now }) { hfloored with }
      (hascends.sublist hsub) harrived now
  | emit kind dest size now =>
    obtain ⟨-, -, rfl⟩ := Transport.of_emit hs
    split_ifs
    · obtain ⟨-, harrived⟩ :=
        LossDetector.shed_sublist (r.loss.sent ++ [⟨n, size, now, (r.congestion.sealed size now).2⟩]) r.loss.clear
      exact kept_absorb (r := { (carriage Addr).spent r dest size with
          congestion := (r.congestion.sealed size now).1
          loss := r.loss.sealed ⟨n, size, now, (r.congestion.sealed size now).2⟩ })
        { hfloored with } (hascends.sealed size now _) harrived now
    · exact ⟨{ hfloored with }, hascends.numbers,
        fun q hq => (hascends.below q hq).trans (Nat.lt_succ_self n)⟩
  | acknowledged ack now =>
    obtain rfl : (n, r.acknowledged ack n now) = s' := Option.some.inj hs
    unfold Carrier.acknowledged
    split_ifs with hknown
    · have hfloored' := hfloored.acknowledged hascends (hroom ack now rfl hknown) now
      obtain ⟨hfit, hsame⟩ := Mtu.proven_spec hfloored'.fit
      refine ⟨⟨hfloored'.datagram.trans hsame.symm, hfit, hsame.le.trans hfloored'.window⟩, ?_⟩
      rw [(Carrier.absorb_frame _ now).1]
      exact (LossDetector.acknowledged_spec hascends ack now).1
    · exact ⟨hfloored, hascends⟩

theorem Kept.speaks {deeds : List (Deed Addr)} (h : Kept s) (hspeaks : ∀ d ∈ deeds, d.speaks = true)
    (hrun : ((carriage Addr).system fun _ => True).run s deeds = some s') : Kept s' := by
  refine System.run_invariant hrun h fun d hd _ _ h hs => h.deed (fun ack now heq => ?_) hs
  have hspeaks' := hspeaks d hd
  rw [heq] at hspeaks'
  cases hspeaks'

theorem Kept.replies {deeds : List (Deed Addr)} {src : Addr} {now size : ℕ} {body : List UInt8}
    {kind : Kind} (h : Kept s) (hreplies : Endpoint.Replies src now body kind deeds)
    (hroom : ∀ ack, kind = .ack → Ack.decode body = some ack → ack.largest < s.1 → s.2.roomFor ack = true)
    (hrun : ((carriage Addr).system fun _ => True).run s (.arrived src size now :: deeds) = some s') : Kept s' := by
  obtain ⟨s₁, hs₁, hrun⟩ := Option.bind_eq_some_iff.mp hrun
  have hkept := h.deed (d := .arrived src size now) nofun hs₁
  cases hs₁
  cases hreplies with
  | nothing =>
    cases hrun
    exact hkept
  | answered => exact hkept.deed (d := .answered src body) nofun ((System.run_singleton _ _).symm.trans hrun)
  | migrated =>
    obtain ⟨s₂, hs₂, hrun⟩ := Option.bind_eq_some_iff.mp hrun
    have hkept₂ := hkept.deed (d := .answered src body) nofun hs₂
    exact hkept₂.deed (d := .migrated) nofun ((System.run_singleton _ _).symm.trans hrun)
  | @acknowledged ack hdecode =>
    refine hkept.deed (d := .acknowledged ack now) (fun ack' now' heq hknown => ?_) ((System.run_singleton _ _).symm.trans hrun)
    obtain ⟨rfl, -⟩ := Deed.acknowledged.inj heq
    exact hroom ack rfl hdecode hknown

namespace Endpoint

variable {cipher : Cipher Secret Key} {root : Secret} {cid : ConnectionId} {dialling listening : Side}
  {e : Endpoint Secret Key (Carrier Addr) Addr}

/-- The acknowledgement in a datagram, if it opens and holds one of numbers already used. -/
def ackIn (cipher : Cipher Secret Key) (root : Secret) (e : Endpoint Secret Key (Carrier Addr) Addr) (datagram : List UInt8) :
    Option Ack :=
  match cipher.openDatagram root e.keys.sending.opposite datagram with
  | some (header, body) => if header.kind = .ack then (Ack.decode body).filter (·.largest < e.next) else none
  | none => none

/-- Every acknowledgement that answers a search finds room for the answer. -/
def Roomy (cipher : Cipher Secret Key) (root : Secret) (e : Endpoint Secret Key (Carrier Addr) Addr) : Call Addr → Prop
  | .recv _ _ datagram => (ackIn cipher root e datagram).all e.transport.roomFor = true
  | _ => True

instance : (a : Call Addr) → Decidable (Roomy cipher root e a)
  | .recv .. => instDecidableEqBool _ _
  | .connect _ | .listen _ | .accept .. | .commit | .release | .send .. | .close _ | .rotate | .pollTransmit _
  | .pathRefused .. | .rekeyEvery _ => .isTrue trivial

omit [DecidableEq Addr] in
theorem roomFor_of_roomy {src : Addr} {now : ℕ} {datagram body : List UInt8} {header : Header} {ack : Ack}
    (h : Roomy cipher root e (.recv src now datagram))
    (hopen : cipher.openDatagram root e.keys.sending.opposite datagram = some (header, body)) (hkind : header.kind = .ack)
    (hdecode : Ack.decode body = some ack) (hknown : ack.largest < e.next) : e.transport.roomFor ack = true := by
  have hack : ackIn cipher root e datagram = some ack := by
    rw [ackIn, hopen]
    dsimp only
    rw [if_pos hkind, hdecode, Option.filter_some, if_pos (decide_eq_true hknown)]
  have hall : (ackIn cipher root e datagram).all e.transport.roomFor = true := h
  rwa [hack, Option.all_some] at hall

theorem kept_opened {role : Direction} (h : Opened (carried cipher root cid dialling listening) role e) : Kept e.standing := by
  cases h with
  | connect peer => exact kept_new rfl
  | listen peer => exact kept_new rfl
  | @accept src now datagram received _ haccept =>
    have hcoh : (new cipher cid root ((carried cipher root cid dialling listening).claimed src) .serverToClient :
        Endpoint Secret Key (Carrier Addr) Addr).keys.Coherent cipher root := KeySchedule.coherent_new _ _
    obtain ⟨hnone, -⟩ | ⟨header, body, deeds, -, -, hreplies, hrun⟩ := recv_deeds (recv_of_accept haccept) hcoh
    · cases hnone
    · exact Kept.replies (kept_new rfl) hreplies (fun ack _ _ hlt => absurd hlt (Nat.not_lt_zero _)) hrun

theorem kept_of_roomy (h : (system (carried cipher root cid dialling listening)).Via (Roomy cipher root) e) :
    e.keys.Coherent cipher root ∧ Kept e.standing := by
  refine System.Via.invariant (P := fun e => e.keys.Coherent cipher root ∧ Kept e.standing) h (fun e he => ?_)
    fun e a e' he hroomy hs => ?_
  · obtain ⟨role, hopened⟩ := he
    exact ⟨hopened.coherent.1, kept_opened hopened⟩
  · obtain ⟨hcoh, hkept⟩ := he
    obtain ⟨⟨e₁, out, took⟩, hcall, rfl⟩ := Option.map_eq_some_iff.mp hs
    refine ⟨(call_coherent hcoh hcall).1, ?_⟩
    obtain ⟨-, deeds, hrun, hspeaks, -⟩ | ⟨-, -, carries, now, hdeed⟩ |
      ⟨src, now, datagram, header, body, deeds, rfl, -, -, hopen, hreplies, hrun⟩ := call_deeds hcoh hcall
    · exact hkept.speaks hspeaks hrun
    · exact hkept.deed (d := .refused carries now) nofun hdeed
    · exact hkept.replies hreplies (fun ack hkind hdecode hknown => roomFor_of_roomy hroomy hopen hkind hdecode hknown) hrun

/-- As long as every answered search finds room for its answer, the window is as wide as a
datagram, and with nothing in flight it refuses no frame that fits one. -/
theorem window_admits_datagram (h : (system (carried cipher root cid dialling listening)).Via (Roomy cipher root) e) :
    e.transport.mtu.datagram ≤ e.transport.congestion.window ∧
    (e.transport.congestion.inFlight = 0 → ∀ frame now, frame ≤ e.payloadLimit (carriage Addr) →
      (e.transport.congestion.ready now (frame + headerBytes + tagBytes)).isSome = true) := by
  obtain ⟨-, hkept⟩ := kept_of_roomy h
  have hwindow : e.transport.mtu.plpmtu ≤ e.transport.congestion.window := hkept.floored.window
  refine ⟨hwindow, fun hempty frame now hframe => ?_⟩
  have hbase : baseDatagram ≤ e.transport.mtu.plpmtu := hkept.floored.fit.base
  have hroom : headerBytes + tagBytes ≤ baseDatagram := by decide
  have hlimit : frame ≤ e.transport.mtu.plpmtu - headerBytes - tagBytes := hframe
  rw [Congestion.ready, if_neg (by omega)]
  rfl

/-- The acknowledgement the listening side of `sample` sends as its datagram of that number. -/
def named (number largest map : ℕ) : List UInt8 :=
  sampled .serverToClient .ack number ((Ack.encode ⟨largest, 0, map⟩).getD [])

/-- A frame proves the path, and the search then finds that it carries 1500 bytes. -/
def widenRun : List (Call ℕ) :=
  [.send [1] 0, .recv 1 1000000 (named 0 0 0),
    .pollTransmit 2000000, .recv 1 3000000 (named 1 1 0),
    .pollTransmit 4000000, .recv 1 5000000 (named 2 2 0)]

theorem window_admits_datagram_widenRun : ∃ e, (system sample).Via (Roomy sample.cipher sample.root) e ∧
    e.transport.mtu.datagram = 1500 ∧ e.transport.congestion.inFlight = 0 ∧
    e.transport.mtu.datagram ≤ e.transport.congestion.window ∧
    (e.transport.congestion.ready 6000000 (1468 + headerBytes + tagBytes)).isSome = true := by
  obtain ⟨e, hvia, hwidth, hempty⟩ : ∃ e, (system sample).Via (Roomy sample.cipher sample.root) e ∧
      e.transport.mtu.datagram = 1500 ∧ e.transport.congestion.inFlight = 0 :=
    System.Via.of_run (new sample.cipher sample.cid sample.root (sample.dialled 1) .clientToServer) widenRun
      ⟨.clientToServer, .connect 1⟩ (by decide +kernel)
  obtain ⟨hwindow, hready⟩ := window_admits_datagram hvia
  have hlimit : 1468 ≤ e.payloadLimit (carriage ℕ) := by
    rw [payloadLimit, show (carriage ℕ).datagram e.transport = 1500 from hwidth]
    decide
  exact ⟨e, hvia, hwidth, hempty, hwindow, hready hempty 1468 6000000 hlimit⟩

/-- Two losses with a search for 4000 bytes in flight, which is then answered. -/
def narrowRun : List (Call ℕ) :=
  widenRun ++
    [.send [1] 6000000, .send [1] 6000000, .send [1] 6000000, .send [1] 6000000, .recv 1 7000000 (named 3 6 3),
      .send [1] 8000000, .pollTransmit 8000000, .send [1] 8000000, .send [1] 8000000,
      .recv 1 8500000 (named 4 10 1), .recv 1 8600000 (named 5 10 2)]

/-- With nothing in flight, no frame of the size the path carries is ever let through. -/
theorem window_refuses_datagram : ∃ e, (system sample).Reachable e ∧ e.transport.congestion.inFlight = 0 ∧
    e.transport.congestion.window = 3000 ∧ e.transport.mtu.datagram = 4000 ∧
    ∀ now, e.transport.congestion.ready now (e.payloadLimit (carriage ℕ) + headerBytes + tagBytes) = none := by
  obtain ⟨e, hreach, hempty, hwindow, hwidth⟩ : ∃ e, (system sample).Reachable e ∧ e.transport.congestion.inFlight = 0 ∧
      e.transport.congestion.window = 3000 ∧ e.transport.mtu.datagram = 4000 :=
    System.Reachable.of_run (new sample.cipher sample.cid sample.root (sample.dialled 1) .clientToServer) narrowRun
      ⟨.clientToServer, .connect 1⟩ (by decide +kernel)
  refine ⟨e, hreach, hempty, hwindow, hwidth, fun now => ?_⟩
  rw [payloadLimit, show (carriage ℕ).datagram e.transport = 4000 from hwidth, Congestion.ready, hempty, hwindow]
  exact if_pos (by decide)

end Endpoint

end Braid.Dgram
