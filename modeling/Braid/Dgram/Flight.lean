import Braid.Dgram.Carrier
import Braid.Dgram.Deeds
import Mathlib.Algebra.BigOperators.Group.List.Basic
import Mathlib.Data.List.Nodup
import Mathlib.Algebra.GroupWithZero.Nat

/-! The flight and the window that charges for it. Each call of the loss detector parts the
packets it is given into those it still holds and those it reports arrived or gone, and what
it reports is taken off the window once. So the bytes in flight are at all times those of the
packets held, and each packet that was tracked is held or has left for one reason. -/

namespace Braid.Dgram

open Foundation

def InFlight.entry (p : InFlight) : ℕ × ℕ := (p.number, p.bytes)

def Gone.entry (g : Gone) : ℕ × ℕ := (g.number, g.bytes)

/-- How a packet leaves the flight. -/
inductive Fate where
  | acknowledged
  | given (cause : Cause)
  deriving DecidableEq

namespace LossDetector

variable (d : LossDetector)

def held : List (ℕ × ℕ) := d.sent.map InFlight.entry

/-- Number and size of each packet the last call took off the flight. -/
def departed : List (ℕ × ℕ) := d.arrived.map InFlight.entry ++ d.gone.map Gone.entry

def fates : List (ℕ × Fate) :=
  d.arrived.map (fun p => (p.number, Fate.acknowledged)) ++ d.gone.map fun g => (g.number, Fate.given g.cause)

theorem map_fst_fates : d.fates.map Prod.fst = d.departed.map Prod.fst := by
  simp [fates, departed, Function.comp_def, InFlight.entry, Gone.entry]

theorem departed_clear : d.clear.departed = [] := rfl

theorem departed_retire (p : InFlight) (cause : Cause) :
    (d.retire p cause).departed = d.departed ++ [p.entry] := by
  simp [departed, retire, InFlight.entry, Gone.entry]

theorem shed_perm (flight : List InFlight) (d : LossDetector) :
    ((shed flight d).held ++ (shed flight d).departed).Perm (flight.map InFlight.entry ++ d.departed) := by
  induction flight generalizing d with
  | nil => exact .rfl
  | cons oldest rest ih =>
    rw [shed]
    split_ifs
    · refine (ih _).trans ?_
      rw [departed_retire, List.map_cons, ← List.append_assoc]
      exact List.perm_append_singleton _ _
    · exact .rfl

theorem giveUp_perm (now lossDelay probeTimeout : ℕ) (flight : List InFlight) (d : LossDetector) (abandoned : Bool) :
    ((giveUp now lossDelay probeTimeout flight d abandoned).1.held ++
      (giveUp now lossDelay probeTimeout flight d abandoned).1.departed).Perm
        (flight.map InFlight.entry ++ d.departed) := by
  induction flight generalizing d abandoned with
  | nil => exact .rfl
  | cons oldest rest ih =>
    rw [giveUp]
    split_ifs
    · refine (ih _ _).trans ?_
      rw [departed_retire, List.map_cons, ← List.append_assoc]
      exact List.perm_append_singleton _ _
    · refine (ih _ _).trans ?_
      rw [departed_retire, List.map_cons, ← List.append_assoc]
      exact List.perm_append_singleton _ _
    · exact .rfl

theorem detect_perm (now : ℕ) :
    ((d.detect now).held ++ (d.detect now).departed).Perm (d.held ++ d.departed) := by
  have hgive := giveUp_perm now d.rtt.lossDelay d.probeTimeout d.sent d false
  unfold detect
  dsimp only
  split_ifs
  · exact hgive
  · exact hgive

theorem takeCovered_perm (ack : Ack) (start index : ℕ) (sent : List InFlight) :
    ((takeCovered ack start index sent).1 ++ (takeCovered ack start index sent).2).Perm sent := by
  induction index generalizing sent with
  | zero => rw [takeCovered, List.append_nil]
  | succ index ih =>
    rw [takeCovered]
    split_ifs
    · rw [List.append_nil]
    · split
      · rw [List.append_nil]
      · rename_i packet hpacket
        split_ifs
        · dsimp only
          obtain ⟨hlt, hget⟩ := List.getElem?_eq_some_iff.mp hpacket
          rw [← List.append_assoc]
          refine (List.perm_append_singleton _ _).trans ?_
          refine ((ih _).cons packet).trans ?_
          rw [← hget]
          exact List.getElem_cons_eraseIdx_perm hlt
        · exact ih sent

theorem sealed_perm (p : InFlight) :
    ((d.sealed p).held ++ (d.sealed p).departed).Perm (d.held ++ [p.entry]) := by
  refine (shed_perm _ _).trans ?_
  rw [departed_clear, List.append_nil, List.map_append]
  exact .rfl

theorem expire_perm (now : ℕ) :
    ((d.expire now).held ++ (d.expire now).departed).Perm d.held := by
  refine (detect_perm _ _).trans ?_
  rw [departed_clear, List.append_nil]
  exact .rfl

theorem measured_flight (ack : Ack) (now : ℕ) :
    (d.measured ack now).sent = d.sent ∧ (d.measured ack now).arrived = d.arrived ∧ (d.measured ack now).gone = d.gone ∧
      (d.measured ack now).largestAcked = d.largestAcked := by
  unfold measured
  split <;> exact ⟨rfl, rfl, rfl, rfl⟩

theorem acknowledged_perm (ack : Ack) (now : ℕ) :
    ((d.acknowledged ack now).held ++ (d.acknowledged ack now).departed).Perm d.held := by
  have htake := (takeCovered_perm ack (d.sent.takeWhile fun packet => packet.number < ack.largest - 64).length
    (d.sent.takeWhile fun packet => packet.number ≤ ack.largest).length d.sent).map InFlight.entry
  rw [List.map_append] at htake
  obtain ⟨hsent, harrived, hgone, -⟩ := (((d.heard ack.largest).takeNamed ack).countSpurious ack).measured_flight ack now
  refine (detect_perm _ _).trans ?_
  rw [held, departed, hsent, harrived, hgone]
  refine List.Perm.trans ?_ htake
  rw [show ((((d.heard ack.largest).takeNamed ack).countSpurious ack).gone) = [] from rfl, List.map_nil, List.append_nil]
  exact .rfl

end LossDetector

namespace Congestion

variable (c : Congestion) (bytes sent now : ℕ)

theorem grow_inFlight (turns : ℕ) : (grow turns c).inFlight = c.inFlight := by
  induction turns generalizing c with
  | zero => rfl
  | succ turns ih =>
    rw [grow]
    split_ifs
    · rw [ih]
    · rfl

theorem checkOvershoot_inFlight (rtt : Rtt) : (c.checkOvershoot rtt).inFlight = c.inFlight := by
  unfold checkOvershoot
  split
  · rfl
  · dsimp only
    split_ifs <;> rfl

theorem noteArrival_inFlight (rtt : Rtt) : (c.noteArrival bytes sent rtt).inFlight = c.inFlight - bytes := by
  unfold noteArrival
  dsimp only
  split
  · rw [checkOvershoot_inFlight]
  · rfl

theorem openWindow_inFlight (limited : Limited) : (c.openWindow bytes limited).inFlight = c.inFlight := by
  unfold openWindow
  split_ifs
  · rfl
  · rfl
  · rw [grow_inFlight]

theorem acknowledged_inFlight (rtt : Rtt) (limited : Limited) :
    (c.acknowledged bytes sent rtt limited).inFlight = c.inFlight - bytes := by
  rw [acknowledged, openWindow_inFlight, noteArrival_inFlight]

theorem lost_inFlight : (c.lost bytes sent now).inFlight = c.inFlight - bytes := by
  unfold lost
  dsimp only
  split_ifs <;> rfl

theorem spurious_inFlight : c.spurious.inFlight = c.inFlight := by
  unfold spurious
  split <;> rfl

end Congestion

namespace Carrier

variable {Addr : Type*} (r : Carrier Addr) (now : ℕ)

theorem absorbArrived_frame (p : InFlight) : (r.absorbArrived p).loss = r.loss ∧ (r.absorbArrived p).path = r.path ∧
    (r.absorbArrived p).congestion.inFlight = r.congestion.inFlight - p.bytes :=
  ⟨rfl, rfl, Congestion.acknowledged_inFlight _ _ _ _ _⟩

theorem absorbGone_frame (g : Gone) : (absorbGone now r g).loss = r.loss ∧ (absorbGone now r g).path = r.path ∧
    (absorbGone now r g).congestion.inFlight = r.congestion.inFlight - g.bytes := by
  unfold absorbGone
  split
  · exact ⟨rfl, rfl, Congestion.lost_inFlight _ _ _ _⟩
  · exact ⟨rfl, rfl, rfl⟩
  · exact ⟨rfl, rfl, rfl⟩

theorem foldl_absorbArrived (arrived : List InFlight) :
    (arrived.foldl absorbArrived r).loss = r.loss ∧ (arrived.foldl absorbArrived r).path = r.path ∧
      (arrived.foldl absorbArrived r).congestion.inFlight = r.congestion.inFlight - (arrived.map InFlight.bytes).sum := by
  induction arrived generalizing r with
  | nil => exact ⟨rfl, rfl, rfl⟩
  | cons p arrived ih =>
    obtain ⟨hloss, hpath, hflight⟩ := r.absorbArrived_frame p
    obtain ⟨hloss', hpath', hflight'⟩ := ih (r.absorbArrived p)
    refine ⟨hloss'.trans hloss, hpath'.trans hpath, ?_⟩
    rw [List.foldl_cons, hflight', hflight, List.map_cons, List.sum_cons, Nat.sub_sub]

theorem foldl_absorbGone (gone : List Gone) :
    (gone.foldl (absorbGone now) r).loss = r.loss ∧ (gone.foldl (absorbGone now) r).path = r.path ∧
      (gone.foldl (absorbGone now) r).congestion.inFlight = r.congestion.inFlight - (gone.map Gone.bytes).sum := by
  induction gone generalizing r with
  | nil => exact ⟨rfl, rfl, rfl⟩
  | cons g gone ih =>
    obtain ⟨hloss, hpath, hflight⟩ := r.absorbGone_frame now g
    obtain ⟨hloss', hpath', hflight'⟩ := ih (absorbGone now r g)
    refine ⟨hloss'.trans hloss, hpath'.trans hpath, ?_⟩
    rw [List.foldl_cons, hflight', hflight, List.map_cons, List.sum_cons, Nat.sub_sub]

theorem revive_frame : r.revive.loss = r.loss ∧ r.revive.path = r.path ∧
    r.revive.congestion.inFlight = r.congestion.inFlight := by
  unfold revive
  split
  · exact ⟨rfl, rfl, Congestion.spurious_inFlight _⟩
  · exact ⟨rfl, rfl, rfl⟩

/-- What is taken off the window is in flight, at every turn of the two loops. -/
def Charges : Prop :=
  (∀ before p after, r.loss.arrived = before ++ p :: after →
    p.bytes ≤ (before.foldl absorbArrived r.revive).congestion.inFlight) ∧
  ∀ before g after, r.loss.gone = before ++ g :: after →
    g.bytes ≤ (before.foldl (absorbGone now) (r.loss.arrived.foldl absorbArrived r.revive)).congestion.inFlight

/-- The same for every call of the detector that may come next. -/
def Solvent (next : ℕ) (r : Carrier Addr) : Prop :=
  (∀ now, Charges { r with loss := r.loss.expire now } now) ∧
  (∀ ack now, Charges { r with loss := r.loss.acknowledged ack now } now) ∧
  ∀ bytes now, Charges { r with
    congestion := (r.congestion.sealed bytes now).1
    loss := r.loss.sealed ⟨next, bytes, now, (r.congestion.sealed bytes now).2⟩ } now

theorem settle_frame : (r.settle now).loss = r.loss ∧ (r.settle now).path = r.path ∧
    (r.settle now).congestion.inFlight = r.congestion.inFlight := by
  unfold settle
  dsimp only
  split <;> exact ⟨rfl, rfl, rfl⟩

theorem absorb_frame : (r.absorb now).loss = r.loss ∧ (r.absorb now).path = r.path ∧
    (r.absorb now).congestion.inFlight =
      r.congestion.inFlight - (r.loss.arrived.map InFlight.bytes).sum - (r.loss.gone.map Gone.bytes).sum := by
  obtain ⟨hloss, hpath, hflight⟩ := r.revive_frame
  obtain ⟨hloss₁, hpath₁, hflight₁⟩ := r.revive.foldl_absorbArrived r.loss.arrived
  obtain ⟨hloss₂, hpath₂, hflight₂⟩ := (r.loss.arrived.foldl absorbArrived r.revive).foldl_absorbGone now r.loss.gone
  obtain ⟨hloss₃, hpath₃, hflight₃⟩ :=
    (r.loss.gone.foldl (absorbGone now) (r.loss.arrived.foldl absorbArrived r.revive)).settle_frame now
  refine ⟨hloss₃.trans (hloss₂.trans (hloss₁.trans hloss)), hpath₃.trans (hpath₂.trans (hpath₁.trans hpath)), ?_⟩
  rw [absorb, hflight₃, hflight₂, hflight₁, hflight]

/-- What each piece of the loops keeps, they keep. -/
theorem absorb_keeps {P : Carrier Addr → Prop} (hrevive : P r.revive) (harrived : ∀ r p, P r → P (r.absorbArrived p))
    (hgone : ∀ r g, P r → P (absorbGone now r g)) (hsettle : ∀ r, P r → P (r.settle now)) : P (r.absorb now) := by
  have hfirst : ∀ (arrived : List InFlight) r, P r → P (arrived.foldl absorbArrived r) := by
    intro arrived
    induction arrived with
    | nil => exact fun r h => h
    | cons p arrived ih => exact fun r h => ih _ (harrived r p h)
  have hsecond : ∀ (gone : List Gone) r, P r → P (gone.foldl (absorbGone now) r) := by
    intro gone
    induction gone with
    | nil => exact fun r h => h
    | cons g gone ih => exact fun r h => ih _ (hgone r g h)
  exact hsettle _ (hsecond _ _ (hfirst _ _ hrevive))

theorem absorb_entropy : (r.absorb now).entropy = r.entropy := by
  refine absorb_keeps (P := fun r' => r'.entropy = r.entropy) r now ?_ (fun r' p h => h) (fun r' g h => ?_) fun r' h => ?_
  · unfold revive
    split <;> rfl
  · unfold absorbGone
    split <;> exact h
  · unfold settle
    dsimp only
    split <;> exact h

theorem sum_departed : (r.loss.departed.map Prod.snd).sum =
    (r.loss.arrived.map InFlight.bytes).sum + (r.loss.gone.map Gone.bytes).sum := by
  rw [LossDetector.departed, List.map_append, List.sum_append, List.map_map, List.map_map]
  rfl

variable {r now}

theorem absorb_inFlight (h : r.congestion.inFlight = ((r.loss.held ++ r.loss.departed).map Prod.snd).sum) :
    (r.absorb now).congestion.inFlight = ((r.absorb now).loss.held.map Prod.snd).sum := by
  obtain ⟨hloss, -, hflight⟩ := r.absorb_frame now
  rw [hflight, hloss, h, List.map_append, List.sum_append, sum_departed]
  omega

theorem charges_of (h : r.congestion.inFlight = ((r.loss.held ++ r.loss.departed).map Prod.snd).sum) :
    r.Charges now := by
  rw [List.map_append, List.sum_append, sum_departed] at h
  obtain ⟨-, -, hrevive⟩ := r.revive_frame
  refine ⟨fun before p after heq => ?_, fun before g after heq => ?_⟩
  · rw [(r.revive.foldl_absorbArrived before).2.2, hrevive, h, heq, List.map_append, List.map_cons, List.sum_append,
      List.sum_cons]
    omega
  · rw [((r.loss.arrived.foldl absorbArrived r.revive).foldl_absorbGone now before).2.2,
      (r.revive.foldl_absorbArrived r.loss.arrived).2.2, hrevive, h, heq, List.map_append, List.map_cons, List.sum_append,
      List.sum_cons]
    omega

end Carrier

/-! ### Every run -/

variable {Secret Key Addr : Type*}

/-- A transport with its history: the numbers that were tracked, and those that left with how. -/
structure Tally (Addr : Type*) where
  standing : ℕ × Carrier Addr
  tracked : List ℕ
  left : List (ℕ × Fate)

namespace Tally

def trackedBy (next : ℕ) : Deed Addr → List ℕ
  | .emit kind _ _ _ => if kind.tracked then [next] else []
  | _ => []

def detects (next : ℕ) : Deed Addr → Bool
  | .expire _ => true
  | .emit kind _ _ _ => kind.tracked
  | .acknowledged ack _ => ack.largest < next
  | _ => false

/-- The window charges for what is held; what was tracked is held or has left. -/
structure Balanced (g : Tally Addr) : Prop where
  inFlight : g.standing.2.congestion.inFlight = (g.standing.2.loss.held.map Prod.snd).sum
  parted : (g.standing.2.loss.held.map Prod.fst ++ g.left.map Prod.fst).Perm g.tracked
  below : ∀ n ∈ g.tracked, n < g.standing.1
  nodup : g.tracked.Nodup

variable {g g' : Tally Addr} {d : Deed Addr}

/-- A deed that calls the loss detector: it parts what is held, and the window follows. -/
theorem Balanced.absorb (h : g.Balanced) {r : Carrier Addr} {next : ℕ} (now : ℕ) {fresh : List (ℕ × ℕ)}
    (hfresh : fresh = [] ∧ next = g.standing.1 ∨ ∃ bytes, fresh = [(g.standing.1, bytes)] ∧ next = g.standing.1 + 1)
    (hparted : (r.loss.held ++ r.loss.departed).Perm (g.standing.2.loss.held ++ fresh))
    (hcharged : r.congestion.inFlight = g.standing.2.congestion.inFlight + (fresh.map Prod.snd).sum) :
    r.Charges now ∧ Balanced ⟨(next, r.absorb now), g.tracked ++ fresh.map Prod.fst, g.left ++ (r.absorb now).loss.fates⟩ := by
  have hsum : r.congestion.inFlight = ((r.loss.held ++ r.loss.departed).map Prod.snd).sum := by
    rw [hcharged, h.inFlight, (hparted.map Prod.snd).sum_eq, List.map_append, List.sum_append]
  have hnew : ∀ n ∈ fresh.map Prod.fst, n = g.standing.1 ∧ n < next := by
    obtain ⟨rfl, rfl⟩ | ⟨bytes, rfl, rfl⟩ := hfresh
    · exact nofun
    · intro n hn
      obtain rfl := List.mem_singleton.mp hn
      exact ⟨rfl, Nat.lt_succ_self _⟩
  have hle : g.standing.1 ≤ next := by
    obtain ⟨-, rfl⟩ | ⟨bytes, -, rfl⟩ := hfresh
    · exact le_rfl
    · exact Nat.le_succ _
  refine ⟨Carrier.charges_of hsum, Carrier.absorb_inFlight hsum, ?_, fun n hn => ?_, ?_⟩
  · obtain ⟨hloss, -⟩ := r.absorb_frame now
    rw [hloss, List.map_append, LossDetector.map_fst_fates]
    have hnumbers := hparted.map Prod.fst
    rw [List.map_append, List.map_append] at hnumbers
    -- What has just left changes places with what had left before, and so does what is new.
    have hbefore : (r.loss.held.map Prod.fst ++ (g.left.map Prod.fst ++ r.loss.departed.map Prod.fst)).Perm
        (r.loss.held.map Prod.fst ++ r.loss.departed.map Prod.fst ++ g.left.map Prod.fst) := by
      rw [List.append_assoc]
      exact List.perm_append_comm.append_left _
    have hafter : (g.standing.2.loss.held.map Prod.fst ++ fresh.map Prod.fst ++ g.left.map Prod.fst).Perm
        (g.standing.2.loss.held.map Prod.fst ++ g.left.map Prod.fst ++ fresh.map Prod.fst) := by
      rw [List.append_assoc, List.append_assoc]
      exact List.perm_append_comm.append_left _
    exact hbefore.trans ((hnumbers.append_right _).trans (hafter.trans (h.parted.append_right _)))
  · obtain hn | hn := List.mem_append.mp hn
    · exact (h.below n hn).trans_le hle
    · exact (hnew n hn).2
  · refine List.nodup_append.mpr ⟨h.nodup, ?_, fun a ha b hb heq => ?_⟩
    · obtain ⟨rfl, -⟩ | ⟨bytes, rfl, -⟩ := hfresh
      · exact .nil
      · exact List.nodup_singleton _
    · have hlt := h.below a ha
      rw [heq, (hnew b hb).1] at hlt
      exact lt_irrefl _ hlt

/-- Whatever calls the detector next, what it reports is in flight. -/
theorem Balanced.solvent (h : g.Balanced) : g.standing.2.Solvent g.standing.1 := by
  have hparted : ∀ {l : List (ℕ × ℕ)}, l.Perm g.standing.2.loss.held → l.Perm (g.standing.2.loss.held ++ []) := fun hl => by
    rwa [List.append_nil]
  refine ⟨fun now => ?_, fun ack now => ?_, fun bytes now => ?_⟩
  · exact (h.absorb now (r := { g.standing.2 with loss := g.standing.2.loss.expire now }) (.inl ⟨rfl, rfl⟩)
      (hparted (g.standing.2.loss.expire_perm now)) rfl).1
  · exact (h.absorb now (r := { g.standing.2 with loss := g.standing.2.loss.acknowledged ack now }) (.inl ⟨rfl, rfl⟩)
      (hparted (g.standing.2.loss.acknowledged_perm ack now)) rfl).1
  · exact (h.absorb now (.inr ⟨bytes, rfl, rfl⟩) (g.standing.2.loss.sealed_perm _) rfl).1

theorem Balanced.keep (h : g.Balanced) {next : ℕ} {r : Carrier Addr} (hnext : g.standing.1 ≤ next)
    (hsent : r.loss.sent = g.standing.2.loss.sent) (hflight : r.congestion.inFlight = g.standing.2.congestion.inFlight) :
    Balanced ⟨(next, r), g.tracked, g.left⟩ := by
  have hheld : r.loss.held = g.standing.2.loss.held := congrArg (List.map InFlight.entry) hsent
  refine ⟨?_, ?_, fun n hn => (h.below n hn).trans_le hnext, h.nodup⟩
  · dsimp only
    rw [hflight, hheld]
    exact h.inFlight
  · dsimp only
    rw [hheld]
    exact h.parted

theorem Balanced.quiet (h : g.Balanced) {s : ℕ × Carrier Addr} (htracked : trackedBy g.standing.1 d = [])
    (hdetects : detects g.standing.1 d = false) (hnext : g.standing.1 ≤ s.1) (hsent : s.2.loss.sent = g.standing.2.loss.sent)
    (hflight : s.2.congestion.inFlight = g.standing.2.congestion.inFlight) :
    Balanced ⟨s, g.tracked ++ trackedBy g.standing.1 d, g.left ++ if detects g.standing.1 d then s.2.loss.fates else []⟩ := by
  rw [htracked, hdetects, if_neg Bool.false_ne_true, List.append_nil, List.append_nil]
  exact h.keep hnext hsent hflight

theorem balanced_start {r : Carrier Addr} {path : PathValidator Addr} {entropy : Entropy} {fragmentation : Fragmentation}
    (hr : r = .new path entropy fragmentation) : Balanced ⟨(0, r), [], []⟩ := by
  obtain rfl := hr
  exact ⟨rfl, .nil, nofun, .nil⟩

variable [DecidableEq Addr]

def next (g : Tally Addr) (d : Deed Addr) : Option (Tally Addr) :=
  ((carriage Addr).deed g.standing d).map fun standing =>
    { standing
      tracked := g.tracked ++ trackedBy g.standing.1 d
      left := g.left ++ if detects g.standing.1 d then standing.2.loss.fates else [] }

def system (fresh : Carrier Addr → Prop) : System (Tally Addr) (Deed Addr) where
  init g := g.standing.1 = 0 ∧ fresh g.standing.2 ∧ g.tracked = [] ∧ g.left = []
  next := next

theorem Balanced.next (h : g.Balanced) (hs : g.next d = some g') : g'.Balanced := by
  obtain ⟨s, hdeed, rfl⟩ := Option.map_eq_some_iff.mp hs
  obtain ⟨⟨n, r⟩, tracked, left⟩ := g
  cases d with
  | challenge now | search now | probing number | arrived src size now | answered src token | migrated
  | refused carries now =>
    cases hdeed
    exact h.quiet rfl rfl le_rfl rfl rfl
  | expire now =>
    have hparted := r.loss.expire_perm now
    rw [← List.append_nil r.loss.held] at hparted
    cases hdeed
    exact (h.absorb now (r := { r with loss := r.loss.expire now }) (.inl ⟨rfl, rfl⟩) hparted rfl).2
  | emit kind dest size now =>
    obtain ⟨-, -, rfl⟩ := Transport.of_emit hdeed
    cases hkind : kind.tracked with
    | false =>
      refine h.quiet ?_ hkind (Nat.le_succ n) ?_ ?_
      · rw [trackedBy, hkind, if_neg Bool.false_ne_true]
      · rw [if_neg Bool.false_ne_true]
        rfl
      · rw [if_neg Bool.false_ne_true]
        rfl
    | true =>
      have hbalanced := (h.absorb now (r := { ((carriage Addr).spent r dest size) with
          congestion := (r.congestion.sealed size now).1
          loss := r.loss.sealed ⟨n, size, now, (r.congestion.sealed size now).2⟩ })
        (.inr ⟨size, rfl, rfl⟩) (r.loss.sealed_perm _) rfl).2
      rw [trackedBy, hkind, detects, hkind, if_pos rfl, if_pos rfl, if_pos rfl]
      exact hbalanced
  | acknowledged ack now =>
    obtain rfl : (n, r.acknowledged ack n now) = s := Option.some.inj hdeed
    rw [detects, Carrier.acknowledged]
    by_cases hknown : ack.largest < n
    · have hparted := r.loss.acknowledged_perm ack now
      rw [← List.append_nil r.loss.held] at hparted
      obtain ⟨-, hbalanced⟩ :=
        h.absorb now (r := { r with loss := r.loss.acknowledged ack now }) (.inl ⟨rfl, rfl⟩) hparted rfl
      rw [decide_eq_true hknown, if_pos rfl, if_pos hknown]
      -- the search then learns that the path is proven, which is no matter here
      exact { hbalanced with }
    · rw [decide_eq_false hknown, if_neg hknown, if_neg Bool.false_ne_true, List.append_nil]
      change Balanced ⟨(n, r), tracked ++ [], left⟩
      rw [List.append_nil]
      exact h

theorem exists_of_reachable {fresh : Carrier Addr → Prop} {s : ℕ × Carrier Addr}
    (h : ((carriage Addr).system fresh).Reachable s) : ∃ g, (system fresh).Reachable g ∧ g.standing = s := by
  refine System.Reachable.invariant (P := fun s => ∃ g, (system fresh).Reachable g ∧ g.standing = s) h
    (fun s hs => ⟨⟨s, [], []⟩, .init ⟨hs.1, hs.2, rfl, rfl⟩, rfl⟩) fun s d s' hg hs => ?_
  obtain ⟨g, hreach, rfl⟩ := hg
  exact ⟨_, hreach.step (Option.map_eq_some_iff.mpr ⟨s', hs, rfl⟩), rfl⟩

theorem balanced {fresh : Carrier Addr → Prop}
    (hfresh : ∀ r, fresh r → ∃ path entropy fragmentation, r = .new path entropy fragmentation)
    (h : (system fresh).Reachable g) : g.Balanced := by
  refine h.invariant (fun g hg => ?_) fun g d g' hg hs => hg.next hs
  obtain ⟨⟨n, r⟩, tracked, left⟩ := g
  obtain ⟨hzero, hr, htracked, hleft⟩ := hg
  obtain rfl : n = 0 := hzero
  obtain rfl : tracked = [] := htracked
  obtain rfl : left = [] := hleft
  obtain ⟨path, entropy, fragmentation, hnew⟩ := hfresh r hr
  exact balanced_start hnew

end Tally

namespace Endpoint

variable [DecidableEq Addr] {cipher : Cipher Secret Key} {root : Secret} {cid : ConnectionId} {dialling listening : Side}
  {e : Endpoint Secret Key (Carrier Addr) Addr}

/-- In every state an endpoint reaches the bytes in flight are those of the packets held; no deed
from there on takes off more than is in flight; and in every history that leads there every tracked
packet is held or has left once. -/
theorem flight_exact (h : (system (carried cipher root cid dialling listening)).Reachable e) :
    e.transport.congestion.inFlight = (e.transport.loss.sent.map InFlight.bytes).sum ∧
    (∀ deeds next r, ((carriage Addr).system fun _ => True).run e.standing deeds = some (next, r) → r.Solvent next) ∧
    (∃ g, (Tally.system (Unused (carried cipher root cid dialling listening))).Reachable g ∧ g.standing = e.standing) ∧
    ∀ g, (Tally.system (Unused (carried cipher root cid dialling listening))).Reachable g → g.standing = e.standing →
      g.tracked.Nodup ∧ (e.transport.loss.sent.map InFlight.number ++ g.left.map Prod.fst).Perm g.tracked := by
  obtain ⟨-, hreach⟩ := standing_reachable h
  have hfresh : ∀ r : Carrier Addr, Unused (carried cipher root cid dialling listening) r →
      ∃ path entropy fragmentation, r = .new path entropy fragmentation := by
    rintro r ⟨peer, rfl | rfl⟩
    · exact ⟨_, _, _, rfl⟩
    · exact ⟨_, _, _, rfl⟩
  refine ⟨?_, fun deeds next r hrun => ?_, Tally.exists_of_reachable hreach, fun g hg hstanding => ?_⟩
  · obtain ⟨g, hg, hstanding⟩ := Tally.exists_of_reachable hreach
    have hsum := (Tally.balanced hfresh hg).inFlight
    rw [hstanding, LossDetector.held, List.map_map] at hsum
    exact hsum
  · obtain ⟨g, hg, hstanding⟩ := Tally.exists_of_reachable (system_run hreach hrun)
    have hsolvent := (Tally.balanced hfresh hg).solvent
    rwa [hstanding] at hsolvent
  · have hbalanced := Tally.balanced hfresh hg
    have hparted := hbalanced.parted
    rw [hstanding, LossDetector.held, List.map_map] at hparted
    exact ⟨hbalanced.nodup, hparted⟩

/-- Two frames given up in silence, and a third sent after. -/
theorem flight_exact_silence : ∃ e, (system sample).Reachable e ∧ e.next = 3 ∧ e.transport.congestion.inFlight = 34 ∧
    e.transport.congestion.inFlight = (e.transport.loss.sent.map InFlight.bytes).sum := by
  obtain ⟨e, hreach, hnext, hflight⟩ : ∃ e, (system sample).Reachable e ∧ e.next = 3 ∧ e.transport.congestion.inFlight = 34 :=
    System.Reachable.of_run (new sample.cipher sample.cid sample.root (sample.dialled 1) .clientToServer)
      [.send [1, 2, 3] 0, .send [4] 1, .pollTransmit 2000000000, .send [5, 6] 2000000000] ⟨.clientToServer, .connect 1⟩
      (by decide +kernel)
  exact ⟨e, hreach, hnext, hflight, (flight_exact hreach).1⟩

end Endpoint

end Braid.Dgram
