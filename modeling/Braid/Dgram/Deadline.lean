import Braid.Dgram.Flight

/-! The instant a caller sleeps until, against what a poll leaves due. A poll that returns a
datagram is called again; one that returns nothing should leave every timer in the future.
The flight's timers always are, and so is the timer of a challenge that was polled. What a poll
could not send, or returned before asking about, stays due. -/

namespace Braid.Dgram

/-- Whatever instant is named, it is later. -/
def Later (now : ℕ) (instant : Option ℕ) : Prop := ∀ i ∈ instant, now < i

instance (now : ℕ) : (instant : Option ℕ) → Decidable (Later now instant)
  | none => .isTrue nofun
  | some i => decidable_of_iff (now < i) ⟨fun h _ hj => Option.some.inj hj ▸ h, fun h => h i rfl⟩

theorem later_none (now : ℕ) : Later now none := nofun

theorem later_some {now i : ℕ} : Later now (some i) ↔ now < i := ⟨fun h => h i rfl, fun h _ hj => Option.some.inj hj ▸ h⟩

theorem later_earliest {now : ℕ} {instants : List (Option ℕ)} :
    Later now (earliest instants) ↔ ∀ instant ∈ instants, Later now instant := by
  constructor
  · intro h instant hinstant i hi
    have hmem : i ∈ instants.filterMap id := List.mem_filterMap.mpr ⟨instant, hinstant, hi⟩
    cases hmin : (instants.filterMap id).min? with
    | none =>
      rw [List.min?_eq_none_iff.mp hmin] at hmem
      cases hmem
    | some least => exact (h least hmin).trans_le ((List.min?_eq_some_iff.mp hmin).2 i hmem)
  · intro h i hi
    obtain ⟨instant, hinstant, hmem⟩ := List.mem_filterMap.mp (List.min?_eq_some_iff.mp hi).1
    exact h instant hinstant i hmem

/-! ### The timers a poll always puts off -/

namespace LossDetector

theorem giveUp_front (now lossDelay timeout : ℕ) (flight : List InFlight) (d : LossDetector) (abandoned : Bool) :
    (giveUp now lossDelay timeout flight d abandoned).1.rtt = d.rtt ∧
    (giveUp now lossDelay timeout flight d abandoned).1.silence = d.silence ∧
    (giveUp now lossDelay timeout flight d abandoned).1.largestAcked = d.largestAcked ∧
    ∀ front ∈ (giveUp now lossDelay timeout flight d abandoned).1.sent.head?, now < front.sent + timeout ∧
      ((d.largestAcked.any fun largest => front.number < largest) = true → now < front.sent + lossDelay) := by
  induction flight generalizing d abandoned with
  | nil => exact ⟨rfl, rfl, rfl, nofun⟩
  | cons oldest rest ih =>
    rw [giveUp]
    split_ifs with hlost hsilent
    · exact ih (d.retire oldest .lost) abandoned
    · exact ih _ true
    · refine ⟨rfl, rfl, rfl, fun front hfront => ?_⟩
      cases hfront
      refine ⟨by omega, fun hover => ?_⟩
      simp only [Bool.or_eq_true, Bool.and_eq_true, decide_eq_true_eq, not_or, not_and] at hlost
      have hfresh := hlost.2 hover
      omega

theorem later_expire (d : LossDetector) (now : ℕ) : Later now (d.expire now).deadline := by
  obtain ⟨hrtt, hsilence, hlargest, hfront⟩ :=
    giveUp_front now d.clear.rtt.lossDelay d.clear.probeTimeout d.clear.sent d.clear false
  have hlater : ∀ d' : LossDetector, d'.rtt = d.clear.rtt → d.clear.silence ≤ d'.silence →
      d'.largestAcked = d.clear.largestAcked →
      (∀ front ∈ d'.sent.head?, now < front.sent + d.clear.probeTimeout ∧
        ((d.clear.largestAcked.any fun largest => front.number < largest) = true →
          now < front.sent + d.clear.rtt.lossDelay)) → Later now d'.deadline := by
    intro d' hrtt hsilence hlargest hfront i hi
    obtain ⟨front, hhead, rfl⟩ := Option.map_eq_some_iff.mp hi
    obtain ⟨htimeout, hdelay⟩ := hfront front hhead
    have hgrows : d.clear.probeTimeout ≤ d'.probeTimeout := by
      rw [probeTimeout, probeTimeout, hrtt]
      refine Nat.mul_le_mul_left _ (Nat.pow_le_pow_right (by decide) ?_)
      exact le_min ((min_le_left _ _).trans hsilence) (min_le_right _ _)
    have hlate : now < front.sent + d'.probeTimeout := htimeout.trans_le (Nat.add_le_add_left hgrows _)
    rw [hlargest, hrtt]
    split_ifs with hover
    · exact lt_min hlate (hdelay hover)
    · exact hlate
  unfold expire detect
  dsimp only
  split_ifs
  · exact hlater _ hrtt (hsilence.ge.trans (Nat.le_succ _)) hlargest hfront
  · exact hlater _ hrtt hsilence.ge hlargest hfront

end LossDetector

theorem Probe.later_challenge (p : Probe) (now : ℕ) (s : Entropy) : Later now (p.challenge now s).1.deadline := by
  have hspaced : ∀ q : Probe, q.due = some (now + probeInterval) → Later now q.deadline := fun q hdue => by
    rw [Probe.deadline, hdue]
    split_ifs
    · exact later_some.mpr (Nat.lt_add_of_pos_right (by decide))
    · exact later_none now
  unfold challenge
  split
  · rename_i hnone
    rw [hnone]
    exact later_none now
  · rename_i due hdue
    split_ifs with hearly
    · rw [hdue]
      exact later_some.mpr hearly
    · split
      · exact hspaced _ rfl
      · dsimp only
        split
        · exact hspaced _ rfl
        · exact hspaced _ rfl

namespace PathValidator

variable {Addr : Type*} (p : PathValidator Addr) (now : ℕ) (s : Entropy)

def candidateDeadline (p : PathValidator Addr) : Option ℕ := p.candidate.bind fun c => c.2.probe.deadline

def currentDeadline (p : PathValidator Addr) : Option ℕ :=
  match p.standing with
  | .proven => none
  | .claimed probe => probe.deadline

def asksCurrent (p : PathValidator Addr) (now : ℕ) (s : Entropy) : Bool :=
  match p.standing with
  | .proven => false
  | .claimed probe => (probe.challenge now s).2.2.isSome

theorem later_challengeDeadline {p : PathValidator Addr} {now : ℕ} :
    Later now p.challengeDeadline ↔ Later now p.currentDeadline ∧ Later now p.candidateDeadline := by
  rw [challengeDeadline, later_earliest]
  constructor
  · intro h
    exact ⟨h _ List.mem_cons_self, h _ (List.mem_cons_of_mem _ List.mem_cons_self)⟩
  · rintro ⟨hcurrent, hcandidate⟩ instant hinstant
    obtain rfl | hinstant := List.mem_cons.mp hinstant
    · exact hcurrent
    · obtain rfl := List.mem_singleton.mp hinstant
      exact hcandidate

theorem challengeCandidate_frame : (p.challengeCandidate now s).1.standing = p.standing ∧
    Later now (p.challengeCandidate now s).1.candidateDeadline := by
  unfold challengeCandidate
  split
  · rename_i hnone
    refine ⟨rfl, ?_⟩
    rw [candidateDeadline, hnone]
    exact later_none now
  · rename_i at_ candidate hcandidate
    have hlater : Later now (candidate.modify fun _ => (candidate.probe.challenge now s).1).probe.deadline := by
      have hprobe : (candidate.modify fun _ => (candidate.probe.challenge now s).1).probe =
          (candidate.probe.challenge now s).1 := by cases candidate <;> rfl
      rw [hprobe]
      exact candidate.probe.later_challenge now s
    dsimp only
    split
    · exact ⟨rfl, hlater⟩
    · split_ifs
      · exact ⟨rfl, later_none now⟩
      · exact ⟨rfl, hlater⟩

/-- A poll of the challenges leaves none due but the candidate's, when the address in use went first. -/
theorem later_pollChallenge : Later now (p.pollChallenge now s).1.challengeDeadline ↔
    (p.asksCurrent now s = true → Later now p.candidateDeadline) := by
  rw [later_challengeDeadline]
  unfold pollChallenge asksCurrent
  cases hstanding : p.standing with
  | proven =>
    obtain ⟨hsame, hlater⟩ := p.challengeCandidate_frame now s
    refine ⟨fun _ h => absurd h Bool.false_ne_true, fun _ => ⟨?_, hlater⟩⟩
    rw [currentDeadline, hsame, hstanding]
    exact later_none now
  | claimed probe =>
    have hcurrent := probe.later_challenge now s
    dsimp only
    cases htoken : (probe.challenge now s).2.2 with
    | some token => exact ⟨fun h _ => h.2, fun h => ⟨hcurrent, h rfl⟩⟩
    | none =>
      obtain ⟨hsame, hlater⟩ := challengeCandidate_frame { p with standing := .claimed (probe.challenge now s).1 } now
        (probe.challenge now s).2.1
      refine ⟨fun _ h => absurd h Bool.false_ne_true, fun _ => ⟨?_, hlater⟩⟩
      rw [currentDeadline, hsame]
      exact hcurrent

theorem asksCurrent_of_nothing (h : (p.pollChallenge now s).2.2 = none) : p.asksCurrent now s = false := by
  unfold pollChallenge at h
  unfold asksCurrent
  split
  · rfl
  · rename_i probe hstanding
    rw [hstanding] at h
    dsimp only at h
    split at h
    · cases h
    · rename_i hnone
      rw [hnone]
      rfl

end PathValidator

namespace Mtu

variable (m : Mtu) (now : ℕ)

/-- A search that was refused or lost before is due again. -/
def overdue (m : Mtu) (now : ℕ) : Bool :=
  match m.search with
  | .asking _ none _ (some due) => due ≤ now
  | _ => false

theorem overdue_cooled : (m.cooled now).overdue now = m.overdue now := by
  unfold cooled
  split
  · rename_i until_ hcooling
    have hnot : m.overdue now = false := by rw [overdue, hcooling]
    split_ifs
    · rw [hnot, overdue, begin_]
      dsimp only
      cases (seek m.plpmtu m.next (candidates.drop m.next)).2 <;> rfl
    · rfl
  · rfl

theorem later_of_cooled (until_ : ℕ) (h : (m.cooled now).search = .cooling until_) : now < until_ := by
  unfold cooled at h
  split at h
  · rename_i hcooling
    split_ifs at h with hdue
    · rw [begin_] at h
      dsimp only at h
      cases hfound : (seek m.plpmtu m.next (candidates.drop m.next)).2 <;> rw [hfound] at h <;> cases h
    · obtain rfl := Search.cooling.inj (hcooling.symm.trans h)
      exact not_le.mp hdue
  · rename_i hnot
    exact absurd h (hnot until_)

/-- A poll leaves the search's timer due only if the search was due again. -/
theorem later_poll : Later now (m.poll now).1.deadline ↔ m.overdue now = false := by
  rw [← overdue_cooled]
  unfold poll overdue
  dsimp only
  have hcooled := m.later_of_cooled now
  generalize m.cooled now = m at hcooled
  cases hsearch : m.search with
  | unproven | settled =>
    rw [deadline, hsearch]
    exact ⟨fun _ => rfl, fun _ => later_none now⟩
  | cooling until_ =>
    rw [deadline, hsearch]
    exact ⟨fun _ => rfl, fun _ => later_some.mpr (hcooled until_ hsearch)⟩
  | asking candidate outstanding lost due =>
    cases outstanding with
    | some number =>
      rw [deadline, hsearch]
      exact ⟨fun _ => rfl, fun _ => later_none now⟩
    | none =>
      rw [deadline, hsearch]
      cases due with
      | none => exact ⟨fun _ => rfl, fun _ => later_none now⟩
      | some due => exact later_some.trans (by rw [decide_eq_false_iff_not, not_le])
  | confirming due outstanding lost =>
    cases outstanding with
    | some number =>
      rw [deadline, hsearch]
      exact ⟨fun _ => rfl, fun _ => later_none now⟩
    | none =>
      dsimp only
      split_ifs with hdue
      · exact ⟨fun _ => rfl, fun _ => later_some.mpr (Nat.lt_add_of_pos_right (by decide))⟩
      · rw [deadline, hsearch]
        exact ⟨fun _ => rfl, fun _ => later_some.mpr (not_le.mp hdue)⟩

end Mtu

/-! ### What a poll leaves due -/

namespace Endpoint

variable {Secret Key τ Addr : Type*}

theorem later_pollDeadline {e : Endpoint Secret Key (Carrier Addr) Addr} {now : ℕ} (hopen : e.closed = false) :
    Later now e.pollDeadline ↔ Later now e.transport.loss.deadline ∧ Later now e.owedDeadline ∧
      Later now e.transport.mtu.deadline ∧ Later now e.transport.path.challengeDeadline ∧ Later now e.keepaliveDeadline := by
  rw [pollDeadline, hopen, if_neg Bool.false_ne_true, later_earliest]
  simp only [List.mem_cons, List.not_mem_nil, or_false, forall_eq_or_imp, forall_eq]

variable {c : Cipher Secret Key} {t : Transport τ Addr} {e e' : Endpoint Secret Key τ Addr} {now : ℕ}

theorem keepalive_nothing (h : e.keepalive c t now = some (e', none)) (hopen : e.closed = false) :
    e'.transport = e.transport ∧ e'.debt = e.debt ∧ e'.closed = false ∧
      (Later now e'.keepaliveDeadline ↔ e.sealedSincePoll = true ∨ Later now e.keepaliveDeadline) := by
  have hpositive : 0 < keepaliveAfter := by decide
  unfold keepalive at h
  dsimp only at h
  split_ifs at h with hrole hsealed hearly
  · cases h
    have hserver : e.role ≠ .clientToServer := hrole.resolve_right (by rw [hopen]; exact Bool.false_ne_true)
    have hnone : Later now e.keepaliveDeadline := by
      rw [keepaliveDeadline, if_neg hserver]
      exact later_none now
    exact ⟨rfl, rfl, hopen, fun _ => .inr hnone, fun _ => hnone⟩
  · cases h
    refine ⟨rfl, rfl, hopen, fun _ => .inl hsealed, fun _ => ?_⟩
    rw [keepaliveDeadline]
    split_ifs
    · exact later_some.mpr (Nat.lt_add_of_pos_right (by decide))
    · exact later_none now
  · cases h
    have hclient : e.role = .clientToServer := not_not.mp fun hne => hrole (.inl hne)
    refine ⟨rfl, rfl, hopen, fun _ => .inr ?_, fun _ => ?_⟩
    · rw [keepaliveDeadline, if_pos hclient]
      cases hsince : e.quietSince with
      | none => exact later_none now
      | some since =>
        rw [hsince, Option.getD_some] at hearly
        have hlate : now < since + keepaliveAfter := by omega
        exact later_some.mpr hlate
    · rw [keepaliveDeadline, if_pos hclient]
      have hlate : now < e.quietSince.getD now + keepaliveAfter := by omega
      exact later_some.mpr hlate
  · obtain ⟨⟨e₁, sent⟩, hattempt, heq⟩ := Option.map_eq_some_iff.mp h
    cases heq
    have htimers := timers_attempt hattempt
    simp only [timers, Prod.mk.injEq] at htimers
    obtain ⟨htransport, hdebt, hclosed, hrole', hquiet, -⟩ := htimers
    have hclient : e.role = .clientToServer := not_not.mp fun hne => hrole (.inl hne)
    cases hsince : e.quietSince with
    | none =>
      rw [hsince, Option.getD_none, Nat.sub_self] at hearly
      exact absurd (by decide) hearly
    | some since =>
      rw [hsince, Option.getD_some] at hearly hquiet
      refine ⟨htransport, hdebt, hclosed.trans hopen, fun hlater => ?_, fun hlater => ?_⟩
      · change Later now e₁.keepaliveDeadline at hlater
        rw [keepaliveDeadline, hrole', if_pos hclient, hquiet, Option.map_some, later_some] at hlater
        omega
      · obtain hlater := hlater.resolve_left hsealed
        rw [keepaliveDeadline, if_pos hclient, hsince, Option.map_some, later_some] at hlater
        omega

end Endpoint

section

variable {Secret Key Addr : Type*} [DecidableEq Addr] {c : Cipher Secret Key} {e e' : Endpoint Secret Key (Carrier Addr) Addr}
  {now : ℕ}

namespace Endpoint

/-- Nothing that a poll may be unable to send, or may not get to, is due: no acknowledgement;
where a challenge ends the poll, no other challenge, no width search and no keep-alive; and
otherwise no width search over again and no keep-alive. -/
def Idle (e : Endpoint Secret Key (Carrier Addr) Addr) (now : ℕ) : Prop :=
  Later now e.owedDeadline ∧
  if (e.transport.path.pollChallenge now e.transport.entropy).2.2.isSome then
    (e.transport.path.asksCurrent now e.transport.entropy = true → Later now e.transport.path.candidateDeadline) ∧
      Later now (e.transport.expire now).mtu.deadline ∧ Later now e.keepaliveDeadline
  else (e.transport.expire now).mtu.overdue now = false ∧ (e.sealedSincePoll = true ∨ Later now e.keepaliveDeadline)

theorem later_challengeOrRest (h : e.challengeOrRest c (carriage Addr) now = some (e', none)) (hopen : e.closed = false)
    (hloss : Later now e.transport.loss.deadline) :
    Later now e'.pollDeadline ↔ Later now e.owedDeadline ∧
      if (e.transport.path.pollChallenge now e.transport.entropy).2.2.isSome then
        (e.transport.path.asksCurrent now e.transport.entropy = true → Later now e.transport.path.candidateDeadline) ∧
          Later now e.transport.mtu.deadline ∧ Later now e.keepaliveDeadline
      else e.transport.mtu.overdue now = false ∧ (e.sealedSincePoll = true ∨ Later now e.keepaliveDeadline) := by
  unfold challengeOrRest at h
  dsimp only at h
  have hchallenge := e.transport.path.later_pollChallenge now e.transport.entropy
  split at h
  · rename_i dest token hpolled
    have hsome : (e.transport.path.pollChallenge now e.transport.entropy).2.2.isSome = true := by
      have hpolled' : ((e.transport.path.pollChallenge now e.transport.entropy).2.2.map fun ask =>
        (ask.1, ask.2.bytes)) = some (dest, token) := hpolled
      rw [← Option.isSome_map, hpolled']
      rfl
    have htimers : e'.timers = { e with transport := (e.transport.pollChallenge now).1 }.timers := by
      split_ifs at h
      · cases h
        rfl
      · exact timers_attempt h
    simp only [timers, Prod.mk.injEq] at htimers
    obtain ⟨htransport, hdebt, hclosed, hrole, hquiet, -⟩ := htimers
    rw [if_pos hsome, later_pollDeadline (hclosed.trans hopen), htransport]
    have howed : e'.owedDeadline = e.owedDeadline := by rw [owedDeadline, owedDeadline, hdebt]
    have hkeepalive : e'.keepaliveDeadline = e.keepaliveDeadline := by rw [keepaliveDeadline, keepaliveDeadline, hrole, hquiet]
    rw [howed, hkeepalive]
    constructor
    · rintro ⟨-, howed, hmtu, hpath, hkeepalive⟩
      exact ⟨howed, hchallenge.mp hpath, hmtu, hkeepalive⟩
    · rintro ⟨howed, hpath, hmtu, hkeepalive⟩
      exact ⟨hloss, howed, hmtu, hchallenge.mpr hpath, hkeepalive⟩
  · rename_i hpolled
    have hnone : (e.transport.path.pollChallenge now e.transport.entropy).2.2 = none := Option.map_eq_none_iff.mp hpolled
    have hpath := hchallenge.mpr fun hasks =>
      absurd (e.transport.path.asksCurrent_of_nothing now _ hnone ▸ hasks) Bool.false_ne_true
    obtain ⟨⟨e₁, sent⟩, hprobe, h⟩ := Option.bind_eq_some_iff.mp h
    cases sent with
    | some sent => cases h
    | none =>
      have htimers := timers_probePathMtu hprobe
      simp only [timers, Prod.mk.injEq] at htimers
      obtain ⟨htransport, hdebt, hclosed, hrole, hquiet, hsealed⟩ := htimers
      obtain ⟨htransport', hdebt', hclosed', hkeepalive⟩ := keepalive_nothing h (hclosed.trans hopen)
      have howed : e'.owedDeadline = e.owedDeadline := by rw [owedDeadline, owedDeadline, hdebt', hdebt]
      have hkeepalive' : e₁.keepaliveDeadline = e.keepaliveDeadline := by
        rw [keepaliveDeadline, keepaliveDeadline, hrole, hquiet]
      have hmtu := e.transport.mtu.later_poll now
      rw [hkeepalive', hsealed] at hkeepalive
      rw [hnone, Option.isSome_none, if_neg Bool.false_ne_true, later_pollDeadline hclosed', htransport', htransport, howed,
        hkeepalive]
      constructor
      · rintro ⟨-, howed, hsearch, -, hrest⟩
        exact ⟨howed, hmtu.mp hsearch, hrest⟩
      · rintro ⟨howed, hsearch, hrest⟩
        exact ⟨hloss, howed, hmtu.mpr hsearch, hpath, hrest⟩

theorem closed_challengeOrRest (h : e.challengeOrRest c (carriage Addr) now = some (e', none)) (hclosed : e.closed = true) :
    e'.closed = true := by
  unfold challengeOrRest at h
  dsimp only at h
  split at h
  · split_ifs at h
    · cases h
      exact hclosed
    · exact (congrArg (fun timers => timers.2.2.1) (timers_attempt h)).trans hclosed
  · obtain ⟨⟨e₁, sent⟩, hprobe, h⟩ := Option.bind_eq_some_iff.mp h
    cases sent with
    | some sent => cases h
    | none =>
      have hclosed₁ : e₁.closed = true := (congrArg (fun timers => timers.2.2.1) (timers_probePathMtu hprobe)).trans hclosed
      have hkeepalive : e₁.keepalive c (carriage Addr) now = some (e₁, none) := if_pos (.inr hclosed₁)
      obtain ⟨rfl, -⟩ := Prod.mk.inj (Option.some.inj (hkeepalive.symm.trans h))
      exact hclosed₁

/-- After a poll that returned nothing the deadline is later than the poll, or there is none,
exactly when the endpoint is closed or was idle. -/
theorem deadline_later_iff (h : e.pollTransmit c (carriage Addr) now = some (e', none)) :
    Later now e'.pollDeadline ↔ e.closed = true ∨ e.Idle now := by
  obtain ⟨⟨e₁, sent⟩, hanswer, h⟩ := Option.bind_eq_some_iff.mp h
  cases sent with
  | some sent => cases h
  | none =>
    obtain ⟨⟨e₂, sent⟩, hack, h⟩ := Option.bind_eq_some_iff.mp h
    cases sent with
    | some sent => cases h
    | none =>
      have htimers := (timers_acknowledge hack).trans (timers_sendAnswer hanswer)
      simp only [timers, Prod.mk.injEq] at htimers
      obtain ⟨htransport, hdebt, hclosed, hrole, hquiet, hsealed⟩ := htimers
      cases hopen : e.closed with
      | true =>
        have hclosed' := closed_challengeOrRest h (hclosed.trans hopen)
        refine ⟨fun _ => .inl rfl, fun _ => ?_⟩
        rw [pollDeadline, if_pos hclosed']
        exact later_none now
      | false =>
        obtain ⟨hlost, hpath, -⟩ := Carrier.absorb_frame { e.transport with loss := e.transport.loss.expire now } now
        have hloss : Later now e₂.transport.loss.deadline := by
          rw [htransport]
          change Later now ({ e.transport with loss := e.transport.loss.expire now }.absorb now).loss.deadline
          rw [hlost]
          exact e.transport.loss.later_expire now
        have howed : e₂.owedDeadline = e.owedDeadline := by rw [owedDeadline, owedDeadline, hdebt]
        have hkeepalive : e₂.keepaliveDeadline = e.keepaliveDeadline := by
          rw [keepaliveDeadline, keepaliveDeadline, hrole, hquiet]
        have hexpired : e₂.transport.path = e.transport.path ∧ e₂.transport.entropy = e.transport.entropy ∧
            e₂.transport.mtu = (e.transport.expire now).mtu := by
          rw [htransport]
          exact ⟨hpath, Carrier.absorb_entropy _ now, rfl⟩
        obtain ⟨hpath, hentropy, hmtu⟩ := hexpired
        rw [later_challengeOrRest h (hclosed.trans hopen) hloss, howed, hkeepalive, hpath, hentropy, hmtu, hsealed, Idle]
        exact ⟨.inr, fun hidle => hidle.resolve_left Bool.false_ne_true⟩

/-- A frame is in flight and another is to be acknowledged: a poll before then names that instant. -/
theorem deadline_later_iff_owed : ∃ e e' : Endpoint ℕ (Direction × ℕ) (Carrier ℕ) ℕ, (system sample).Reachable e ∧
    e.transport.congestion.inFlight = 33 ∧ e.owedDeadline = some maxAckDelay ∧
    e.pollTransmit sample.cipher (carriage ℕ) 1 = some (e', none) ∧ e'.pollDeadline = some maxAckDelay ∧ e.Idle 1 := by
  obtain ⟨e, hreach, hflight, howed, hopen, hpolled⟩ : ∃ e, (system sample).Reachable e ∧
      e.transport.congestion.inFlight = 33 ∧ e.owedDeadline = some maxAckDelay ∧ e.closed = false ∧
      ((e.pollTransmit sample.cipher (carriage ℕ) 1).any fun polled =>
        decide (polled.2 = none ∧ polled.1.pollDeadline = some maxAckDelay)) = true :=
    Foundation.System.Reachable.of_run (new sample.cipher sample.cid sample.root (sample.dialled 1) .clientToServer)
      [.send [104] 0, .recv 1 0 (sampled .serverToClient .frame 0 [105])] ⟨.clientToServer, .connect 1⟩ (by decide +kernel)
  obtain ⟨⟨e', sent⟩, hpoll, hp⟩ := (Option.any_eq_true _ _).1 hpolled
  obtain ⟨hnone, hdeadline⟩ := of_decide_eq_true hp
  obtain rfl : sent = none := hnone
  have hlater : Later 1 e'.pollDeadline := by
    rw [show e'.pollDeadline = some maxAckDelay from hdeadline]
    decide
  refine ⟨e, e', hreach, hflight, howed, hpoll, hdeadline, ((deadline_later_iff hpoll).mp hlater).resolve_left ?_⟩
  rw [hopen]
  exact Bool.false_ne_true

/-- A datagram of 33 bytes earns 99. A frame of 67 leaves too little for the acknowledgement
that is due, so a poll returns nothing and names an instant that has come; and so does the next. -/
theorem deadline_spins : ∃ e e' e'' : Endpoint ℕ (Direction × ℕ) (Carrier ℕ) ℕ, (system sample).Reachable e ∧
    e.pollTransmit sample.cipher (carriage ℕ) maxAckDelay = some (e', none) ∧ e'.pollDeadline = some maxAckDelay ∧
    e'.pollTransmit sample.cipher (carriage ℕ) maxAckDelay = some (e'', none) ∧ e''.pollDeadline = some maxAckDelay := by
  obtain ⟨e, hreach, hpolled⟩ : ∃ e, (system sample).Reachable e ∧
      ((e.pollTransmit sample.cipher (carriage ℕ) maxAckDelay).any fun polled =>
        (polled.1.pollTransmit sample.cipher (carriage ℕ) maxAckDelay).any fun again =>
          decide (polled.2 = none ∧ polled.1.pollDeadline = some maxAckDelay ∧ again.2 = none ∧
            again.1.pollDeadline = some maxAckDelay)) = true :=
    Foundation.System.Reachable.of_run (new sample.cipher sample.cid sample.root (sample.claimed 1) .serverToClient)
      [.recv 1 0 Party.hello, .send (List.replicate 35 0) 0] ⟨.serverToClient, .listen 1⟩ (by decide +kernel)
  obtain ⟨⟨e', sent⟩, hpoll, hagain⟩ := (Option.any_eq_true _ _).1 hpolled
  obtain ⟨⟨e'', sent'⟩, hpoll', hp⟩ := (Option.any_eq_true _ _).1 hagain
  obtain ⟨hsent, hdeadline, hsent', hdeadline'⟩ := of_decide_eq_true hp
  obtain rfl : sent = none := hsent
  obtain rfl : sent' = none := hsent'
  exact ⟨e, e', e'', hreach, hpoll, hdeadline, hpoll', hdeadline'⟩

end Endpoint

end

end Braid.Dgram
