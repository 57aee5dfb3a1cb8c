import Braid.Foundation.System
import Braid.Dgram.Width
import Mathlib.Data.List.Nodup

/-! The width of the path moves only on evidence. A history of the search has, beside the
calls, the packets that are in flight with their sizes: a probe is sealed in the size the
search offers, and what is reported is a packet in flight, once. It keeps what arrived and what
went missing since the evidence was last reset, and from that every move of the width follows. -/

namespace Braid.Dgram

open Foundation

/-- A search with its history: what is in flight by number and size, which of it were probes,
and what arrived and went missing since the evidence was last reset. -/
structure Record where
  mtu : Mtu
  next : ℕ
  flight : List (ℕ × ℕ)
  probes : List (ℕ × ℕ)
  arrived : List (ℕ × ℕ)
  missing : List (ℕ × ℕ)

namespace Record

def fresh (fragmentation : Fragmentation) : Record := ⟨.new fragmentation, 0, [], [], [], []⟩

/-- A call that seals nothing: what it reports leaves the flight, and is evidence from then on
unless the call resets it. -/
def noted (w : Record) (call : Trial) (mtu : Mtu) : Record :=
  { w with
    mtu
    flight := call.packet.elim w.flight w.flight.erase
    arrived := if w.mtu.resets call then [] else w.arrived ++ call.arrival.toList
    missing := if w.mtu.resets call then [] else w.missing ++ call.loss.toList }

local instance : LawfulBEq (ℕ × ℕ) := inferInstance

/-- A packet is sealed in a number that was not used, and reported once. -/
def next_ (w : Record) : Trial → Option Record
  | .proven => some (w.noted .proven w.mtu.proven)
  | .migrated => some (w.noted .migrated w.mtu.migrated)
  | .sealed number bytes =>
    if w.next ≤ number then some { w with next := number + 1, flight := w.flight ++ [(number, bytes)] } else none
  | .poll now => some (w.noted (.poll now) (w.mtu.poll now).1)
  | .probe number now =>
    if w.next ≤ number then
      (w.mtu.poll now).2.map fun size => { w with
        mtu := (w.mtu.poll now).1.probing number
        next := number + 1
        flight := w.flight ++ [(number, size)]
        probes := w.probes ++ [(number, size)] }
    else none
  | .acknowledged number bytes =>
    if (number, bytes) ∈ w.flight then some (w.noted (.acknowledged number bytes) (w.mtu.acknowledged number bytes)) else none
  | .gone cause number bytes now =>
    if (number, bytes) ∈ w.flight then
      some (w.noted (.gone cause number bytes now) (w.mtu.report cause number bytes now))
    else none
  | .refused carries now => some (w.noted (.refused carries now) (w.mtu.refused carries now))

def system (fragmentation : Fragmentation) : System Record Trial := ⟨(· = fresh fragmentation), next_⟩

/-! ### What a state of the search rests on -/

/-- The probe that is out is in flight in the size that is in question, and each probe counted
against the width in force is missing. -/
def Backed (w : Record) : Search → Prop
  | .asking candidate outstanding _ _ => w.mtu.plpmtu < candidate ∧ candidate ≤ maxDatagram ∧
      ∀ n ∈ outstanding, (n, candidate) ∈ w.flight ∧ (n, candidate) ∈ w.probes
  | .confirming _ outstanding lost => baseDatagram < w.mtu.plpmtu ∧ lost < confirmLosses ∧
      (∃ numbers : List ℕ, numbers.Nodup ∧ numbers.length = lost ∧
        ∀ n ∈ numbers, (n, w.mtu.plpmtu) ∈ w.probes ∧ (n, w.mtu.plpmtu) ∈ w.missing) ∧
      ∀ n ∈ outstanding, (n, w.mtu.plpmtu) ∈ w.flight ∧ (n, w.mtu.plpmtu) ∈ w.probes
  | _ => True

structure Sound (fragmentation : Fragmentation) (w : Record) : Prop where
  lower : baseDatagram ≤ w.mtu.plpmtu
  upper : w.mtu.plpmtu ≤ maxDatagram
  search : w.Backed w.mtu.search
  small : w.mtu.smallArrived = true → ∃ p ∈ w.arrived, p.2 ≤ baseDatagram
  numbers : (w.flight.map Prod.fst).Nodup
  below : ∀ p ∈ w.flight, p.1 < w.next
  missing : ∀ p ∈ w.missing, p.1 < w.next ∧ ∀ q ∈ w.flight, p.1 ≠ q.1
  premise : w.mtu.fragmentation = fragmentation
  permitted : fragmentation = .permitted → w.mtu.search = .settled ∧ w.mtu.plpmtu = baseDatagram

variable {fragmentation : Fragmentation} {w w' : Record} {call : Trial} {m : Mtu}

theorem sound_fresh (fragmentation : Fragmentation) : Sound fragmentation (fresh fragmentation) := by
  have hbase : baseDatagram ≤ maxDatagram := by decide
  refine ⟨le_rfl, hbase, ?_, nofun, .nil, nofun, nofun, rfl, ?_⟩
  · cases fragmentation <;> trivial
  · rintro rfl
    exact ⟨rfl, rfl⟩

theorem backed_begun (h : w.mtu.Begun) : w.Backed w.mtu.search := by
  obtain hsettled | ⟨candidate, hmem, hlt, hasking⟩ := h
  · rw [hsettled]
    trivial
  · rw [hasking]
    have hmax : ∀ size ∈ candidates, size ≤ maxDatagram := by decide
    exact ⟨hlt, hmax candidate hmem, nofun⟩

theorem mem_noted {p : ℕ × ℕ} (h : p ∈ w.flight) (hother : ∀ q ∈ call.packet, q.1 ≠ p.1) : p ∈ (w.noted call m).flight := by
  change p ∈ call.packet.elim w.flight w.flight.erase
  cases hpacket : call.packet with
  | none => exact h
  | some q => exact (List.mem_erase_of_ne fun heq => hother q hpacket (congrArg Prod.fst heq).symm).mpr h

theorem noted_sublist : (w.noted call m).flight.Sublist w.flight := by
  change (call.packet.elim w.flight w.flight.erase).Sublist w.flight
  cases call.packet with
  | none => exact .refl _
  | some q => exact List.erase_sublist

theorem Sound.unique (h : Sound fragmentation w) {n a b : ℕ} (ha : (n, a) ∈ w.flight) (hb : (n, b) ∈ w.flight) : a = b := by
  have heq := List.inj_on_of_nodup_map h.numbers ha hb rfl
  exact congrArg Prod.snd heq

/-- Each call keeps the search on what it rests on. -/
theorem Sound.search_noted (h : Sound fragmentation w) (hsteps : w.mtu.Steps call m) (hpacket : ∀ p ∈ call.packet, p ∈ w.flight) :
    (w.noted call m).Backed m.search := by
  have hsearch := h.search
  cases hsteps.shift with
  | still hwidth hsame hother hkept =>
    rw [hsame]
    cases hs : w.mtu.search with
    | unproven | settled | cooling until_ => trivial
    | asking candidate outstanding lost due =>
      rw [hs] at hsearch hother
      obtain ⟨hlt, hmax, hout⟩ := hsearch
      refine ⟨hwidth.trans_lt hlt, hmax, fun n hn => ⟨mem_noted (hout n hn).1 fun q hq heq => ?_, (hout n hn).2⟩⟩
      exact hother q hq (hn.trans (congrArg some heq.symm))
    | confirming due outstanding lost =>
      rw [Mtu.confirming, hs] at hkept
      rw [hs] at hsearch hother
      obtain ⟨hwide, hlost, ⟨numbers, hnodup, hlength, hmissing⟩, hout⟩ := hsearch
      dsimp only [Backed, noted]
      rw [hkept rfl, hwidth]
      refine ⟨hwide, hlost, ⟨numbers, hnodup, hlength, fun n hn => ⟨(hmissing n hn).1, ?_⟩⟩, fun n hn => ⟨?_, (hout n hn).2⟩⟩
      · exact List.mem_append_left _ (hmissing n hn).2
      · refine mem_noted (m := m) (hout n hn).1 fun q hq heq => ?_
        exact hother q hq (hn.trans (congrArg some heq.symm))
  | begun _ _ hbegun => exact backed_begun (w := w.noted call m) hbegun
  | found _ _ hbegun => exact backed_begun (w := w.noted _ m) hbegun
  | again hasking hwidth hsame =>
    rw [hasking] at hsearch
    rw [hsame]
    exact ⟨hwidth.trans_lt hsearch.1, hsearch.2.1, by rintro _ ⟨⟩⟩
  | cooled _ _ hsame => rw [hsame]; trivial
  | doubted hwide hwidth hsame =>
    rw [hsame]
    exact ⟨hwide.trans_eq hwidth.symm, by decide, ⟨[], .nil, rfl, by rintro _ ⟨⟩⟩, by rintro _ ⟨⟩⟩
  | offered hconfirming hwidth hsame =>
    rw [hconfirming] at hsearch
    rw [hsame]
    obtain ⟨hwide, hlost, ⟨numbers, hnodup, hlength, hmissing⟩, -⟩ := hsearch
    dsimp only [Backed, noted]
    rw [hwidth]
    refine ⟨hwide, hlost, ⟨numbers, hnodup, hlength, fun n hn => ⟨(hmissing n hn).1, ?_⟩⟩, by rintro _ ⟨⟩⟩
    exact List.mem_append_left _ (hmissing n hn).2
  | narrowed _ _ _ _ hsame => rw [hsame]; trivial
  | refused _ _ hsame => rw [hsame]; trivial
  | migrated heq =>
    rw [heq]
    cases w.mtu.fragmentation <;> trivial
  | @counted cause number bytes now due due' lost _ hconfirming hlost hwidth hsame =>
    rw [hconfirming] at hsearch
    obtain ⟨hwide, -, ⟨numbers, hnodup, hlength, hmissing⟩, hout⟩ := hsearch
    obtain ⟨hflight, hprobe⟩ := hout number rfl
    obtain rfl := h.unique hflight (hpacket _ rfl)
    have hkept : w.mtu.resets (.gone cause number w.mtu.plpmtu now) = false := by
      rw [Mtu.resets, Mtu.concludes, hconfirming]
      exact decide_eq_false fun hlast => absurd hlost (Nat.not_lt.mpr hlast.2)
    have hfresh : number ∉ numbers := fun hmem => (h.missing _ (hmissing number hmem).2).2 _ hflight rfl
    rw [hsame]
    dsimp only [Backed, noted]
    rw [hkept, hwidth]
    refine ⟨hwide, hlost, ⟨number :: numbers, List.nodup_cons.mpr ⟨hfresh, hnodup⟩, congrArg (· + 1) hlength, ?_⟩, by rintro _ ⟨⟩⟩
    intro n hn
    obtain rfl | hn := List.mem_cons.mp hn
    · exact ⟨hprobe, List.mem_append_right _ List.mem_cons_self⟩
    · exact ⟨(hmissing n hn).1, List.mem_append_left _ (hmissing n hn).2⟩

theorem clamp_bounds (carries : ℕ) : baseDatagram ≤ Mtu.clamp carries ∧ Mtu.clamp carries ≤ maxDatagram :=
  ⟨le_max_left _ _, max_le (by decide) (min_le_right _ _)⟩

section

variable (h : Sound fragmentation w)

include h

theorem Sound.bounds_noted (hsteps : w.mtu.Steps call m) :
    baseDatagram ≤ m.plpmtu ∧ m.plpmtu ≤ maxDatagram := by
  have hsearch := h.search
  have hbase : baseDatagram ≤ maxDatagram := by decide
  cases hsteps.shift with
  | still hwidth | begun _ hwidth | again _ hwidth | cooled _ hwidth | doubted _ hwidth | offered _ hwidth
  | counted _ _ hwidth => rw [hwidth]; exact ⟨h.lower, h.upper⟩
  | found hasking hwidth =>
    rw [hasking] at hsearch
    rw [hwidth]
    exact ⟨le_min (h.lower.trans hsearch.1.le) hbase, min_le_right _ _⟩
  | narrowed _ _ _ hwidth => rw [hwidth]; exact ⟨le_rfl, hbase⟩
  | refused _ hwidth => rw [hwidth]; exact clamp_bounds _
  | migrated heq => rw [heq]; exact ⟨le_rfl, hbase⟩

theorem Sound.permitted_noted (hsteps : w.mtu.Steps call m) (hp : fragmentation = .permitted) :
    m.search = .settled ∧ m.plpmtu = baseDatagram := by
  obtain ⟨hsettled, hbase⟩ := h.permitted hp
  cases hsteps.shift with
  | still hwidth hsame => exact ⟨hsame.trans hsettled, hwidth.trans hbase⟩
  | begun hnot | cooled hnot => exact absurd hsettled hnot
  | found hasking | again hasking => cases hsettled.symm.trans hasking
  | offered hconfirming | counted hconfirming | narrowed hconfirming => cases hsettled.symm.trans hconfirming
  | doubted hwide => exact absurd hbase hwide.ne'
  | refused hlt =>
    rw [hbase] at hlt
    exact absurd hlt (Nat.not_lt.mpr (clamp_bounds _).1)
  | migrated heq =>
    rw [heq, h.premise, hp]
    exact ⟨rfl, rfl⟩

theorem Sound.small_noted (hsteps : w.mtu.Steps call m) (hsmall : m.smallArrived = true) :
    ∃ p ∈ (w.noted call m).arrived, p.2 ≤ baseDatagram := by
  obtain ⟨hkept, hold | ⟨number, bytes, rfl, hbase⟩⟩ := hsteps.small hsmall
  · obtain ⟨p, hp, hbase⟩ := h.small hold
    dsimp only [noted]
    rw [hkept]
    exact ⟨p, List.mem_append_left _ hp, hbase⟩
  · dsimp only [noted]
    rw [hkept]
    exact ⟨(number, bytes), List.mem_append_right _ List.mem_cons_self, hbase⟩

theorem Sound.missing_noted (hpacket : ∀ p ∈ call.packet, p ∈ w.flight) :
    ∀ p ∈ (w.noted call m).missing, p.1 < w.next ∧ ∀ q ∈ (w.noted call m).flight, p.1 ≠ q.1 := by
  intro p hp
  dsimp only [noted] at hp
  split_ifs at hp
  · cases hp
  · obtain hp | hp := List.mem_append.mp hp
    · exact ⟨(h.missing p hp).1, fun q hq => (h.missing p hp).2 q (noted_sublist.mem hq)⟩
    · -- the packet of this call, which is no longer in flight
      have hcall : call.packet = some p := by
        cases call with
        | gone => exact Option.mem_toList.mp hp
        | _ => cases hp
      refine ⟨h.below p (hpacket p hcall), fun q hq heq => ?_⟩
      have hsame : p = q := List.inj_on_of_nodup_map h.numbers (hpacket p hcall) (noted_sublist.mem hq) heq
      have hgone : p ∈ w.flight.erase p := by
        dsimp only [noted] at hq
        rwa [hcall, ← hsame] at hq
      exact (List.Nodup.not_mem_erase (List.Nodup.of_map _ h.numbers)) hgone

theorem Sound.noted (hsteps : w.mtu.Steps call m) (hpacket : ∀ p ∈ call.packet, p ∈ w.flight) :
    Sound fragmentation (w.noted call m) where
  lower := (h.bounds_noted hsteps).1
  upper := (h.bounds_noted hsteps).2
  search := h.search_noted hsteps hpacket
  small := h.small_noted hsteps
  numbers := h.numbers.sublist (noted_sublist.map _)
  below p hp := h.below p (noted_sublist.mem hp)
  missing := h.missing_noted hpacket
  premise := hsteps.fragmentation.trans h.premise
  permitted := h.permitted_noted hsteps

theorem Sound.sealed {number : ℕ} (hnext : w.next ≤ number) (bytes : ℕ) (probes : List (ℕ × ℕ)) :
    Sound fragmentation { w with
      next := number + 1, flight := w.flight ++ [(number, bytes)], probes := w.probes ++ probes } := by
  have hsearch := h.search
  refine ⟨h.lower, h.upper, ?_, h.small, ?_, fun p hp => ?_, fun p hp => ?_, h.premise, h.permitted⟩
  · dsimp only
    cases hs : w.mtu.search with
    | unproven | settled | cooling until_ => trivial
    | asking candidate outstanding lost due =>
      rw [hs] at hsearch
      exact ⟨hsearch.1, hsearch.2.1, fun n hn =>
        ⟨List.mem_append_left _ (hsearch.2.2 n hn).1, List.mem_append_left _ (hsearch.2.2 n hn).2⟩⟩
    | confirming due outstanding lost =>
      rw [hs] at hsearch
      obtain ⟨hwide, hlost, ⟨numbers, hnodup, hlength, hmissing⟩, hout⟩ := hsearch
      exact ⟨hwide, hlost,
        ⟨numbers, hnodup, hlength, fun n hn => ⟨List.mem_append_left _ (hmissing n hn).1, (hmissing n hn).2⟩⟩,
        fun n hn => ⟨List.mem_append_left _ (hout n hn).1, List.mem_append_left _ (hout n hn).2⟩⟩
  · rw [List.map_append]
    refine List.nodup_append.mpr ⟨h.numbers, List.nodup_singleton _, fun a ha b hb heq => ?_⟩
    obtain ⟨p, hp, rfl⟩ := List.mem_map.mp ha
    obtain rfl := List.mem_singleton.mp hb
    exact absurd (h.below p hp) (heq ▸ Nat.not_lt.mpr hnext)
  · obtain hp | hp := List.mem_append.mp hp
    · exact (h.below p hp).trans_le (hnext.trans (Nat.le_succ _))
    · obtain rfl := List.mem_singleton.mp hp
      exact Nat.lt_succ_self _
  · obtain ⟨hbelow, hother⟩ := h.missing p hp
    refine ⟨hbelow.trans_le (hnext.trans (Nat.le_succ _)), fun q hq => ?_⟩
    obtain hq | hq := List.mem_append.mp hq
    · exact hother q hq
    · obtain rfl := List.mem_singleton.mp hq
      exact (hbelow.trans_le hnext).ne

theorem Sound.probing {number size : ℕ} (hflight : (number, size) ∈ w.flight)
    (hprobe : (number, size) ∈ w.probes)
    (hoffer : (∃ lost due, w.mtu.search = .asking size none lost due) ∨
      ∃ due lost, w.mtu.search = .confirming due none lost ∧ size = w.mtu.plpmtu) :
    Sound fragmentation { w with mtu := w.mtu.probing number } := by
  have hsearch := h.search
  have hnot : fragmentation ≠ .permitted := by
    intro hp
    obtain ⟨lost, due, hasking⟩ | ⟨due, lost, hconfirming, -⟩ := hoffer
    · cases (h.permitted hp).1.symm.trans hasking
    · cases (h.permitted hp).1.symm.trans hconfirming
  obtain ⟨lost, due, hasking⟩ | ⟨due, lost, hconfirming, rfl⟩ := hoffer
  · rw [hasking] at hsearch
    have hprobing : w.mtu.probing number = { w.mtu with search := .asking size (some number) lost due } := by
      rw [Mtu.probing, hasking]
    rw [hprobing]
    refine ⟨h.lower, h.upper, ⟨hsearch.1, hsearch.2.1, ?_⟩, h.small, h.numbers, h.below, h.missing, h.premise,
      fun hp => absurd hp hnot⟩
    rintro n ⟨⟩
    exact ⟨hflight, hprobe⟩
  · rw [hconfirming] at hsearch
    have hprobing : w.mtu.probing number = { w.mtu with search := .confirming due (some number) lost } := by
      rw [Mtu.probing, hconfirming]
    rw [hprobing]
    refine ⟨h.lower, h.upper, ⟨hsearch.1, hsearch.2.1, hsearch.2.2.1, ?_⟩, h.small, h.numbers, h.below, h.missing,
      h.premise, fun hp => absurd hp hnot⟩
    rintro n ⟨⟩
    exact ⟨hflight, hprobe⟩

end

theorem probe_eq {number now size : ℕ} (hoffer : (w.mtu.poll now).2 = some size) (hnext : w.next ≤ number) :
    w.next_ (.probe number now) =
      some { w.noted (.poll now) (w.mtu.poll now).1 with
        mtu := (w.mtu.poll now).1.probing number
        next := number + 1
        flight := w.flight ++ [(number, size)]
        probes := w.probes ++ [(number, size)] } := by
  dsimp only [next_]
  rw [if_pos hnext, hoffer]
  dsimp only [Option.map_some, noted, Mtu.resets, Trial.arrival, Trial.loss]
  simp

theorem Sound.probe (h : Sound fragmentation w) {number now size : ℕ} (hoffer : (w.mtu.poll now).2 = some size)
    (hnext : w.next ≤ number) (hs : w.next_ (.probe number now) = some w') : Sound fragmentation w' := by
  rw [probe_eq hoffer hnext] at hs
  cases hs
  have hpolled := h.noted (w.mtu.steps_poll now) nofun
  have hsealed := hpolled.sealed hnext size [(number, size)]
  exact hsealed.probing (List.mem_append_right _ List.mem_cons_self) (List.mem_append_right _ List.mem_cons_self)
    (Mtu.poll_offer hoffer)

theorem poll_width (m : Mtu) (now number : ℕ) : ((m.poll now).1.probing number).plpmtu = m.plpmtu := by
  have hprobing : ((m.poll now).1.probing number).plpmtu = (m.poll now).1.plpmtu := by
    unfold Mtu.probing
    split <;> rfl
  rw [hprobing]
  cases (m.steps_poll now).shift with
  | still hwidth | begun _ hwidth | cooled _ hwidth | doubted _ hwidth | offered _ hwidth => exact hwidth

/-- A call by what it tells the search; one that seals a packet leaves the width alone. -/
theorem next_cases (hs : w.next_ call = some w') :
    (∃ m, w.mtu.Steps call m ∧ (∀ p ∈ call.packet, p ∈ w.flight) ∧ w' = w.noted call m) ∨
    (∃ number bytes, call = .sealed number bytes ∧ w.next ≤ number ∧
      w' = { w with next := number + 1, flight := w.flight ++ [(number, bytes)] }) ∨
    ∃ number now size, call = .probe number now ∧ (w.mtu.poll now).2 = some size ∧ w.next ≤ number ∧
      w'.mtu.plpmtu = w.mtu.plpmtu := by
  cases call with
  | proven =>
    cases hs
    exact .inl ⟨_, w.mtu.steps_proven, nofun, rfl⟩
  | migrated =>
    cases hs
    exact .inl ⟨_, w.mtu.steps_migrated, nofun, rfl⟩
  | poll now =>
    cases hs
    exact .inl ⟨_, w.mtu.steps_poll now, nofun, rfl⟩
  | refused carries now =>
    cases hs
    exact .inl ⟨_, w.mtu.steps_refused carries now, nofun, rfl⟩
  | sealed number bytes =>
    obtain ⟨hnext, hs⟩ := Option.ite_none_right_eq_some.mp hs
    cases hs
    exact .inr (.inl ⟨number, bytes, rfl, hnext, rfl⟩)
  | probe number now =>
    obtain ⟨hnext, hs⟩ := Option.ite_none_right_eq_some.mp hs
    obtain ⟨size, hoffer, rfl⟩ := Option.map_eq_some_iff.mp hs
    exact .inr (.inr ⟨number, now, size, rfl, hoffer, hnext, poll_width w.mtu now number⟩)
  | acknowledged number bytes =>
    obtain ⟨hmem, hs⟩ := Option.ite_none_right_eq_some.mp hs
    cases hs
    refine .inl ⟨_, w.mtu.steps_acknowledged number bytes, ?_, rfl⟩
    rintro p ⟨⟩
    exact hmem
  | gone cause number bytes now =>
    obtain ⟨hmem, hs⟩ := Option.ite_none_right_eq_some.mp hs
    cases hs
    refine .inl ⟨_, w.mtu.steps_report cause number bytes now, ?_, rfl⟩
    rintro p ⟨⟩
    exact hmem

theorem Sound.next (h : Sound fragmentation w) (hs : w.next_ call = some w') : Sound fragmentation w' := by
  obtain ⟨m, hsteps, hpacket, rfl⟩ | ⟨number, bytes, rfl, hnext, rfl⟩ | ⟨number, now, size, rfl, hoffer, hnext, -⟩ := next_cases hs
  · exact h.noted hsteps hpacket
  · have hsealed := h.sealed hnext bytes []
    rwa [List.append_nil] at hsealed
  · exact h.probe hoffer hnext hs

theorem reachable_sound (hr : (system fragmentation).Reachable w) : Sound fragmentation w := by
  refine hr.invariant ?_ fun w call w' h hs => h.next hs
  rintro w rfl
  exact sound_fresh fragmentation

/-- What moves the width up: the answer to the probe of the size asked for. -/
theorem Sound.rise (h : Sound fragmentation w) (hs : w.next_ call = some w') (hlt : w.mtu.plpmtu < w'.mtu.plpmtu) :
    ∃ number lost due, call = .acknowledged number w'.mtu.plpmtu ∧
      w.mtu.search = .asking w'.mtu.plpmtu (some number) lost due ∧ (number, w'.mtu.plpmtu) ∈ w.probes := by
  have hsearch := h.search
  obtain ⟨m, hsteps, hpacket, rfl⟩ | ⟨_, _, -, -, rfl⟩ | ⟨_, _, _, -, -, -, hwidth⟩ := next_cases hs
  · have hlt' : w.mtu.plpmtu < m.plpmtu := hlt
    cases hsteps.shift with
    | still hwidth | begun _ hwidth | again _ hwidth | cooled _ hwidth | doubted _ hwidth | offered _ hwidth
    | counted _ _ hwidth => exact absurd hwidth hlt'.ne'
    | narrowed _ _ _ hwidth => exact absurd (hwidth ▸ h.lower) (Nat.not_le.mpr hlt')
    | refused hnarrow hwidth => exact absurd (hwidth ▸ hnarrow) (Nat.lt_asymm hlt')
    | migrated heq => exact absurd (heq ▸ h.lower) (Nat.not_le.mpr hlt')
    | @found number bytes candidate lost due _ hasking hwidth =>
      rw [hasking] at hsearch
      obtain ⟨-, hmax, hout⟩ := hsearch
      obtain ⟨hflight, hprobe⟩ := hout number rfl
      have hsize : m.plpmtu = candidate := hwidth.trans (min_eq_left hmax)
      obtain rfl := h.unique hflight (hpacket _ rfl)
      obtain rfl := hsize
      exact ⟨number, lost, due, rfl, hasking, hprobe⟩
  · exact absurd hlt (lt_irrefl _)
  · exact absurd hwidth hlt.ne'

/-- The probes of the width in force that are missing with the one of this number, as many as
are needed, and a packet of the base size that has arrived since the evidence was last reset. -/
structure Condemned (w : Record) (number : ℕ) (numbers : List ℕ) : Prop where
  nodup : numbers.Nodup
  length : numbers.length = confirmLosses
  probes : ∀ n ∈ numbers, (n, w.mtu.datagram) ∈ w.probes
  missing : ∀ n ∈ numbers, n = number ∨ (n, w.mtu.datagram) ∈ w.missing
  small : ∃ p ∈ w.arrived, p.2 ≤ baseDatagram

theorem Sound.condemned (h : Sound fragmentation w) {number bytes due lost : ℕ}
    (hconfirming : w.mtu.search = .confirming due (some number) lost) (hlast : confirmLosses ≤ lost + 1)
    (hsmall : w.mtu.smallArrived = true) (hflight : (number, bytes) ∈ w.flight) :
    bytes = w.mtu.datagram ∧ ∃ numbers, w.Condemned number numbers := by
  have hsearch := h.search
  rw [hconfirming] at hsearch
  obtain ⟨-, hlost, ⟨numbers, hnodup, hlength, hmissing⟩, hout⟩ := hsearch
  obtain ⟨hwidth, hprobe⟩ := hout number rfl
  have hfresh : number ∉ numbers := fun hmem => (h.missing _ (hmissing number hmem).2).2 _ hwidth rfl
  refine ⟨h.unique hflight hwidth, number :: numbers, List.nodup_cons.mpr ⟨hfresh, hnodup⟩, ?_, fun n hn => ?_, fun n hn => ?_,
    h.small hsmall⟩
  · rw [List.length_cons]
    omega
  · obtain rfl | hn := List.mem_cons.mp hn
    · exact hprobe
    · exact (hmissing n hn).1
  · obtain rfl | hn := List.mem_cons.mp hn
    · exact .inl rfl
    · exact .inr (hmissing n hn).2

/-- What moves the width down. -/
theorem Sound.fall (h : Sound fragmentation w) (hs : w.next_ call = some w') (hlt : w'.mtu.plpmtu < w.mtu.plpmtu) :
    call = .migrated ∨
    (∃ carries now, call = .refused carries now ∧ carries < w.mtu.plpmtu ∧ w'.mtu.plpmtu = max baseDatagram carries) ∨
    ∃ cause number now numbers, call = .gone cause number w.mtu.plpmtu now ∧ w'.mtu.plpmtu = baseDatagram ∧
      w.Condemned number numbers := by
  have hsearch := h.search
  obtain ⟨m, hsteps, hpacket, rfl⟩ | ⟨_, _, -, -, rfl⟩ | ⟨_, _, _, -, -, -, hwidth⟩ := next_cases hs
  · have hlt' : m.plpmtu < w.mtu.plpmtu := hlt
    cases hsteps.shift with
    | still hwidth | begun _ hwidth | again _ hwidth | cooled _ hwidth | doubted _ hwidth | offered _ hwidth
    | counted _ _ hwidth => exact absurd hwidth hlt'.ne
    | found hasking hwidth =>
      rw [hasking] at hsearch
      rw [hwidth] at hlt'
      exact absurd (le_min hsearch.1.le h.upper) (Nat.not_le.mpr hlt')
    | migrated => exact .inl rfl
    | @refused carries now _ _ hnarrow hwidth =>
      have hupper := h.upper
      have hcarries : carries < w.mtu.plpmtu ∧ Mtu.clamp carries = max baseDatagram carries := by
        unfold Mtu.clamp at hnarrow ⊢
        omega
      exact .inr (.inl ⟨carries, now, rfl, hcarries.1, hwidth.trans hcarries.2⟩)
    | @narrowed cause number bytes now due lost _ _ hconfirming hlast hsmall hwidth =>
      obtain ⟨rfl, numbers, hcondemned⟩ := h.condemned hconfirming hlast hsmall (hpacket _ rfl)
      exact .inr (.inr ⟨cause, number, now, numbers, rfl, hwidth, hcondemned⟩)
  · exact absurd hlt (lt_irrefl _)
  · exact absurd hwidth hlt.ne

/-- In every history the width stays within its bounds; it rises by the answer to the probe of
just that size; it falls by a migration, by a refusal that names a smaller width, or to the base
when enough probes of the width in force are missing and a packet of the base size has arrived;
and where the kernel cuts datagrams up there is no probe and no other width than the base. -/
theorem width_moves_on_evidence (hr : (system fragmentation).Reachable w) :
    (baseDatagram ≤ w.mtu.datagram ∧ w.mtu.datagram ≤ maxDatagram) ∧
    (∀ call w', w.next_ call = some w' → w.mtu.datagram < w'.mtu.datagram →
      ∃ number lost due, call = .acknowledged number w'.mtu.datagram ∧
        w.mtu.search = .asking w'.mtu.datagram (some number) lost due ∧ (number, w'.mtu.datagram) ∈ w.probes) ∧
    (∀ call w', w.next_ call = some w' → w'.mtu.datagram < w.mtu.datagram →
      call = .migrated ∨
      (∃ carries now, call = .refused carries now ∧ carries < w.mtu.datagram ∧
        w'.mtu.datagram = max baseDatagram carries) ∨
      ∃ cause number now numbers, call = .gone cause number w.mtu.datagram now ∧ w'.mtu.datagram = baseDatagram ∧
        w.Condemned number numbers) ∧
    (fragmentation = .permitted → w.mtu.datagram = baseDatagram ∧ ∀ now, (w.mtu.poll now).2 = none) := by
  have h := reachable_sound hr
  refine ⟨⟨h.lower, h.upper⟩, fun call w' hs hlt => h.rise hs hlt, fun call w' hs hlt => h.fall hs hlt, fun hp => ?_⟩
  obtain ⟨hsettled, hbase⟩ := h.permitted hp
  refine ⟨hbase, fun now => ?_⟩
  rw [Mtu.poll, Mtu.cooled, hsettled]
  rw [hsettled]

/-- The path carries 1400 bytes, and then loses three such packets and a probe while a small
packet arrives; a second probe is out. -/
def condemnedRun : List Trial :=
  [.sealed 0 100, .acknowledged 0 100, .proven, .probe 1 0, .acknowledged 1 1400, .sealed 2 100, .acknowledged 2 100,
    .sealed 3 1400, .sealed 4 1400, .sealed 5 1400, .gone .lost 3 1400 1, .gone .lost 4 1400 1, .gone .lost 5 1400 1,
    .probe 6 1, .gone .silent 6 1400 2, .probe 7 1000000002]

theorem width_moves_on_evidence_condemned : ∃ w w', (system .refused).Reachable w ∧ w.mtu.datagram = 1400 ∧
    w.next_ (.gone .lost 7 1400 1000000003) = some w' ∧ w'.mtu.datagram = baseDatagram ∧
    ∃ numbers, w.Condemned 7 numbers := by
  obtain ⟨w, hreach, hwide, hnext⟩ : ∃ w, (system .refused).Reachable w ∧ w.mtu.datagram = 1400 ∧
      ((w.next_ (.gone .lost 7 1400 1000000003)).any fun w' => decide (w'.mtu.datagram = baseDatagram)) = true :=
    System.Reachable.of_run (fresh .refused) condemnedRun rfl (by decide +kernel)
  obtain ⟨w', hw', hbase⟩ := (Option.any_eq_true _ _).1 hnext
  have hbase := of_decide_eq_true hbase
  refine ⟨w, w', hreach, hwide, hw', hbase, ?_⟩
  have hlt : w'.mtu.datagram < w.mtu.datagram := by
    rw [hwide, hbase]
    decide
  obtain hmigrated | ⟨_, _, hrefused, -⟩ | ⟨cause, number, now, numbers, hcall, -, hcondemned⟩ :=
    (width_moves_on_evidence hreach).2.2.1 _ w' hw' hlt
  · cases hmigrated
  · cases hrefused
  · obtain ⟨-, rfl, -, -⟩ := Trial.gone.inj hcall
    exact ⟨numbers, hcondemned⟩

end Record

end Braid.Dgram
