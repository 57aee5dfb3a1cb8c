import Braid.Dgram.Loss
import Braid.Dgram.Mtu

/-! What a call of the width search can do, once for all calls: to the width in force, to the
question the search is at, and to the evidence that the path carries a small packet still. -/

namespace Braid.Dgram

/-- The calls of the search, in the order the endpoint makes them: a probe is an offer that is
taken, sealed, and told to the search. -/
inductive Trial where
  | proven
  | migrated
  | sealed (number bytes : ℕ)
  | poll (now : ℕ)
  | probe (number now : ℕ)
  | acknowledged (number bytes : ℕ)
  | gone (cause : Cause) (number bytes now : ℕ)
  | refused (carries now : ℕ)

namespace Trial

def arrival : Trial → Option (ℕ × ℕ)
  | .acknowledged number bytes => some (number, bytes)
  | _ => none

def loss : Trial → Option (ℕ × ℕ)
  | .gone _ number bytes _ => some (number, bytes)
  | _ => none

def packet (call : Trial) : Option (ℕ × ℕ) := call.arrival.or call.loss

end Trial

namespace Mtu

def clamp (carries : ℕ) : ℕ := max baseDatagram (min carries maxDatagram)

/-- The last probe of a confirmation is the packet of this number. -/
def concludes (m : Mtu) (number : ℕ) : Bool :=
  match m.search with
  | .confirming _ (some outstanding) lost => outstanding = number ∧ confirmLosses ≤ lost + 1
  | _ => false

/-- Whether a call resets the evidence for a narrower path. -/
def resets (m : Mtu) : Trial → Bool
  | .migrated => true
  | .acknowledged number bytes => (m.answer number).2 || decide (m.suspect ≤ bytes)
  | .gone _ number _ _ => m.concludes number
  | .refused carries _ => clamp carries < m.plpmtu
  | _ => false

def report (m : Mtu) : Cause → ℕ → ℕ → ℕ → Mtu
  | .lost, number, bytes, now => m.lost number bytes now
  | .silent, number, bytes, now => m.silent number bytes now
  | .overflowed, number, _, now => m.forgotten number now

end Mtu

/-! ### What a call does to the search -/

def Search.outstanding : Search → Option ℕ
  | .asking _ outstanding _ _ | .confirming _ outstanding _ => outstanding
  | _ => none

namespace Mtu

variable {m m' : Mtu} {call : Trial} {number bytes now : ℕ}

/-- The search asks for a size above the one in force, or has none left to ask for. -/
def Begun (m : Mtu) : Prop :=
  m.search = .settled ∨ ∃ candidate ∈ candidates, m.plpmtu < candidate ∧ m.search = .asking candidate none 0 none

/-- One call, by what it does to the width and to the search. -/
inductive Shift (m : Mtu) : Trial → Mtu → Prop where
  | still {call : Trial} {m' : Mtu} : m'.plpmtu = m.plpmtu → m'.search = m.search →
      (∀ p ∈ call.packet, m.search.outstanding ≠ some p.1) → (m.confirming = true → m.resets call = false) → Shift m call m'
  | begun {call : Trial} {m' : Mtu} : m.search ≠ .settled → m'.plpmtu = m.plpmtu → m'.Begun → Shift m call m'
  | found {number bytes candidate lost : ℕ} {due : Option ℕ} {m' : Mtu} :
      m.search = .asking candidate (some number) lost due → m'.plpmtu = min candidate maxDatagram → m'.Begun →
      Shift m (.acknowledged number bytes) m'
  | again {cause : Cause} {number bytes now candidate lost : ℕ} {due due' : Option ℕ} {m' : Mtu} :
      m.search = .asking candidate (some number) lost due → m'.plpmtu = m.plpmtu →
      m'.search = .asking candidate none (lost + 1) due' → Shift m (.gone cause number bytes now) m'
  | cooled {call : Trial} {until_ : ℕ} {m' : Mtu} : m.search ≠ .settled → m'.plpmtu = m.plpmtu →
      m'.search = .cooling until_ → Shift m call m'
  | doubted {call : Trial} {due : ℕ} {m' : Mtu} : baseDatagram < m.plpmtu → m'.plpmtu = m.plpmtu →
      m'.search = .confirming due none 0 → Shift m call m'
  | offered {now due due' lost : ℕ} {m' : Mtu} : m.search = .confirming due none lost → m'.plpmtu = m.plpmtu →
      m'.search = .confirming due' none lost → Shift m (.poll now) m'
  | counted {cause : Cause} {number bytes now due due' lost : ℕ} {m' : Mtu} :
      m.search = .confirming due (some number) lost → lost + 1 < confirmLosses → m'.plpmtu = m.plpmtu →
      m'.search = .confirming due' none (lost + 1) → Shift m (.gone cause number bytes now) m'
  | narrowed {cause : Cause} {number bytes now due lost until_ : ℕ} {m' : Mtu} :
      m.search = .confirming due (some number) lost → confirmLosses ≤ lost + 1 → m.smallArrived = true →
      m'.plpmtu = baseDatagram → m'.search = .cooling until_ → Shift m (.gone cause number bytes now) m'
  | refused {carries now until_ : ℕ} {m' : Mtu} : clamp carries < m.plpmtu → m'.plpmtu = clamp carries →
      m'.search = .cooling until_ → Shift m (.refused carries now) m'
  | migrated {m' : Mtu} : m' = .new m.fragmentation → Shift m .migrated m'

/-- The same, with what it leaves of the premise and of the evidence. -/
structure Steps (m : Mtu) (call : Trial) (m' : Mtu) : Prop where
  shift : Shift m call m'
  fragmentation : m'.fragmentation = m.fragmentation
  small : m'.smallArrived = true → m.resets call = false ∧
    (m.smallArrived = true ∨ ∃ number bytes, call = .acknowledged number bytes ∧ bytes ≤ baseDatagram)
  kept : m.resets call = false → m.smallArrived = true → m'.smallArrived = true

theorem Shift.kept (h : Shift m call m') (hfragmentation : m'.fragmentation = m.fragmentation)
    (hsmall : m'.smallArrived = m.smallArrived) (hkept : m.resets call = false) : Steps m call m' :=
  ⟨h, hfragmentation, fun harrived => ⟨hkept, .inl (hsmall.symm.trans harrived)⟩, fun _ harrived => hsmall.trans harrived⟩

theorem Shift.cleared (h : Shift m call m') (hfragmentation : m'.fragmentation = m.fragmentation)
    (hnone : m'.smallArrived = false) (hreset : m.resets call = true) : Steps m call m' := by
  refine ⟨h, hfragmentation, fun harrived => ?_, fun hkept => ?_⟩
  · cases hnone.symm.trans harrived
  · cases hreset.symm.trans hkept

theorem seek_spec {plpmtu : ℕ} (next : ℕ) (sizes : List ℕ) {candidate : ℕ}
    (h : (seek plpmtu next sizes).2 = some candidate) : plpmtu < candidate ∧ candidate ∈ sizes := by
  induction sizes generalizing next with
  | nil => cases h
  | cons size sizes ih =>
    rw [seek] at h
    split_ifs at h with hlt
    · cases h
      exact ⟨hlt, List.mem_cons_self⟩
    · exact ⟨(ih _ h).1, List.mem_cons_of_mem _ (ih _ h).2⟩

theorem begun_begin (m : Mtu) : m.begin_.Begun := by
  unfold begin_ Begun
  dsimp only
  cases hfound : (seek m.plpmtu m.next (candidates.drop m.next)).2 with
  | none => exact .inl rfl
  | some candidate =>
    obtain ⟨hlt, hmem⟩ := seek_spec _ _ hfound
    exact .inr ⟨candidate, List.mem_of_mem_drop hmem, hlt, rfl⟩

theorem steps_proven (m : Mtu) : Steps m .proven m.proven := by
  unfold proven
  split_ifs with hunproven
  · refine Shift.kept (.begun ?_ rfl m.begun_begin) rfl rfl rfl
    rw [hunproven]
    rintro ⟨⟩
  · exact Shift.kept (.still rfl rfl nofun fun _ => rfl) rfl rfl rfl

theorem steps_migrated (m : Mtu) : Steps m .migrated m.migrated := Shift.cleared (.migrated rfl) rfl rfl rfl

theorem steps_refused (m : Mtu) (carries now : ℕ) : Steps m (.refused carries now) (m.refused carries now) := by
  unfold refused
  dsimp only
  split_ifs with hwide
  · have hkept : m.resets (.refused carries now) = false := decide_eq_false (Nat.not_lt.mpr hwide)
    exact Shift.kept (.still rfl rfl nofun fun _ => hkept) rfl rfl hkept
  · have hnarrow := Nat.lt_of_not_le hwide
    exact Shift.cleared (.refused hnarrow rfl rfl) rfl rfl (decide_eq_true hnarrow)

theorem steps_cooled (m : Mtu) (now : ℕ) : Steps m (.poll now) (m.cooled now) := by
  have hstill : Steps m (.poll now) m := Shift.kept (.still rfl rfl nofun fun _ => rfl) rfl rfl rfl
  unfold cooled
  split
  · rename_i until_ hcooling
    split_ifs
    · refine Shift.kept (.begun ?_ rfl m.begun_begin) rfl rfl rfl
      rw [hcooling]
      rintro ⟨⟩
    · exact hstill
  · exact hstill

theorem cooled_eq {m₁ : Mtu} {due lost : ℕ} {outstanding : Option ℕ} (h : m.cooled now = m₁)
    (hsearch : m₁.search = .confirming due outstanding lost) : m₁ = m := by
  unfold cooled at h
  split at h
  · split_ifs at h
    · obtain rfl := h
      obtain hsettled | ⟨candidate, -, -, hasking⟩ := m.begun_begin
      · cases hsettled.symm.trans hsearch
      · cases hasking.symm.trans hsearch
    · exact h.symm
  · exact h.symm

theorem steps_poll (m : Mtu) (now : ℕ) : Steps m (.poll now) (m.poll now).1 := by
  have hcooled := m.steps_cooled now
  unfold poll
  dsimp only
  generalize hm₁ : m.cooled now = m₁ at hcooled
  split
  · exact hcooled
  · rename_i due lost hsearch
    split_ifs
    · obtain rfl := cooled_eq hm₁ hsearch
      exact Shift.kept (.offered hsearch rfl rfl) rfl rfl rfl
    · exact hcooled
  · exact hcooled

theorem poll_offer {size : ℕ} (h : (m.poll now).2 = some size) :
    (∃ lost due, (m.poll now).1.search = .asking size none lost due) ∨
      ∃ due lost, (m.poll now).1.search = .confirming due none lost ∧ size = (m.poll now).1.plpmtu := by
  unfold poll at h ⊢
  dsimp only at h ⊢
  split at h
  · rename_i candidate lost due hsearch
    obtain ⟨-, hsize⟩ := Option.ite_none_right_eq_some.mp h
    cases hsize
    exact .inl ⟨lost, due, hsearch⟩
  · split_ifs at h ⊢
    · cases h
      exact .inr ⟨_, _, rfl, rfl⟩
  · cases h

theorem steps_withdraw (m : Mtu) : m.withdraw.plpmtu = m.plpmtu ∧ m.withdraw.fragmentation = m.fragmentation ∧
    m.withdraw.smallArrived = false ∧ (m.confirming = true → m.withdraw.Begun) ∧
    (m.confirming = false → m.withdraw.search = m.search) := by
  unfold withdraw
  dsimp only
  have hsame : ({ m with blackhole := 0, silences := 0, suspect := 2 ^ 64 - 1, smallArrived := false } : Mtu).confirming =
      m.confirming := rfl
  rw [hsame]
  cases hconfirming : m.confirming with
  | true =>
    exact ⟨rfl, rfl, rfl, fun _ => begun_begin _, nofun⟩
  | false =>
    exact ⟨rfl, rfl, rfl, nofun, fun _ => rfl⟩

/-- A number is that of a search's probe, of a confirmation's, or of none that is out. -/
theorem outstanding_cases (m : Mtu) (number : ℕ) :
    (∃ candidate lost due, m.search = .asking candidate (some number) lost due) ∨
    (∃ due lost, m.search = .confirming due (some number) lost) ∨ m.search.outstanding ≠ some number := by
  by_cases hout : m.search.outstanding = some number
  · cases hsearch : m.search with
    | asking candidate outstanding lost due =>
      rw [hsearch] at hout
      obtain rfl : outstanding = some number := hout
      exact .inl ⟨candidate, lost, due, rfl⟩
    | confirming due outstanding lost =>
      rw [hsearch] at hout
      obtain rfl : outstanding = some number := hout
      exact .inr (.inl ⟨due, lost, rfl⟩)
    | unproven | settled | cooling until_ =>
      rw [hsearch] at hout
      cases hout
  · exact .inr (.inr hout)

theorem answer_other (h : m.search.outstanding ≠ some number) : m.answer number = (m, false) := by
  unfold answer
  split
  · rename_i hsearch
    rw [hsearch] at h
    exact if_neg fun hnumber => h (congrArg some hnumber)
  · rename_i hsearch
    rw [hsearch] at h
    rw [decide_eq_false fun hnumber => h (congrArg some hnumber)]
  · rfl

theorem steps_acknowledged (m : Mtu) (number bytes : ℕ) :
    Steps m (.acknowledged number bytes) (m.acknowledged number bytes) := by
  unfold acknowledged
  dsimp only
  -- the packet's size first, which is nothing to the search
  generalize hm₁ : (if bytes ≤ baseDatagram then { m with smallArrived := true } else m : Mtu) = m₁
  obtain ⟨hplpmtu, hsearch, hfragmentation, hsuspect, hsmall, hold⟩ : m₁.plpmtu = m.plpmtu ∧ m₁.search = m.search ∧
      m₁.fragmentation = m.fragmentation ∧ m₁.suspect = m.suspect ∧
      (m₁.smallArrived = true → m.smallArrived = true ∨ bytes ≤ baseDatagram) ∧
      (m.smallArrived = true → m₁.smallArrived = true) := by
    rw [← hm₁]
    split_ifs with hbase
    · exact ⟨rfl, rfl, rfl, rfl, fun _ => .inr hbase, fun _ => rfl⟩
    · exact ⟨rfl, rfl, rfl, rfl, .inl, id⟩
  have hanswer : (m.answer number).2 = (m₁.answer number).2 := by
    unfold answer
    rw [hsearch]
    split
    · split_ifs <;> rfl
    · rfl
    · rfl
  obtain ⟨candidate, lost, due, hasking⟩ | ⟨due, lost, hconfirming⟩ | hother := m₁.outstanding_cases number
  · have heq : m₁.answer number = ({ m₁ with plpmtu := min candidate maxDatagram, next := m₁.next + 1 }, true) := by
      rw [answer, hasking]
      exact if_pos rfl
    have hreset : m.resets (.acknowledged number bytes) = true := by
      rw [resets, hanswer, heq, Bool.true_or]
    rw [heq]
    obtain ⟨hwidth, hfrag, hnone, -⟩ :=
      steps_withdraw { m₁ with plpmtu := min candidate maxDatagram, next := m₁.next + 1 }
    exact Shift.cleared (.found (hsearch.symm.trans hasking) hwidth (begun_begin _)) (hfrag.trans hfragmentation) hnone hreset
  · have heq : m₁.answer number = (m₁, true) := by
      rw [answer, hconfirming]
      exact Prod.ext rfl (decide_eq_true rfl)
    have hreset : m.resets (.acknowledged number bytes) = true := by
      rw [resets, hanswer, heq, Bool.true_or]
    rw [heq]
    obtain ⟨hwidth, hfrag, hnone, -⟩ := m₁.steps_withdraw
    refine Shift.cleared (.begun ?_ (hwidth.trans hplpmtu) (begun_begin _)) (hfrag.trans hfragmentation) hnone hreset
    rw [← hsearch, hconfirming]
    rintro ⟨⟩
  · rw [answer_other hother] at hanswer ⊢
    rw [Bool.false_or, if_neg Bool.false_ne_true]
    have hnot : ∀ p ∈ (Trial.acknowledged number bytes).packet, m.search.outstanding ≠ some p.1 := by
      rintro p ⟨⟩
      rwa [← hsearch]
    by_cases hlarge : m₁.suspect ≤ bytes
    · rw [decide_eq_true hlarge, if_pos rfl]
      obtain ⟨hwidth, hfrag, hnone, hbegun, hkept⟩ := m₁.steps_withdraw
      have hreset : m.resets (.acknowledged number bytes) = true := by
        rw [resets, ← hsuspect, decide_eq_true hlarge, Bool.or_true]
      refine Shift.cleared ?_ (hfrag.trans hfragmentation) hnone hreset
      cases hconfirming : m₁.confirming with
      | true =>
        refine .begun (fun hsettled => ?_) (hwidth.trans hplpmtu) (hbegun hconfirming)
        rw [confirming, hsearch, hsettled] at hconfirming
        cases hconfirming
      | false =>
        refine .still (hwidth.trans hplpmtu) ((hkept hconfirming).trans hsearch) hnot fun hconfirming' => ?_
        rw [confirming, ← hsearch] at hconfirming'
        cases hconfirming.symm.trans hconfirming'
    · rw [decide_eq_false hlarge, if_neg Bool.false_ne_true]
      have hreset : m.resets (.acknowledged number bytes) = false := by
        rw [resets, hanswer, ← hsuspect, decide_eq_false hlarge]
        rfl
      refine ⟨.still hplpmtu hsearch hnot fun _ => hreset, hfragmentation, fun harrived => ⟨hreset, ?_⟩, fun _ => hold⟩
      exact (hsmall harrived).imp_right fun hbase => ⟨number, bytes, rfl, hbase⟩

theorem probeGone_other (h : m.search.outstanding ≠ some number) : m.probeGone number now = (m, false) := by
  unfold probeGone
  split
  · rename_i hsearch
    rw [hsearch] at h
    exact if_neg fun hnumber => h (congrArg some hnumber)
  · rename_i hsearch
    rw [hsearch] at h
    exact if_neg fun hnumber => h (congrArg some hnumber)
  · rfl

theorem concludes_other (h : m.search.outstanding ≠ some number) : m.concludes number = false := by
  unfold concludes
  split
  · rename_i hsearch
    rw [hsearch] at h
    exact decide_eq_false fun hnumber => h (congrArg some hnumber.1)
  · rfl

theorem report_probe (cause : Cause) (bytes : ℕ) (h : (m.probeGone number now).2 = true) :
    m.report cause number bytes now = (m.probeGone number now).1 := by
  cases cause with
  | lost | silent =>
    dsimp only [report, lost, silent]
    generalize m.probeGone number now = result at h ⊢
    obtain ⟨m₁, gone⟩ := result
    obtain rfl : gone = true := h
    rfl
  | overflowed => rfl

/-- A packet that was no probe can raise the question of a narrower path, and no more. -/
theorem suspected_spec (m : Mtu) (bytes now : ℕ) : (m.suspected bytes now).plpmtu = m.plpmtu ∧
    (m.suspected bytes now).fragmentation = m.fragmentation ∧ (m.suspected bytes now).smallArrived = m.smallArrived ∧
    ((m.suspected bytes now).search = m.search ∨
      baseDatagram < m.plpmtu ∧ (m.suspected bytes now).search = .confirming now none 0) := by
  unfold suspected
  cases hover : m.oversize bytes with
  | false => exact ⟨rfl, rfl, rfl, .inl rfl⟩
  | true =>
    have hwide : baseDatagram < m.plpmtu := by
      exact of_decide_eq_true (Bool.and_eq_true_iff.mp hover).2
    rw [Bool.not_true, if_neg Bool.false_ne_true]
    dsimp only
    split_ifs
    · exact ⟨rfl, rfl, rfl, .inl rfl⟩
    · exact ⟨rfl, rfl, rfl, .inl rfl⟩
    · exact ⟨rfl, rfl, rfl, .inr ⟨hwide, rfl⟩⟩

theorem report_other (cause : Cause) (bytes : ℕ) (h : m.probeGone number now = (m, false)) :
    (m.report cause number bytes now).plpmtu = m.plpmtu ∧
    (m.report cause number bytes now).fragmentation = m.fragmentation ∧
    (m.report cause number bytes now).smallArrived = m.smallArrived ∧
    ((m.report cause number bytes now).search = m.search ∨
      baseDatagram < m.plpmtu ∧ (m.report cause number bytes now).search = .confirming now none 0) := by
  cases cause with
  | lost =>
    dsimp only [report, lost]
    rw [h]
    exact m.suspected_spec bytes now
  | silent =>
    dsimp only [report, silent]
    rw [h]
    dsimp only
    split_ifs
    · exact ⟨rfl, rfl, rfl, .inl rfl⟩
    · exact ⟨rfl, rfl, rfl, .inl rfl⟩
    · exact suspected_spec { m with silences := 0 } bytes now
  | overflowed =>
    dsimp only [report, forgotten]
    rw [h]
    exact ⟨rfl, rfl, rfl, .inl rfl⟩

theorem steps_report (m : Mtu) (cause : Cause) (number bytes now : ℕ) :
    Steps m (.gone cause number bytes now) (m.report cause number bytes now) := by
  obtain ⟨candidate, lost, due, hasking⟩ | ⟨due, lost, hconfirming⟩ | hother := m.outstanding_cases number
  · have heq : m.probeGone number now = ({ m with
        search := if candidateLosses ≤ lost + 1 then .cooling (now + searchRetry)
          else .asking candidate none (lost + 1) (some (now + probeSpacing)) }, true) := by
      rw [probeGone, hasking]
      exact if_pos rfl
    have hkept : m.resets (.gone cause number bytes now) = false := by
      rw [resets, concludes, hasking]
    rw [report_probe cause bytes (congrArg Prod.snd heq), heq]
    refine Shift.kept ?_ rfl rfl hkept
    by_cases hlast : candidateLosses ≤ lost + 1
    · have hsearching : m.search ≠ .settled := by
        rw [hasking]
        rintro ⟨⟩
      exact .cooled hsearching rfl (if_pos hlast)
    · exact .again hasking rfl (if_neg hlast)
  · have heq : m.probeGone number now = (m.confirmedLost (lost + 1) now, true) := by
      rw [probeGone, hconfirming]
      exact if_pos rfl
    rw [report_probe cause bytes (congrArg Prod.snd heq), heq]
    dsimp only [confirmedLost]
    by_cases hlast : lost + 1 < confirmLosses
    · rw [if_pos hlast]
      refine Shift.kept (.counted hconfirming hlast rfl rfl) rfl rfl ?_
      rw [resets, concludes, hconfirming]
      exact decide_eq_false fun h => absurd hlast (Nat.not_lt.mpr h.2)
    · have hreset : m.resets (.gone cause number bytes now) = true := by
        rw [resets, concludes, hconfirming]
        exact decide_eq_true ⟨rfl, Nat.le_of_not_lt hlast⟩
      rw [if_neg hlast]
      cases hsmall : m.smallArrived with
      | false =>
        obtain ⟨hwidth, hfrag, hnone, hbegun, -⟩ := m.steps_withdraw
        refine Shift.cleared (.begun ?_ hwidth (hbegun ?_)) hfrag hnone hreset
        · rw [hconfirming]
          rintro ⟨⟩
        · rw [confirming, hconfirming]
          rfl
      | true =>
        exact Shift.cleared (.narrowed hconfirming (Nat.le_of_not_lt hlast) hsmall rfl rfl) rfl rfl hreset
  · have hnot : ∀ p ∈ (Trial.gone cause number bytes now).packet, m.search.outstanding ≠ some p.1 := by
      rintro p ⟨⟩
      exact hother
    have hstill : m.probeGone number now = (m, false) := probeGone_other hother
    obtain ⟨hwidth, hfrag, hsmall, hsearch⟩ := report_other cause bytes hstill
    refine Shift.kept ?_ hfrag hsmall (concludes_other hother)
    obtain hsame | ⟨hwide, hdoubt⟩ := hsearch
    · exact .still hwidth hsame hnot fun _ => concludes_other hother
    · exact .doubted hwide hwidth hdoubt

end Mtu

end Braid.Dgram
