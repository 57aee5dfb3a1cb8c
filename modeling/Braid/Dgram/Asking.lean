import Braid.Dgram.Path
import Mathlib.Order.Lattice

/-! What each call does to the probes of a path. A poll asks the address in use, if that has not
answered, and else the candidate; who is asked loses a chance and is sent the token it has to
echo, drawn if it had none. A candidate without a chance left is dropped. Sending spends the
credit of an address, and an arrival earns it some. -/

namespace Braid.Dgram

namespace Probe

variable {p p' : Probe} {s s' : Entropy}

/-- The ways a probe answers a poll. -/
inductive Asks (p : Probe) (s : Entropy) : Probe → Entropy → Option Token → Prop where
  | quiet : Asks p s p s none
  | failed {due : Option ℕ} : s.pool s.drawn = none → Asks p s { p with due } s.draw.1 none
  | again {due : Option ℕ} {token : Token} : p.token = some token →
      Asks p s { p with sent := p.sent + 1, due } s (some token)
  | fresh {due : Option ℕ} {token : Token} : p.token = none → s.pool s.drawn = some token →
      Asks p s { p with token := some token, sent := p.sent + 1, due } s.draw.1 (some token)

theorem asks_challenge (p : Probe) (now : ℕ) (s : Entropy) :
    Asks p s (p.challenge now s).1 (p.challenge now s).2.1 (p.challenge now s).2.2 := by
  unfold challenge
  split
  · exact .quiet
  split_ifs
  · exact .quiet
  split
  · exact .again ‹_›
  · rename_i hnone
    dsimp only [Entropy.draw]
    split
    · exact .failed ‹_›
    · exact .fresh hnone ‹_›

theorem Asks.credit {token : Option Token} (h : p.Asks s p' s' token) : p'.credit = p.credit := by
  cases h <;> rfl

theorem Asks.sent {token : Option Token} (h : p.Asks s p' s' token) : p'.sent = p.sent + token.toList.length := by
  cases h <;> rfl

end Probe

theorem Candidate.probe_modify (f : Probe → Probe) (c : Candidate) : (c.modify f).probe = f c.probe := by
  cases c <;> rfl

theorem Candidate.probe_contradicted (c : Candidate) : c.contradicted.probe = c.probe := by
  cases c <;> rfl

namespace PathValidator

variable {Addr : Type*} {p p₁ p' : PathValidator Addr} {s s₁ s' : Entropy}

/-- The address in use has answered or is not asked. -/
inductive Passes (p : PathValidator Addr) (s : Entropy) : PathValidator Addr → Entropy → Prop where
  | proven : p.standing = .proven → Passes p s p s
  | claimed {probe probe' : Probe} {s' : Entropy} : p.standing = .claimed probe → probe.Asks s probe' s' none →
      Passes p s { p with standing := .claimed probe' } s'

/-- The ways a path answers a poll. -/
inductive Asks (p : PathValidator Addr) (s : Entropy) :
    PathValidator Addr → Entropy → Option (Addr × Token) → Prop where
  | current {probe probe' : Probe} {s' : Entropy} {token : Token} : p.standing = .claimed probe →
      probe.Asks s probe' s' (some token) → Asks p s { p with standing := .claimed probe' } s' (some (p.current, token))
  | alone {p₁ : PathValidator Addr} {s₁ : Entropy} : Passes p s p₁ s₁ → p₁.candidate = none → Asks p s p₁ s₁ none
  | candidate {p₁ : PathValidator Addr} {s₁ s' : Entropy} {at_ : Addr} {candidate : Candidate} {probe' : Probe} {token : Token} :
      Passes p s p₁ s₁ → p₁.candidate = some (at_, candidate) → candidate.probe.Asks s₁ probe' s' (some token) →
      Asks p s { p₁ with candidate := some (at_, candidate.modify fun _ => probe') } s' (some (at_, token))
  | waits {p₁ : PathValidator Addr} {s₁ s' : Entropy} {at_ : Addr} {candidate : Candidate} {probe' : Probe} :
      Passes p s p₁ s₁ → p₁.candidate = some (at_, candidate) → candidate.probe.Asks s₁ probe' s' none →
      Asks p s { p₁ with candidate := some (at_, candidate.modify fun _ => probe') } s' none
  | dropped {p₁ : PathValidator Addr} {s₁ s' : Entropy} {at_ : Addr} {candidate : Candidate} {probe' : Probe} :
      Passes p s p₁ s₁ → p₁.candidate = some (at_, candidate) → candidate.probe.Asks s₁ probe' s' none →
      Asks p s { p₁ with candidate := none } s' none

theorem Passes.challengeCandidate (h : Passes p s p₁ s₁) (now : ℕ) :
    Asks p s (p₁.challengeCandidate now s₁).1 (p₁.challengeCandidate now s₁).2.1 (p₁.challengeCandidate now s₁).2.2 := by
  unfold PathValidator.challengeCandidate
  split
  · exact .alone h ‹_›
  · rename_i at_ candidate hcandidate
    have hasks := candidate.probe.asks_challenge now s₁
    generalize candidate.probe.challenge now s₁ = result at hasks
    obtain ⟨probe', s', token⟩ := result
    cases token with
    | some token => exact .candidate h hcandidate hasks
    | none =>
      dsimp only
      split_ifs
      · exact .dropped h hcandidate hasks
      · exact .waits h hcandidate hasks

theorem asks_pollChallenge (p : PathValidator Addr) (now : ℕ) (s : Entropy) :
    Asks p s (p.pollChallenge now s).1 (p.pollChallenge now s).2.1 (p.pollChallenge now s).2.2 := by
  unfold pollChallenge
  split
  · exact (Passes.proven ‹_›).challengeCandidate now
  · rename_i probe hstanding
    have hasks := probe.asks_challenge now s
    generalize probe.challenge now s = result at hasks
    obtain ⟨probe', s', token⟩ := result
    cases token with
    | some token => exact .current hstanding hasks
    | none => exact (Passes.claimed hstanding hasks).challengeCandidate now

end PathValidator

/-- What is weighed of a probe that is there. -/
def Standing.weigh (f : Probe → ℕ) : Standing → ℕ
  | .proven => 0
  | .claimed probe => f probe

namespace PathValidator

variable {Addr : Type*} [DecidableEq Addr] {p p₁ p' : PathValidator Addr} {s s₁ s' : Entropy}

/-- Something of the probe of an address that has not answered. -/
def weigh (f : Probe → ℕ) (p : PathValidator Addr) (dest : Addr) : ℕ := ((p.unproven dest).map f).getD 0

theorem weigh_eq (f : Probe → ℕ) (p : PathValidator Addr) (dest : Addr) : p.weigh f dest =
    if dest = p.current then p.standing.weigh f
    else (p.candidate.map fun c => if c.1 = dest then f c.2.probe else 0).getD 0 := by
  unfold weigh unproven
  split_ifs
  · cases p.standing <;> rfl
  · cases p.candidate with
    | none => rfl
    | some c =>
      dsimp only [Option.map_some, Option.getD_some]
      split_ifs <;> rfl

theorem Passes.weigh {f : Probe → ℕ} (hf : ∀ {q q' : Probe} {s s' : Entropy}, q.Asks s q' s' none → f q' = f q)
    (h : Passes p s p₁ s₁) (dest : Addr) : p₁.weigh f dest = p.weigh f dest := by
  cases h with
  | proven => rfl
  | claimed hstanding hasks =>
    rw [weigh_eq, weigh_eq, hstanding]
    dsimp only [Standing.weigh]
    rw [hf hasks]

theorem unproven_spent (p : PathValidator Addr) (dest : Addr) (size : ℕ) (at_ : Addr) :
    (p.spent dest size).unproven at_ =
      if at_ = dest then (p.unproven at_).map fun q => { q with credit := q.credit - size } else p.unproven at_ := by
  obtain ⟨current, standing, candidate⟩ := p
  unfold spent unproven
  by_cases hdest : dest = current
  · rw [if_pos hdest]
    subst hdest
    by_cases hat : at_ = dest
    · simp only [if_pos hat]
      cases standing <;> rfl
    · simp only [if_neg hat]
  · rw [if_neg hdest]
    obtain _ | ⟨other, candidate⟩ := candidate
    · simp only [Option.map_none]
      split_ifs with hcurrent hat
      · exact absurd (hat.symm.trans hcurrent) hdest
      · rfl
      · rfl
      · rfl
    · simp only [Option.map_some]
      by_cases hat : at_ = dest
      · subst hat
        simp only [if_neg hdest, if_true]
        split_ifs
        · rw [Candidate.probe_modify]
          rfl
        · rfl
      · simp only [if_neg hat]
        split_ifs with hcurrent hother hsame
        · rfl
        · exact absurd (hother.symm.trans hsame) hat
        · rfl
        · rfl

end PathValidator

inductive Probe.Heard (size now : ℕ) : Option Probe → Option Probe → Prop where
  | proven : Heard size now none none
  | proposed : Heard size now none (some (Probe.new.arrived size now))
  | renewed (probe : Probe) : Heard size now (some probe) (some (probe.arrived size now))
  | earned (probe : Probe) : Heard size now (some probe) (some (probe.earned size))

namespace PathValidator

variable {Addr : Type*} [DecidableEq Addr]

theorem heard_arrived (p : PathValidator Addr) (src : Addr) (size now : ℕ) :
    Probe.Heard size now (p.unproven src) ((p.arrived src size now).unproven src) := by
  obtain ⟨current, standing, candidate⟩ := p
  unfold arrived unproven
  by_cases hsrc : src = current
  · simp only [if_pos hsrc]
    cases standing with
    | proven => exact .proven
    | claimed probe => exact .renewed probe
  · simp only [if_neg hsrc]
    obtain _ | ⟨at_, candidate⟩ := candidate
    · simp only [if_true]
      exact .proposed
    · by_cases hat : at_ = src
      · simp only [if_pos hat]
        cases candidate with
        | proposed probe => exact .renewed probe
        | retiring probe => exact .earned probe
      · simp only [if_neg hat, if_true]
        exact .proposed

theorem unproven_arrived (p : PathValidator Addr) {src at_ : Addr} (size now : ℕ) (h : at_ ≠ src) :
    (p.arrived src size now).unproven at_ = p.unproven at_ ∨ (p.arrived src size now).unproven at_ = none := by
  obtain ⟨current, standing, candidate⟩ := p
  unfold arrived unproven
  by_cases hat : at_ = current
  · have hsrc : src ≠ current := fun heq => h (hat.trans heq.symm)
    refine .inl ?_
    simp only [if_pos hat, if_neg hsrc]
  · by_cases hsrc : src = current
    · refine .inl ?_
      simp only [if_neg hat, if_pos hsrc]
      obtain _ | ⟨other, candidate⟩ := candidate
      · rfl
      · simp only [Option.map_some, Candidate.probe_contradicted]
    · refine .inr ?_
      simp only [if_neg hat, if_neg hsrc]
      obtain _ | ⟨other, candidate⟩ := candidate
      · simp only [if_neg h.symm]
      · by_cases hother : other = src
        · simp only [if_pos hother, if_neg (hother ▸ h.symm)]
        · simp only [if_neg hother, if_neg h.symm]

end PathValidator

end Braid.Dgram
