import Braid.Foundation.System
import Braid.Client.Predict
import Mathlib.Order.Bounds.Defs

/-! What is drawn was echoed for. A run is confirmed by output that answers every
prediction owed, the last of them typed in that run and acknowledged; predictions
of other runs that are still owed have been on the terminal before. So a run whose
echo never came is never drawn, and at a prompt that does not echo that run is the
password. -/

namespace Braid.Client.Predictor

open Foundation

variable {w : CharWidths} {p p' p'' : Predictor}

/-- What a call does to the predictions it does not make: none appears, none becomes
drawn, and one that outlives its run was drawn. -/
structure Keeps (p p' : Predictor) : Prop where
  epoch : p.epoch ≤ p'.epoch
  issued : p'.issued = p.issued
  keys : ∀ key' ∈ p'.outstanding, ∃ key ∈ p.outstanding, key'.serial = key.serial ∧ key'.epoch = key.epoch ∧
    (key'.drawn → key.drawn) ∧ (p'.epoch = p.epoch ∨ key.drawn)

theorem Keeps.trans (h : Keeps p p') (h' : Keeps p' p'') : Keeps p p'' := by
  refine ⟨h.epoch.trans h'.epoch, h'.issued.trans h.issued, fun key'' hkey'' => ?_⟩
  obtain ⟨key', hkey', hserial', hepoch', hdrawn', hrun'⟩ := h'.keys key'' hkey''
  obtain ⟨key, hkey, hserial, hepoch, hdrawn, hrun⟩ := h.keys key' hkey'
  refine ⟨key, hkey, hserial'.trans hserial, hepoch'.trans hepoch, hdrawn ∘ hdrawn', ?_⟩
  rcases hrun' with hsame' | hkey'
  · exact hrun.imp_left hsame'.trans
  · exact .inr (hdrawn hkey')

theorem Keeps.of_sublist (hepoch : p'.epoch = p.epoch) (hissued : p'.issued = p.issued)
    (hsub : p'.outstanding ⊆ p.outstanding) : Keeps p p' :=
  ⟨hepoch.ge, hissued, fun key hkey => ⟨key, hsub hkey, rfl, rfl, id, .inl hepoch⟩⟩

theorem keeps_refl (p : Predictor) : Keeps p p := .of_sublist rfl rfl (List.Subset.refl _)

theorem keeps_stall (p : Predictor) : Keeps p p.stall := by
  refine ⟨Nat.le_succ _, rfl, fun key hkey => ?_⟩
  obtain ⟨hmem, hdrawn⟩ := List.mem_filter.mp hkey
  exact ⟨key, hmem, rfl, rfl, id, .inr hdrawn⟩

theorem keeps_endRun (w : CharWidths) (p : Predictor) (follows : List UInt8) : Keeps p (p.endRun w follows).1 :=
  ⟨Nat.le_succ _, rfl, fun _ hkey => absurd hkey List.not_mem_nil⟩

theorem promote_trust (p : Predictor) (matched : ℕ) :
    (p.promote matched).confirmedEpoch = p.confirmedEpoch ∨
      p.confirms matched = some (p.promote matched).confirmedEpoch := by
  unfold promote
  split <;> rename_i hconfirms
  · rw [hconfirms]
    exact (le_total _ _).imp max_eq_left fun hle => congrArg some (max_eq_right hle).symm
  · exact .inl rfl

theorem keeps_promote (p : Predictor) (matched : ℕ) : Keeps p (p.promote matched) := by
  unfold promote
  split
  · exact .of_sublist rfl rfl (List.Subset.refl _)
  · exact keeps_refl p

theorem keeps_takeEcho (p : Predictor) (session : List UInt8) (cue : InputCue) : Keeps p (p.takeEcho session cue) := by
  have hcue : Keeps p { p with cue } := .of_sublist rfl rfl (List.Subset.refl _)
  have hpromote := hcue.trans (keeps_promote { p with cue } (p.echoed session))
  unfold takeEcho
  dsimp only
  split_ifs
  · exact hpromote.trans (.of_sublist rfl rfl (List.drop_subset _ _))
  · exact hpromote

theorem keeps_rewriteRow (w : CharWidths) (p : Predictor) (rest : List UInt8) : Keeps p (p.rewriteRow w rest).1 := by
  unfold rewriteRow
  dsimp only
  split
  · exact keeps_endRun w p []
  · refine (keeps_promote p (p.restatedTail rest)).trans ?_
    refine ⟨le_rfl, rfl, fun key' hkey' => ?_⟩
    obtain ⟨key, hkey, rfl⟩ := List.mem_map.mp hkey'
    refine ⟨key, ?_, rfl, rfl, Bool.noConfusion, .inl rfl⟩
    split_ifs at hkey
    · exact List.mem_of_mem_drop hkey
    · exact hkey
    · exact absurd hkey List.not_mem_nil

theorem keeps_absorb (w : CharWidths) (p : Predictor) (session : List UInt8) (cue : InputCue) (ack : Option ℕ) :
    Keeps p (p.absorb w session cue ack).1 := by
  refine (keeps_takeEcho p session cue).trans ?_
  unfold absorb
  dsimp only
  generalize p.takeEcho session cue = q
  split_ifs
  · exact .of_sublist rfl rfl (List.Subset.refl _)
  · exact keeps_rewriteRow w q _
  · split
    · exact .of_sublist rfl rfl (List.Subset.refl _)
    · exact keeps_endRun w q (session.drop (p.echoed session))

/-- The output answers what is owed: it starts with some of it and ends with the rest. -/
def Answers (session owed : List UInt8) : Prop :=
  ∃ front back middle, owed = front ++ back ∧ session = front ++ middle ++ back

/-- The output confirms `run` in `p`. -/
def Confirms (p : Predictor) (session : List UInt8) (run : ℕ) : Prop :=
  Answers session (p.outstanding.map (·.byte)) ∧
    ∃ last seq highest, p.outstanding.getLast? = some last ∧ last.epoch = run ∧ last.sentAs = some seq ∧
      p.delivered = some highest ∧ seq ≤ highest

theorem confirms_eq_some {matched run : ℕ} (h : p.confirms matched = some run) :
    0 < matched ∧ p.outstanding.length ≤ matched ∧
      ∃ last seq highest, p.outstanding.getLast? = some last ∧ last.epoch = run ∧ last.sentAs = some seq ∧
        p.delivered = some highest ∧ seq ≤ highest := by
  unfold confirms at h
  split_ifs at h with hnone
  obtain ⟨last, hlast, hrun⟩ := Option.bind_eq_some_iff.mp h
  split_ifs at hrun with hsent
  simp only [Option.any_eq_true, decide_eq_true_eq] at hsent
  obtain ⟨seq, hseq, highest, hdelivered, hle⟩ := hsent
  exact ⟨by omega, by omega, last, seq, highest, hlast, Option.some.inj hrun, hseq, hdelivered, hle⟩

theorem restatedTail_longest (p : Predictor) (rest : List UInt8) :
    Border.Longest (p.outstanding.map (·.byte)) rest (p.restatedTail rest) := by
  unfold restatedTail
  split_ifs with hempty
  · refine ⟨Nat.zero_le _, by simp, fun j hj hends => ?_⟩
    rcases hempty with hnone | hnil
    · simpa [List.isEmpty_iff.mp hnone] using hj
    · rw [List.isEmpty_iff.mp hnil, List.suffix_nil, List.take_eq_nil_iff, List.map_eq_nil_iff] at hends
      rcases hends with hzero | hnone
      · exact hzero.le
      · simpa [hnone] using hj
  · have hne : p.outstanding.map (·.byte) ≠ [] := fun hnil =>
      hempty (.inl (by rw [List.map_eq_nil_iff.mp hnil]; rfl))
    exact Border.scan_longest hne rest

/-- A rewrite accounts for as many predictions as it can: the most that end it. -/
theorem restatedTail_isGreatest (p : Predictor) (rewrite : List UInt8) :
    IsGreatest {k | k ≤ p.outstanding.length ∧ (p.outstanding.map (·.byte)).take k <:+ rewrite} (p.restatedTail rewrite) := by
  obtain ⟨hle, hends, hmost⟩ := p.restatedTail_longest rewrite
  rw [List.length_map] at hle hmost
  exact ⟨⟨hle, hends⟩, fun k hk => hmost k hk.1 hk.2⟩

theorem takeEcho_trust (p : Predictor) (session : List UInt8) (cue : InputCue) :
    (p.takeEcho session cue).confirmedEpoch = p.confirmedEpoch ∨
      Confirms p session (p.takeEcho session cue).confirmedEpoch := by
  have hpromoted : (p.takeEcho session cue).confirmedEpoch =
      (promote { p with cue } (p.echoed session)).confirmedEpoch := by
    unfold takeEcho
    dsimp only
    split_ifs <;> rfl
  rw [hpromoted]
  refine (promote_trust { p with cue } (p.echoed session)).imp_right fun hconfirms => ?_
  obtain ⟨-, hcovers, hlast⟩ := confirms_eq_some hconfirms
  have htake := echoed_take p session
  rw [List.take_of_length_le (by simpa using hcovers)] at htake
  refine ⟨⟨_, [], session.drop (p.echoed session), (List.append_nil _).symm, ?_⟩, hlast⟩
  rw [htake, List.append_nil, List.take_append_drop]

theorem rewriteRow_trust (w : CharWidths) (p : Predictor) (rest : List UInt8) :
    (p.rewriteRow w rest).1.confirmedEpoch = p.confirmedEpoch ∨
      Confirms p rest (p.rewriteRow w rest).1.confirmedEpoch := by
  unfold rewriteRow
  dsimp only
  split_ifs
  · exact .inl rfl
  all_goals
    refine (p.promote_trust (p.restatedTail rest)).imp_right fun hconfirms => ?_
    obtain ⟨-, hcovers, hlast⟩ := confirms_eq_some hconfirms
    have hsuffix := (p.restatedTail_longest rest).2.1
    rw [List.take_of_length_le (by simpa using hcovers)] at hsuffix
    obtain ⟨middle, hmiddle⟩ := hsuffix
    exact ⟨⟨[], _, middle, rfl, hmiddle.symm⟩, hlast⟩

/-- Output that restates what an echo at its front left owed answers all of it. -/
theorem Confirms.of_takeEcho {session : List UInt8} {cue : InputCue} {run : ℕ}
    (h : Confirms (p.takeEcho session cue) (session.drop (p.echoed session)) run) : Confirms p session run := by
  obtain ⟨⟨front, back, middle, howed, hrest⟩, last, seq, highest, hlast, hepoch, hsent, hdelivered, hle⟩ := h
  rw [takeEcho_outstanding] at howed hlast
  refine ⟨⟨session.take (p.echoed session) ++ front, back, middle, ?_, ?_⟩, last, seq, highest, ?_, hepoch, hsent, ?_, hle⟩
  · rw [← echoed_take, List.append_assoc, ← howed, List.map_drop, List.take_append_drop]
  · rw [List.append_assoc, List.append_assoc, ← List.append_assoc front, ← hrest, List.take_append_drop]
  · rw [← List.take_append_drop (p.echoed session) p.outstanding, List.getLast?_append, hlast]
    rfl
  · rw [← hdelivered, takeEcho_delivered]

theorem absorb_trust (w : CharWidths) (p : Predictor) (session : List UInt8) (cue : InputCue) (ack : Option ℕ) :
    (p.absorb w session cue ack).1.confirmedEpoch = p.confirmedEpoch ∨
      Confirms p session (p.absorb w session cue ack).1.confirmedEpoch := by
  have hecho := p.takeEcho_trust session cue
  unfold absorb
  dsimp only
  split_ifs
  · exact hecho
  · rcases (p.takeEcho session cue).rewriteRow_trust w (session.drop (p.echoed session)) with hsame | hconfirms
    · rw [hsame]
      exact hecho
    · exact .inr hconfirms.of_takeEcho
  · split <;> exact hecho

theorem absorb_delivered (w : CharWidths) (p : Predictor) (session : List UInt8) (cue : InputCue) (ack : Option ℕ) :
    (p.absorb w session cue ack).1.delivered = p.delivered := by
  rw [← p.takeEcho_delivered session cue]
  unfold absorb rewriteRow
  dsimp only
  split_ifs
  · rfl
  · rfl
  · exact promote_delivered _ _
  · exact promote_delivered _ _
  · exact promote_delivered _ _
  · split <;> rfl

/-- Predictions are queued behind those of `p`, in its run and undrawn. -/
structure Extends (p p' : Predictor) : Prop where
  epoch : p'.epoch = p.epoch
  trust : p'.confirmedEpoch = p.confirmedEpoch
  delivered : p'.delivered = p.delivered
  issued : p.issued ≤ p'.issued
  keys : ∀ key ∈ p'.outstanding, key ∈ p.outstanding ∨
    key.epoch = p.epoch ∧ p.issued ≤ key.serial ∧ key.serial < p'.issued ∧ key.drawn = false

theorem Extends.trans (h : Extends p p') (h' : Extends p' p'') : Extends p p'' := by
  refine ⟨h'.epoch.trans h.epoch, h'.trust.trans h.trust, h'.delivered.trans h.delivered, h.issued.trans h'.issued, ?_⟩
  intro key hkey
  rcases h'.keys key hkey with hold | ⟨hepoch, hissued, hserial, hdrawn⟩
  · refine (h.keys key hold).imp_right ?_
    rintro ⟨hepoch, hissued, hserial, hdrawn⟩
    exact ⟨hepoch, hissued, hserial.trans_le h'.issued, hdrawn⟩
  · exact .inr ⟨hepoch.trans h.epoch, h.issued.trans hissued, hserial, hdrawn⟩

theorem extends_queue (p : Predictor) (bytes : List UInt8) (sentAs : Option ℕ) : Extends p (p.queue bytes sentAs) := by
  refine ⟨rfl, rfl, rfl, Nat.le_add_right _ _, fun key hkey => ?_⟩
  rcases List.mem_append.mp hkey with hold | hnew
  · exact .inl hold
  · obtain ⟨⟨byte, serial⟩, hmem, rfl⟩ := List.mem_map.mp hnew
    have hbounds := List.mem_zipIdx hmem
    exact .inr ⟨rfl, hbounds.1, hbounds.2.1, rfl⟩

theorem extends_eraseCells (sentAs : Option ℕ) (cells : ℕ) (p : Predictor) : Extends p (eraseCells sentAs cells p) := by
  induction cells generalizing p with
  | zero => exact ⟨rfl, rfl, rfl, le_rfl, fun _ => .inl⟩
  | succ cells ih =>
    rw [eraseCells]
    split
    · have hpop : Extends p { p with runCells := p.runCells.dropLast } := ⟨rfl, rfl, rfl, le_rfl, fun _ => .inl⟩
      exact (hpop.trans (extends_queue _ _ _)).trans (ih _)
    · exact ih p

theorem predict_cases (w : CharWidths) (p : Predictor) (typed : List UInt8) (sentAs : Option ℕ) (since : Typing) :
    ∃ q, Keeps p q ∧ q.confirmedEpoch = p.confirmedEpoch ∧ q.delivered = p.delivered ∧
      (p.predict w typed sentAs since = (q, []) ∨ ∃ q', Extends q q' ∧
        (p.predict w typed sentAs since = (q', []) ∨
          q'.confirmed ∧ p.predict w typed sentAs since = q'.release w)) := by
  have hq : Keeps p (if since = .interrupted then p.stall else p) ∧
      (if since = .interrupted then p.stall else p).confirmedEpoch = p.confirmedEpoch ∧
      (if since = .interrupted then p.stall else p).delivered = p.delivered := by
    split_ifs
    · exact ⟨keeps_stall p, rfl, rfl⟩
    · exact ⟨keeps_refl p, rfl, rfl⟩
  unfold predict
  generalize (if since = .interrupted then p.stall else p) = q at hq ⊢
  obtain ⟨hkeeps, htrust, hdelivered⟩ := hq
  have hstall : Keeps p q.stall ∧ q.stall.confirmedEpoch = p.confirmedEpoch ∧ q.stall.delivered = p.delivered :=
    ⟨hkeeps.trans (keeps_stall q), htrust, hdelivered⟩
  dsimp only
  split
  · exact ⟨_, hstall.1, hstall.2.1, hstall.2.2, .inl rfl⟩
  · split
    · split_ifs with hroom hconfirmed
      · refine ⟨q, hkeeps, htrust, hdelivered, .inr ⟨_, ?_, .inr ⟨hconfirmed, rfl⟩⟩⟩
        exact (extends_queue q typed sentAs).trans ⟨rfl, rfl, rfl, le_rfl, fun _ => .inl⟩
      · refine ⟨q, hkeeps, htrust, hdelivered, .inr ⟨_, ?_, .inl rfl⟩⟩
        exact (extends_queue q typed sentAs).trans ⟨rfl, rfl, rfl, le_rfl, fun _ => .inl⟩
      · exact ⟨_, hstall.1, hstall.2.1, hstall.2.2, .inl rfl⟩
    · rename_i cells _
      split_ifs with hconfirmed
      · have hextends := extends_eraseCells sentAs cells q
        refine ⟨q, hkeeps, htrust, hdelivered, .inr ⟨_, hextends, .inr ⟨?_, rfl⟩⟩⟩
        unfold confirmed at hconfirmed ⊢
        rw [hextends.epoch, hextends.trust]
        exact hconfirmed.1
      · exact ⟨_, hstall.1, hstall.2.1, hstall.2.2, .inl rfl⟩
    · exact ⟨_, hstall.1, hstall.2.1, hstall.2.2, .inl rfl⟩

section Runs

variable (w : CharWidths) (mode : Prediction)

/-- The call saw output that answers everything then owed, the last of it typed in
`run` and sent under a sequence already acknowledged. -/
def EchoedBy (run : ℕ) (before : List Call) : Call → Prop
  | .absorb session _ _ =>
    Answers session ((after w mode before).outstanding.map (·.byte)) ∧
      ∃ last seq highest, (after w mode before).outstanding.getLast? = some last ∧ last.epoch = run ∧
        last.sentAs = some seq ∧ .acknowledged highest ∈ before ∧ seq ≤ highest
  | _ => False

def DrawnBy (serial : ℕ) (before : List Call) : Call → Prop
  | .predict typed sentAs since =>
    ∃ key ∈ ((after w mode before).predict w typed sentAs since).2, key.serial = serial
  | _ => False

def TypedBy (serial run : ℕ) (before : List Call) : Call → Prop
  | .predict typed sentAs since =>
    let p := after w mode before
    let p' := (p.predict w typed sentAs since).1
    p.issued ≤ serial ∧ serial < p'.issued ∧ p'.epoch = run
  | _ => False

def Shown (calls : List Call) (key : Pending) : Prop :=
  Earlier (DrawnBy w mode key.serial) calls ∧ Earlier (EchoedBy w mode key.epoch) calls

structure Trusted (calls : List Call) (p : Predictor) : Prop where
  epoch : 0 < p.epoch
  echoed : 0 < p.confirmedEpoch → Earlier (EchoedBy w mode p.confirmedEpoch) calls
  acked : ∀ highest, p.delivered = some highest → .acknowledged highest ∈ calls
  typed : ∀ key ∈ p.outstanding, Earlier (TypedBy w mode key.serial key.epoch) calls
  drawn : ∀ key ∈ p.outstanding, key.drawn → Shown w mode calls key
  stale : ∀ key ∈ p.outstanding, key.epoch = p.epoch ∨ Shown w mode calls key

variable {w mode} {calls : List Call}

theorem Shown.concat {key : Pending} (h : Shown w mode calls key) (call : Call) : Shown w mode (calls ++ [call]) key :=
  ⟨h.1.concat call, h.2.concat call⟩

section

variable (h : Trusted w mode calls p)

include h

theorem Trusted.concat (call : Call) : Trusted w mode (calls ++ [call]) p where
  epoch := h.epoch
  echoed hpos := (h.echoed hpos).concat call
  acked highest hdelivered := List.mem_append_left _ (h.acked highest hdelivered)
  typed key hkey := (h.typed key hkey).concat call
  drawn key hkey hdrawn := (h.drawn key hkey hdrawn).concat call
  stale key hkey := (h.stale key hkey).imp_right fun hshown => hshown.concat call

theorem Trusted.keeps (hkeeps : Keeps p p')
    (hechoed : 0 < p'.confirmedEpoch → Earlier (EchoedBy w mode p'.confirmedEpoch) calls)
    (hacked : ∀ highest, p'.delivered = some highest → .acknowledged highest ∈ calls) : Trusted w mode calls p' := by
  refine ⟨h.epoch.trans_le hkeeps.epoch, hechoed, hacked, ?_, ?_, ?_⟩
  all_goals
    intro key' hkey'
    obtain ⟨key, hkey, hserial, hepoch, hdrawn, hrun⟩ := hkeeps.keys key' hkey'
    have hshown : Shown w mode calls key → Shown w mode calls key' := by
      rw [Shown, Shown, hserial, hepoch]
      exact id
  · rw [hserial, hepoch]
    exact h.typed key hkey
  · exact fun hdrawn' => hshown (h.drawn key hkey (hdrawn hdrawn'))
  · rcases hrun with hsame | hdrawn'
    · exact (h.stale key hkey).imp (fun heq => by rw [hepoch, hsame, heq]) hshown
    · exact .inr (hshown (h.drawn key hkey hdrawn'))

theorem Trusted.same (hkeeps : Keeps p p') (htrust : p'.confirmedEpoch = p.confirmedEpoch)
    (hdelivered : p'.delivered = p.delivered) : Trusted w mode calls p' :=
  h.keeps hkeeps (htrust ▸ h.echoed) (hdelivered ▸ h.acked)

theorem Trusted.extends (hextends : Extends p p')
    (htyped : ∀ serial, p.issued ≤ serial → serial < p'.issued → Earlier (TypedBy w mode serial p.epoch) calls) :
    Trusted w mode calls p' := by
  refine ⟨hextends.epoch ▸ h.epoch, hextends.trust ▸ h.echoed, hextends.delivered ▸ h.acked, ?_, ?_, ?_⟩
  all_goals
    intro key hkey
    rcases hextends.keys key hkey with hold | ⟨hepoch, hissued, hserial, hdrawn⟩
  · exact h.typed key hold
  · rw [hepoch]
    exact htyped key.serial hissued hserial
  · exact h.drawn key hold
  · exact fun hdrawn' => absurd (hdrawn.symm.trans hdrawn') Bool.false_ne_true
  · rw [hextends.epoch]
    exact h.stale key hold
  · exact .inl (hepoch.trans hextends.epoch.symm)

/-- What a confirmed run owes is of that run or was shown before, and was echoed either way. -/
theorem Trusted.owed (hconfirmed : p.confirmed) {key : Pending}
    (hkey : key.epoch = p.epoch ∨ Shown w mode calls key) : Earlier (EchoedBy w mode key.epoch) calls := by
  rcases hkey with hcurrent | hshown
  · have heq : p.epoch = p.confirmedEpoch := of_decide_eq_true hconfirmed
    rw [hcurrent, heq]
    exact h.echoed (heq ▸ h.epoch)
  · exact hshown.2

end

theorem Trusted.release {call : Call} (h : Trusted w mode (calls ++ [call]) p) (hconfirmed : p.confirmed)
    (hdraws : ∀ key ∈ (p.release w).2, DrawnBy w mode key.serial calls call) :
    Trusted w mode (calls ++ [call]) (p.release w).1 := by
  unfold Predictor.release at hdraws ⊢
  split_ifs at hdraws ⊢
  · refine ⟨h.epoch, h.echoed, h.acked, ?_, ?_, ?_⟩
    all_goals
      intro key' hkey'
      obtain ⟨key, hkey, rfl⟩ := List.mem_map.mp hkey'
    · exact h.typed key hkey
    · intro _
      refine ⟨?_, h.owed hconfirmed (h.stale key hkey)⟩
      cases hdrawn : key.drawn with
      | true => exact (h.drawn key hkey hdrawn).1
      | false => exact earlier_last (hdraws key (List.mem_filter.mpr ⟨hkey, by rw [hdrawn]; rfl⟩))
    · exact h.stale key hkey
  · exact h

theorem mem_release {key : Pending} (h : key ∈ (p.release w).2) : key ∈ p.outstanding := by
  unfold Predictor.release at h
  split_ifs at h
  · exact List.mem_of_mem_filter h
  · exact absurd h List.not_mem_nil

theorem release_run (w : CharWidths) (p : Predictor) :
    (p.release w).1.epoch = p.epoch ∧ (p.release w).1.issued = p.issued := by
  unfold Predictor.release
  split_ifs <;> exact ⟨rfl, rfl⟩

theorem Trusted.predict {typed : List UInt8} {sentAs : Option ℕ} {since : Typing}
    (h : Trusted w mode calls (after w mode calls)) :
    let drawn := (after w mode calls).predict w typed sentAs since
    let call := Call.predict typed sentAs since
    Trusted w mode (calls ++ [call]) drawn.1 ∧
      ∀ key ∈ drawn.2, Earlier (TypedBy w mode key.serial key.epoch) (calls ++ [call]) ∧
        Earlier (EchoedBy w mode key.epoch) calls ∧
        (key.epoch = drawn.1.epoch ∨ Earlier (DrawnBy w mode key.serial) calls) := by
  obtain ⟨q, hkeeps, htrust, hdelivered, hcases⟩ := (after w mode calls).predict_cases w typed sentAs since
  have hq := h.same hkeeps htrust hdelivered
  intro drawn call
  have hq' : Trusted w mode (calls ++ [call]) q := hq.concat call
  rcases hcases with hends | ⟨q', hextends, hqueued⟩
  · have hdrawn : drawn = (q, []) := hends
    rw [hdrawn]
    exact ⟨hq', fun key hkey => absurd hkey List.not_mem_nil⟩
  -- the run goes on, so what is queued now is typed in it
  have hrun : drawn.1.epoch = q'.epoch ∧ drawn.1.issued = q'.issued := by
    have hdrawn : drawn = (q', []) ∨ drawn = q'.release w := hqueued.imp_right And.right
    rcases hdrawn with hdrawn | hdrawn <;> rw [hdrawn]
    · exact ⟨rfl, rfl⟩
    · exact q'.release_run w
  have htyped : ∀ serial, q.issued ≤ serial → serial < q'.issued →
      Earlier (TypedBy w mode serial q.epoch) (calls ++ [call]) := by
    intro serial hissued hserial
    exact earlier_last ⟨hkeeps.issued ▸ hissued, hrun.2 ▸ hserial, hrun.1.trans hextends.epoch⟩
  have hq'' := hq'.extends hextends htyped
  rcases hqueued with hdrawn | ⟨hconfirmed, hdrawn⟩
  · have hdrawn : drawn = (q', []) := hdrawn
    rw [hdrawn]
    exact ⟨hq'', fun key hkey => absurd hkey List.not_mem_nil⟩
  · have hdrawn : drawn = q'.release w := hdrawn
    have hmem : ∀ key ∈ drawn.2, key ∈ q'.outstanding := fun key hkey => mem_release (hdrawn ▸ hkey)
    refine ⟨?_, fun key hkey => ⟨hq''.typed key (hmem key hkey), ?_⟩⟩
    · have hdraws : ∀ key ∈ (q'.release w).2, DrawnBy w mode key.serial calls call := by
        intro key hkey
        rw [← hdrawn] at hkey
        exact ⟨key, hkey, rfl⟩
      rw [hdrawn]
      exact hq''.release hconfirmed hdraws
    · have hstale : key.epoch = q.epoch ∨ Shown w mode calls key := by
        rcases hextends.keys key (hmem key hkey) with hold | hnew
        · exact hq.stale key hold
        · exact .inl hnew.1
      have hq_confirmed : q.confirmed := by
        unfold confirmed at hconfirmed ⊢
        rwa [← hextends.epoch, ← hextends.trust]
      refine ⟨hq.owed hq_confirmed hstale, hstale.imp (fun heq => ?_) And.left⟩
      rw [hrun.1, hextends.epoch, heq]

variable (w mode) in
theorem trusted_after (calls : List Call) : Trusted w mode calls (after w mode calls) := by
  induction calls using List.reverseRecOn with
  | nil => exact ⟨Nat.one_pos, fun h => absurd h (Nat.lt_irrefl 0), nofun, nofun, nofun, nofun⟩
  | append_singleton calls call ih =>
    have hstep : after w mode (calls ++ [call]) = (after w mode calls).step w call := by simp [after]
    rw [hstep]
    have ih' := ih.concat call
    cases call with
    | predict typed sentAs since => exact ih.predict.1
    | absorb session cue ack =>
      refine ih'.keeps (keeps_absorb w _ session cue ack) (fun hpos => ?_) ?_
      · rcases absorb_trust w (after w mode calls) session cue ack with hsame | ⟨hanswers, hlast⟩
        · change 0 < ((after w mode calls).absorb w session cue ack).1.confirmedEpoch at hpos
          rw [step, hsame]
          exact ih'.echoed (hsame ▸ hpos)
        · obtain ⟨last, seq, highest, hlast, hepoch, hsent, hdelivered, hle⟩ := hlast
          exact earlier_last ⟨hanswers, last, seq, highest, hlast, hepoch, hsent, ih.acked highest hdelivered, hle⟩
      · rw [step, absorb_delivered]
        exact ih'.acked
    | acknowledged highest =>
      refine ih'.keeps (.of_sublist rfl rfl (List.Subset.refl _)) ih'.echoed fun newest hnewest => ?_
      cases hnewest
      cases hdelivered : (after w mode calls).delivered with
      | none => simp
      | some old =>
        rcases le_total old highest with hle | hle
        · simp [max_eq_right hle]
        · simpa [max_eq_left hle] using ih'.acked old hdelivered
    | echoAck ack =>
      change Trusted w mode _ ((after w mode calls).echoAck w ack).1
      rcases (after w mode calls).echoAck_cases w ack with hstays | hends
      · rw [hstays]
        exact ih'
      · rw [hends]
        exact ih'.same (keeps_endRun w _ []) rfl rfl
    | invalidate =>
      refine ih'.same ((keeps_endRun w _ []).trans ?_) rfl rfl
      exact .of_sublist rfl rfl (List.Subset.refl _)
    | resized => exact ih'.same (.of_sublist rfl rfl (List.Subset.refl _)) rfl rfl
    | observedRtt srtt =>
      change Trusted w mode _ ((after w mode calls).observedRtt srtt)
      unfold Predictor.observedRtt
      split
      · exact ih'
      · split_ifs
        · exact ih'.same (.of_sublist rfl rfl (List.Subset.refl _)) rfl rfl
        · exact ih'.same (.of_sublist rfl rfl (List.Subset.refl _)) rfl rfl
        · exact ih'

/-- What a keystroke draws was typed in a run that the session echoed before: either
the run that is still going, or one whose prediction had been drawn already. -/
theorem predict_draws_echoed (w : CharWidths) (mode : Prediction) (calls : List Call) (typed : List UInt8)
    (sentAs : Option ℕ) (since : Typing) :
    let drawn := (after w mode calls).predict w typed sentAs since
    ∀ key ∈ drawn.2,
      Earlier (TypedBy w mode key.serial key.epoch) (calls ++ [.predict typed sentAs since]) ∧
        Earlier (EchoedBy w mode key.epoch) calls ∧
        (key.epoch = drawn.1.epoch ∨ Earlier (DrawnBy w mode key.serial) calls) :=
  (trusted_after w mode calls).predict.2

/-- A prompt, one keystroke, and the echo of it. -/
def echoedKeystroke : List Call :=
  [.absorb [0x24, 0x20] (.echoing 40) none, .predict [0x6c] (some 1) .continuous, .acknowledged 1,
    .absorb [0x6c] (.echoing 40) (some 1)]

theorem predict_draws_echoedKeystroke :
    let drawn := (after asciiColumns .always echoedKeystroke).predict asciiColumns [0x73] (some 2) .continuous
    drawn.2 = [⟨0x73, 2, some 2, false, 1⟩] ∧ Earlier (EchoedBy asciiColumns .always 2) echoedKeystroke := by
  have hdrawn : ((after asciiColumns .always echoedKeystroke).predict asciiColumns [0x73] (some 2) .continuous).2 =
      [⟨0x73, 2, some 2, false, 1⟩] := by decide +kernel
  exact ⟨hdrawn, (predict_draws_echoed asciiColumns .always echoedKeystroke [0x73] (some 2) .continuous _
    (hdrawn ▸ List.mem_singleton_self _)).2.1⟩

end Runs

end Braid.Client.Predictor
