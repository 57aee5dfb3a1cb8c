import Braid.Dgram.Inquiry

/-! The challenges counted against each address beside those emitted to it, over a whole run of an
endpoint. The two agree as long as every poll at which a challenge falls due can emit it: the
endpoint asks the path for the challenge, which counts it, before it asks whether the address
has earned the bytes. -/

namespace Braid.Dgram

open Foundation

variable {Secret Key Addr : Type*}

structure Docket (Secret Key Addr : Type*) where
  endpoint : Endpoint Secret Key (Carrier Addr) Addr
  counted : Addr → ℕ
  challenged : List (Addr × List UInt8)

namespace Docket

variable [DecidableEq Addr]

/-- As many challenges were emitted to an address as were counted against it. -/
def Balanced (g : Docket Secret Key Addr) : Prop := ∀ dest, g.counted dest = g.challenged.countP (·.1 = dest)

variable (st : Setting Secret Key (Carrier Addr) Addr)

def next (g : Docket Secret Key Addr) (a : Call Addr) : Option (Docket Secret Key Addr) :=
  (g.endpoint.call st.cipher st.transport a).map fun (e, out, _) =>
    { endpoint := e
      counted := fun dest => g.counted dest + (e.transport.path.chances dest - g.endpoint.transport.path.chances dest)
      challenged := g.challenged ++ challengesIn st.cipher st.root g.endpoint.keys.sending out }

def system : System (Docket Secret Key Addr) (Call Addr) where
  init g := (∃ role, Endpoint.Opened st role g.endpoint) ∧ g.counted = 0 ∧ g.challenged = []
  next := next st

/-- A poll owes something else first, or the challenge that is due at it can be emitted. -/
def Affords (g : Docket Secret Key Addr) : Call Addr → Prop
  | .pollTransmit now => g.endpoint.Owes st.cipher now ∨
      ∀ asked ∈ (g.endpoint.asking.1.pollChallenge now g.endpoint.asking.2).2.2,
        g.endpoint.Clear st.cipher asked.1 challengeBytes
  | _ => True

instance (g : Docket Secret Key Addr) (a : Call Addr) : Decidable (Affords st g a) :=
  match a with
  | .pollTransmit _ => inferInstanceAs (Decidable (_ ∨ _))
  | .connect _ | .listen _ | .accept .. | .commit | .release | .send .. | .close _ | .rotate | .recv .. | .pathRefused ..
  | .rekeyEvery _ => .isTrue trivial

variable {st} {cipher : Cipher Secret Key} {root : Secret} {cid : ConnectionId} {dialling listening : Side}
  {g g' : Docket Secret Key Addr} {a : Call Addr}

theorem Balanced.of_quiet {e : Endpoint Secret Key (Carrier Addr) Addr} (h : g.Balanced)
    (hchances : ∀ dest, e.transport.path.chances dest ≤ g.endpoint.transport.path.chances dest) :
    Balanced ⟨e, fun dest => g.counted dest + (e.transport.path.chances dest - g.endpoint.transport.path.chances dest),
      g.challenged ++ []⟩ := by
  intro dest
  dsimp only
  rw [Nat.sub_eq_zero_of_le (hchances dest), Nat.add_zero, List.append_nil]
  exact h dest

theorem chances_quiet {sending : Direction} {p : PathValidator Addr × Entropy} {e : Endpoint Secret Key (Carrier Addr) Addr}
    {out : Option (Addr × List UInt8)} (h : Endpoint.Quiet cipher root sending p e.asking out) (dest : Addr) :
    e.transport.path.chances dest = p.1.chances dest := by
  obtain ⟨-, -, hpath | ⟨charged, size, hpath⟩⟩ := h
  · exact congrArg (·.chances dest) hpath
  · exact (congrArg (·.chances dest) hpath).trans (p.1.chances_spent charged size dest)

/-- A call keeps the balance exactly if it affords the challenge it counts. -/
theorem Balanced.next_iff (hc : cipher.Lawful) (hk : cipher.KeepsLength) (hfit : g.endpoint.Fit cipher root) (h : g.Balanced)
    (hs : next (carried cipher root cid dialling listening) g a = some g') :
    g'.Balanced ↔ Affords (carried cipher root cid dialling listening) g a := by
  obtain ⟨⟨e, out, took⟩, hcall, rfl⟩ := Option.map_eq_some_iff.mp hs
  dsimp only [carried] at hcall ⊢
  cases Endpoint.course_call hc hk hfit hcall with
  | quiet hnot hquiet =>
    have hkept : Affords (carried cipher root cid dialling listening) g a := by
      cases a with
      | pollTransmit now => exact absurd rfl (hnot now)
      | _ => trivial
    rw [hquiet.said]
    exact iff_of_true (h.of_quiet fun dest => (chances_quiet hquiet dest).le) hkept
  | heard hopen hentropy hpath =>
    refine iff_of_true (h.of_quiet fun dest => ?_) trivial
    obtain hpath | ⟨-, hpath⟩ := hpath
    · rw [hpath]
      exact PathValidator.chances_arrived _ _ _ _ _
    · rw [hpath]
      exact (PathValidator.chances_answered _ _ _ _).trans (PathValidator.chances_arrived _ _ _ _ _)
  | @polled now _ hinquires =>
    have hasks := g.endpoint.asking.1.asks_pollChallenge now g.endpoint.asking.2
    cases hinquires with
    | first howes hquiet =>
      rw [hquiet.said]
      exact iff_of_true (h.of_quiet fun dest => (chances_quiet hquiet dest).le) (.inl howes)
    | rest hpolled hquiet =>
      rw [hpolled] at hasks
      rw [hquiet.said]
      refine iff_of_true (h.of_quiet fun dest => ?_) (.inr fun asked hasked => ?_)
      · exact (chances_quiet hquiet dest).le.trans (hasks.chances_le dest)
      · rw [hpolled] at hasked
        cases hasked
    | @starved p s dest token howes hpolled hnot hasking hout =>
      rw [hpolled] at hasks
      refine iff_of_false (fun hbalanced => ?_) ?_
      · have hcounted := hbalanced dest
        have hpath : e.transport.path = p := congrArg Prod.fst hasking
        dsimp only at hcounted
        have hchances : p.chances dest = g.endpoint.transport.path.chances dest + _ := hasks.chances hfit.apart dest
        rw [hpath, hchances, if_pos rfl, hout, challengesIn, List.append_nil, h dest] at hcounted
        omega
      · refine fun haffords => hnot (haffords.resolve_left howes (dest, token) ?_)
        rw [hpolled]
        rfl
    | @asked p s dest token size hpolled hclear hasking hsaid =>
      rw [hpolled] at hasks
      refine iff_of_true (fun at_ => ?_) (.inr fun asked hasked => ?_)
      · have hpath : e.transport.path = p.spent dest size := congrArg Prod.fst hasking
        have hchances : p.chances at_ = g.endpoint.transport.path.chances at_ + _ := hasks.chances hfit.apart at_
        dsimp only
        rw [hpath, p.chances_spent, hchances, hsaid, List.countP_append, List.countP_singleton, ← h at_]
        by_cases hat : at_ = dest
        · simp [hat]
        · simp [hat, Ne.symm hat]
      · rw [hpolled] at hasked
        cases hasked
        exact hclear

theorem fit (h : (system (carried cipher root cid dialling listening)).Reachable g) : g.endpoint.Fit cipher root := by
  refine System.Reachable.invariant (P := fun g => g.endpoint.Fit cipher root) h (fun g hg => ?_) fun g a g' hg hs => ?_
  · obtain ⟨⟨role, hopened⟩, -⟩ := hg
    exact hopened.fit
  · obtain ⟨⟨e, out, took⟩, hcall, rfl⟩ := Option.map_eq_some_iff.mp hs
    exact hg.call hcall

/-- As long as every poll affords the challenge that is due at it, the challenges counted are those
emitted; and the first poll that does not counts one that it does not emit. -/
theorem challenges_emitted_iff (hc : cipher.Lawful) (hk : cipher.KeepsLength)
    (h : (system (carried cipher root cid dialling listening)).Via (Affords (carried cipher root cid dialling listening)) g) :
    g.Balanced ∧ ∀ a g', next (carried cipher root cid dialling listening) g a = some g' →
      (g'.Balanced ↔ Affords (carried cipher root cid dialling listening) g a) := by
  have hbalanced : g.Balanced := by
    induction h with
    | @init g hg =>
      obtain ⟨-, hcounted, hchallenged⟩ := hg
      intro dest
      rw [hcounted, hchallenged]
      rfl
    | step hvia hok hs ih => exact (ih.next_iff hc hk (fit hvia.reachable) hs).mpr hok
  exact ⟨hbalanced, fun a g' hs => hbalanced.next_iff hc hk (fit h.reachable) hs⟩

def dialled : Docket ℕ (Direction × ℕ) ℕ :=
  ⟨.new sample.cipher sample.cid sample.root (sample.dialled 1) .clientToServer, 0, []⟩

/-- A frame from another address earns it the bytes of two challenges; at the second its acknowledgement goes first. -/
def probedRun : List (Call ℕ) :=
  [.recv 2 0 (sampled .serverToClient .frame 0 [105]), .pollTransmit 0, .pollTransmit 250000000, .pollTransmit 250000000]

/-- The third challenge is counted and not emitted. -/
theorem challenges_wasted : ∃ g, (system sample).Reachable g ∧ g.counted 2 = 3 ∧ g.challenged.countP (·.1 = 2) = 2 := by
  exact System.Reachable.of_run dialled (probedRun ++ [.pollTransmit 500000000]) ⟨⟨_, .connect 1⟩, rfl, rfl⟩
    (by decide +kernel)

theorem challenges_emitted_iff_probedRun : ∃ g, (system sample).Via (Affords sample) g ∧ g.counted 2 = 2 ∧ g.Balanced ∧
    ¬Affords sample g (.pollTransmit 500000000) := by
  obtain ⟨g, hvia, hcounted, hnot⟩ : ∃ g, (system sample).Via (Affords sample) g ∧ g.counted 2 = 2 ∧
      ¬Affords sample g (.pollTransmit 500000000) :=
    System.Via.of_run dialled probedRun ⟨⟨_, .connect 1⟩, rfl, rfl⟩ (by decide +kernel)
  exact ⟨g, hvia, hcounted, (challenges_emitted_iff Pair.lawful_plain keepsLength_sample hvia).1, hnot⟩

end Docket

end Braid.Dgram
