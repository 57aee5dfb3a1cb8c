import Braid.Dgram.Asking
import Braid.Dgram.Flight

/-! What an accepting endpoint emits to an address that has not answered. Such an address has
a probe, as the address in use or as the candidate to replace it, and the probe's credit is
what may still be sent there. Only an arrival from the address raises the credit, by three
times its size; every datagram that leaves for it is charged, and a probe that is replaced or
dropped takes its credit with it. -/

namespace Braid.Dgram

open Foundation

variable {Secret Key Addr : Type*} [DecidableEq Addr]

def bytesAt (dest : Addr) (log : List (Addr × ℕ)) : ℕ := ((log.filter (·.1 = dest)).map Prod.snd).sum

theorem bytesAt_append (dest : Addr) (log more : List (Addr × ℕ)) :
    bytesAt dest (log ++ more) = bytesAt dest log + bytesAt dest more := by
  rw [bytesAt, List.filter_append, List.map_append, List.sum_append]
  rfl

theorem bytesAt_nil (dest : Addr) : bytesAt dest [] = 0 := rfl

theorem bytesAt_singleton (dest src : Addr) (size : ℕ) : bytesAt dest [(src, size)] = if src = dest then size else 0 := by
  rw [bytesAt, List.filter_singleton]
  split_ifs <;> simp_all

namespace PathValidator

variable {p : PathValidator Addr} {dest src : Addr} {now size : ℕ}

def credit (p : PathValidator Addr) (dest : Addr) : ℕ := ((p.unproven dest).map Probe.credit).getD 0

def Proven (p : PathValidator Addr) (dest : Addr) : Prop := p.current = dest ∧ p.standing = .proven

instance : Decidable (p.Proven dest) := instDecidableAnd

/-- The candidate is another address than the one in use. -/
def Apart (p : PathValidator Addr) : Prop := ∀ c ∈ p.candidate, c.1 ≠ p.current

omit [DecidableEq Addr] in
theorem apart_of_candidate {p p' : PathValidator Addr} (h : p.Apart) (hcurrent : p'.current = p.current)
    (hcandidate : p'.candidate.map Prod.fst = p.candidate.map Prod.fst ∨ p'.candidate = none) : p'.Apart := by
  intro c hc
  obtain hsame | hnone := hcandidate
  · have hmem : c.1 ∈ p.candidate.map Prod.fst := hsame ▸ Option.mem_map_of_mem Prod.fst hc
    obtain ⟨c', hc', heq⟩ := Option.mem_map.mp hmem
    rw [hcurrent, ← heq]
    exact h c' hc'
  · rw [hnone] at hc
    cases hc

theorem credit_eq (p : PathValidator Addr) (dest : Addr) : p.credit dest =
    if dest = p.current then p.standing.weigh Probe.credit
    else (p.candidate.map fun c => if c.1 = dest then c.2.probe.credit else 0).getD 0 :=
  weigh_eq Probe.credit p dest

/-- The address in use stays as it is, and nothing gains credit. -/
structure Eases (p p' : PathValidator Addr) : Prop where
  current : p'.current = p.current
  proven : p'.standing = .proven ↔ p.standing = .proven
  credit : ∀ dest, p'.credit dest ≤ p.credit dest
  apart : p.Apart → p'.Apart

theorem Eases.refl (p : PathValidator Addr) : Eases p p := ⟨rfl, .rfl, fun _ => le_rfl, id⟩

theorem Eases.trans {p p₁ p' : PathValidator Addr} (h₁ : Eases p p₁) (h₂ : Eases p₁ p') : Eases p p' :=
  ⟨h₂.current.trans h₁.current, h₂.proven.trans h₁.proven, fun dest => (h₂.credit dest).trans (h₁.credit dest),
    fun h => h₂.apart (h₁.apart h)⟩

theorem Eases.iff_proven {p p' : PathValidator Addr} (h : Eases p p') (dest : Addr) : p'.Proven dest ↔ p.Proven dest := by
  rw [Proven, Proven, h.current, h.proven]

end PathValidator

theorem Probe.credit_earned (q : Probe) (bytes : ℕ) : (q.earned bytes).credit ≤ q.credit + amplificationLimit * bytes :=
  (min_le_left _ _).trans (Nat.add_le_add_left (min_le_left _ _) _)

namespace PathValidator

variable {p : PathValidator Addr} {dest src : Addr} {now size : ℕ}

theorem Passes.eases {p₁ : PathValidator Addr} {s s₁ : Entropy} (h : Passes p s p₁ s₁) : Eases p p₁ := by
  have hcredit := h.weigh Probe.Asks.credit
  cases h with
  | proven => exact .refl p
  | claimed hstanding =>
    refine ⟨rfl, ⟨nofun, fun h => ?_⟩, fun dest => (hcredit dest).le, id⟩
    cases hstanding.symm.trans h

theorem Asks.eases {p' : PathValidator Addr} {s s' : Entropy} {asked : Option (Addr × Token)} (h : Asks p s p' s' asked) :
    Eases p p' := by
  have hmodified : ∀ {p : PathValidator Addr} {s s' : Entropy} {at_ : Addr} {candidate : Candidate} {probe' : Probe}
      {token : Option Token}, p.candidate = some (at_, candidate) → candidate.probe.Asks s probe' s' token →
      Eases p { p with candidate := some (at_, candidate.modify fun _ => probe') } := by
    intro p s s' at_ candidate probe' token hcandidate hasks
    refine ⟨rfl, .rfl, fun dest => ?_, fun h => apart_of_candidate h rfl (.inl ?_)⟩
    · simp only [credit_eq, hcandidate, Option.map_some, Candidate.probe_modify, hasks.credit, le_refl]
    · rw [hcandidate]
      rfl
  cases h with
  | current hstanding hasks =>
    refine ⟨rfl, ⟨nofun, fun h => ?_⟩, fun dest => ?_, id⟩
    · cases hstanding.symm.trans h
    · simp only [credit_eq, hstanding, Standing.weigh, hasks.credit, le_refl]
  | alone hpasses => exact hpasses.eases
  | candidate hpasses hcandidate hasks | waits hpasses hcandidate hasks => exact hpasses.eases.trans (hmodified hcandidate hasks)
  | dropped hpasses =>
    refine hpasses.eases.trans ⟨rfl, .rfl, fun dest => ?_, fun h => apart_of_candidate h rfl (.inr rfl)⟩
    simp only [credit_eq]
    split_ifs
    · exact le_rfl
    · exact Nat.zero_le _

theorem credit_spent (p : PathValidator Addr) (dest : Addr) (size : ℕ) (at_ : Addr) :
    (p.spent dest size).credit at_ = if at_ = dest then p.credit at_ - size else p.credit at_ := by
  unfold credit
  rw [unproven_spent]
  split_ifs
  · cases p.unproven at_ with
    | none => exact (Nat.zero_sub size).symm
    | some probe => rfl
  · rfl

theorem eases_spent (p : PathValidator Addr) (dest : Addr) (size : ℕ) : Eases p (p.spent dest size) := by
  have hcredit : ∀ at_, (p.spent dest size).credit at_ ≤ p.credit at_ := fun at_ => by
    rw [credit_spent]
    split_ifs
    · exact Nat.sub_le _ _
    · exact le_rfl
  refine ⟨?_, ?_, hcredit, fun h => apart_of_candidate h ?_ (.inl ?_)⟩
  · unfold spent
    split <;> rfl
  · unfold spent
    split
    · cases p.standing <;> simp
    · exact .rfl
  · unfold spent
    split <;> rfl
  · unfold spent
    split
    · rfl
    · rw [Option.map_map]
      rfl

/-- What leaves for an address that has not answered is within its credit. -/
theorem le_credit (h : p.maySend dest size = true) (hnot : ¬p.Proven dest) : size ≤ p.credit dest := by
  unfold maySend at h
  split at h
  · rename_i probe hprobe
    rw [credit, hprobe]
    exact of_decide_eq_true h
  · rename_i hnone
    obtain rfl := of_decide_eq_true h
    refine absurd ⟨rfl, ?_⟩ hnot
    rw [unproven, if_pos rfl] at hnone
    cases hstanding : p.standing with
    | proven => rfl
    | claimed probe =>
      rw [hstanding] at hnone
      cases hnone

theorem credit_arrived (p : PathValidator Addr) (src : Addr) (size now : ℕ) (at_ : Addr) :
    (p.arrived src size now).credit at_ ≤ p.credit at_ + if src = at_ then amplificationLimit * size else 0 := by
  by_cases hat : at_ = src
  · subst hat
    rw [if_pos rfl, credit, credit]
    have hheard := p.heard_arrived at_ size now
    generalize p.unproven at_ = before, (p.arrived at_ size now).unproven at_ = after at hheard ⊢
    cases hheard with
    | proven => exact Nat.zero_le _
    | proposed => exact Probe.credit_earned Probe.new size
    | renewed probe | earned probe => exact probe.credit_earned size
  · rw [if_neg (Ne.symm hat), Nat.add_zero, credit, credit]
    obtain hsame | hnone := p.unproven_arrived size now hat
    · rw [hsame]
    · rw [hnone]
      exact Nat.zero_le _

theorem arrived_frame (p : PathValidator Addr) (src : Addr) (size now : ℕ) :
    (p.arrived src size now).current = p.current ∧
      ((p.arrived src size now).standing = .proven ↔ p.standing = .proven) ∧
      (p.Apart → (p.arrived src size now).Apart) := by
  unfold arrived
  split_ifs with hsrc
  · refine ⟨rfl, ?_, fun h => apart_of_candidate h rfl (.inl ?_)⟩
    · cases p.standing <;> simp
    · rw [Option.map_map]
      rfl
  · refine ⟨rfl, .rfl, fun h c hc => ?_⟩
    cases hc
    split
    · split_ifs with heq
      · exact heq ▸ hsrc
      · exact hsrc
    · exact hsrc

/-- The token an address has to echo. -/
def held (p : PathValidator Addr) (dest : Addr) : Option (List UInt8) :=
  (p.unproven dest).bind fun probe => probe.token.map Token.bytes

theorem held_arrived (p : PathValidator Addr) (src : Addr) (size now : ℕ) :
    (p.arrived src size now).held src = p.held src := by
  have hheard := p.heard_arrived src size now
  unfold held
  generalize p.unproven src = before, (p.arrived src size now).unproven src = after at hheard ⊢
  cases hheard <;> rfl

/-- An answer proves an address that echoes the token it has to, and gives no credit. -/
theorem answered_spec (h : p.Apart) (src : Addr) (token : List UInt8) :
    (p.answered src token).1.Apart ∧ (∀ dest, (p.answered src token).1.credit dest ≤ p.credit dest) ∧
      ∀ dest, (p.answered src token).1.Proven dest → p.Proven dest ∨ dest = src ∧ p.held src = some token := by
  unfold answered
  split
  · rename_i hvalidates
    refine ⟨h, fun dest => ?_, fun dest hproven => .inr ?_⟩
    · simp only [credit_eq]
      split_ifs
      · exact Nat.zero_le _
      · exact le_rfl
    · unfold validates at hvalidates
      split at hvalidates
      · cases hvalidates
      · rename_i probe hstanding
        obtain ⟨rfl, htoken⟩ := of_decide_eq_true hvalidates
        refine ⟨hproven.1.symm, ?_⟩
        rw [held, unproven, if_pos rfl, hstanding]
        exact htoken
  · split
    · exact ⟨h, fun _ => le_rfl, fun _ hproven => .inl hproven⟩
    · rename_i at_ candidate hcandidate
      split_ifs with hmiss
      · exact ⟨h, fun _ => le_rfl, fun _ hproven => .inl hproven⟩
      · obtain ⟨hat, htoken⟩ : at_ = src ∧ candidate.probe.token.map Token.bytes = some token := by
          simpa only [ne_eq, not_or, not_not] using hmiss
        refine ⟨nofun, fun dest => ?_, fun dest hproven => .inr ⟨hproven.1.symm, ?_⟩⟩
        · simp only [credit_eq]
          split_ifs <;> exact Nat.zero_le _
        · have hne : src ≠ p.current := hat ▸ h (at_, candidate) hcandidate
          rw [held, unproven, if_neg hne, hcandidate]
          dsimp only
          rw [if_pos hat]
          exact htoken

end PathValidator

/-! ### Every run -/

theorem path_emit {n size now : ℕ} {r : Carrier Addr} {kind : Kind} {dest : Addr} {s : ℕ × Carrier Addr}
    (h : (carriage Addr).deed (n, r) (.emit kind dest size now) = some s) :
    r.path.maySend dest size = true ∧ s.2.path = r.path.spent dest size := by
  obtain ⟨-, hmay, rfl⟩ := Transport.of_emit h
  refine ⟨hmay, ?_⟩
  split_ifs
  · exact (Carrier.absorb_frame _ now).2.1
  · rfl

theorem deed_path {s s' : ℕ × Carrier Addr} {d : Deed Addr} (hspeaks : d.speaks = true)
    (hs : (carriage Addr).deed s d = some s') :
    PathValidator.Eases s.2.path s'.2.path ∧ ∀ dest, ¬s.2.path.Proven dest →
      bytesAt dest d.emission.toList + s'.2.path.credit dest ≤ s.2.path.credit dest := by
  have hquiet : ∀ {p' : PathValidator Addr}, PathValidator.Eases s.2.path p' → d.emission = none →
      PathValidator.Eases s.2.path p' ∧ ∀ dest, ¬s.2.path.Proven dest →
        bytesAt dest d.emission.toList + p'.credit dest ≤ s.2.path.credit dest := fun hease hnone => by
    refine ⟨hease, fun dest _ => ?_⟩
    rw [hnone, Option.toList_none, bytesAt_nil, Nat.zero_add]
    exact hease.credit dest
  cases d with
  | arrived | answered | migrated | acknowledged | refused => cases hspeaks
  | expire now =>
    cases hs
    have hpath : ((carriage Addr).expire s.2 now).path = s.2.path := (Carrier.absorb_frame _ now).2.1
    exact hquiet (hpath ▸ .refl _) rfl
  | challenge now =>
    cases hs
    exact hquiet (s.2.path.asks_pollChallenge now s.2.entropy).eases rfl
  | search now | probing number =>
    cases hs
    exact hquiet (.refl _) rfl
  | emit kind dest size now =>
    obtain ⟨hmay, hpath⟩ := path_emit hs
    rw [hpath]
    refine ⟨s.2.path.eases_spent dest size, fun at_ hnot => ?_⟩
    rw [Deed.emission, Option.toList_some, bytesAt_singleton, PathValidator.credit_spent]
    by_cases heq : dest = at_
    · rw [if_pos heq, if_pos heq.symm]
      have hle := PathValidator.le_credit hmay (heq ▸ hnot)
      rw [← heq]
      omega
    · rw [if_neg heq, if_neg (Ne.symm heq), Nat.zero_add]

/-- What a call that speaks does to the path: the one datagram it may emit is within what its
destination has earned. -/
theorem speaks_path {s s' : ℕ × Carrier Addr} {deeds : List (Deed Addr)} (hspeaks : ∀ d ∈ deeds, d.speaks = true)
    (hrun : ((carriage Addr).system fun _ => True).run s deeds = some s') :
    PathValidator.Eases s.2.path s'.2.path ∧ ∀ dest, ¬s.2.path.Proven dest →
      bytesAt dest (deeds.filterMap Deed.emission) + s'.2.path.credit dest ≤ s.2.path.credit dest := by
  induction deeds generalizing s with
  | nil =>
    rw [System.run_nil, Option.some.injEq] at hrun
    obtain rfl := hrun
    exact ⟨.refl _, fun dest _ => (Nat.zero_add _).le⟩
  | cons d deeds ih =>
    obtain ⟨s₁, hs₁, hrun⟩ := Option.bind_eq_some_iff.mp hrun
    obtain ⟨hease₁, hbound₁⟩ := deed_path (hspeaks d List.mem_cons_self) hs₁
    obtain ⟨hease, hbound⟩ := ih (fun d' hd' => hspeaks d' (List.mem_cons_of_mem _ hd')) hrun
    refine ⟨hease₁.trans hease, fun dest hnot => ?_⟩
    have hsplit : (d :: deeds).filterMap Deed.emission = d.emission.toList ++ deeds.filterMap Deed.emission := by
      cases hemission : d.emission with
      | none => exact List.filterMap_cons_none hemission
      | some sent => exact List.filterMap_cons_some hemission
    have hfirst := hbound₁ dest hnot
    have hrest := hbound dest fun h => hnot ((hease₁.iff_proven dest).mp h)
    rw [hsplit, bytesAt_append]
    omega

section

variable {s s' : ℕ × Carrier Addr} {deeds : List (Deed Addr)} {src : Addr} {now size : ℕ} {body : List UInt8}
  {kind : Kind}

theorem replies_turn (hreplies : Endpoint.Replies src now body kind deeds)
    (hrun : ((carriage Addr).system fun _ => True).run s (.arrived src size now :: deeds) = some s') :
    s'.2.entropy = s.2.entropy ∧ (s'.2.path = s.2.path.arrived src size now ∨
      kind = .response ∧ s'.2.path = ((s.2.path.arrived src size now).answered src body).1) := by
  obtain ⟨s₁, hs₁, hrun⟩ := Option.bind_eq_some_iff.mp hrun
  cases hs₁
  cases hreplies with
  | nothing =>
    cases hrun
    exact ⟨rfl, .inl rfl⟩
  | answered =>
    obtain rfl := Option.some.inj ((System.run_singleton _ _).symm.trans hrun)
    exact ⟨rfl, .inr ⟨rfl, rfl⟩⟩
  | migrated =>
    obtain ⟨s₂, hs₂, hrun⟩ := Option.bind_eq_some_iff.mp hrun
    cases hs₂
    obtain rfl := Option.some.inj ((System.run_singleton _ _).symm.trans hrun)
    exact ⟨rfl, .inr ⟨rfl, rfl⟩⟩
  | @acknowledged ack hdecode =>
    obtain rfl := Option.some.inj ((System.run_singleton _ _).symm.trans hrun)
    have hsame : ∀ r : Carrier Addr, (r.acknowledged ack s.1 now).entropy = r.entropy ∧
        (r.acknowledged ack s.1 now).path = r.path := fun r => by
      unfold Carrier.acknowledged
      split_ifs
      · exact ⟨(Carrier.absorb_entropy _ now).trans rfl, (Carrier.absorb_frame _ now).2.1⟩
      · exact ⟨rfl, rfl⟩
    exact ⟨(hsame _).1, .inl (hsame _).2⟩

/-- What a datagram that is taken does to the path: its address earns three times its size. -/
theorem replies_path (hapart : s.2.path.Apart) (hreplies : Endpoint.Replies src now body kind deeds)
    (hrun : ((carriage Addr).system fun _ => True).run s (.arrived src size now :: deeds) = some s') :
    s'.2.path.Apart ∧
      (∀ dest, s'.2.path.credit dest ≤ s.2.path.credit dest + amplificationLimit * bytesAt dest [(src, size)]) ∧
      ∀ dest, s'.2.path.Proven dest →
        s.2.path.Proven dest ∨ dest = src ∧ kind = .response ∧ s.2.path.held src = some body := by
  obtain ⟨hcurrent, hproven, hapart₁⟩ := s.2.path.arrived_frame src size now
  have hearned : ∀ dest, (s.2.path.arrived src size now).credit dest ≤
      s.2.path.credit dest + amplificationLimit * bytesAt dest [(src, size)] := fun dest => by
    refine (s.2.path.credit_arrived src size now dest).trans (le_of_eq ?_)
    rw [bytesAt_singleton]
    split_ifs <;> rfl
  have hsame : ∀ dest, (s.2.path.arrived src size now).Proven dest → s.2.path.Proven dest := fun dest h =>
    ⟨hcurrent.symm.trans h.1, hproven.mp h.2⟩
  obtain ⟨-, hpath | ⟨hkind, hpath⟩⟩ := replies_turn hreplies hrun
  · rw [hpath]
    exact ⟨hapart₁ hapart, hearned, fun dest h => .inl (hsame dest h)⟩
  · obtain ⟨hapart', hcredit, hechoes⟩ := PathValidator.answered_spec (hapart₁ hapart) src body
    rw [PathValidator.held_arrived] at hechoes
    rw [hpath]
    refine ⟨hapart', fun dest => (hcredit dest).trans (hearned dest), fun dest h => ?_⟩
    exact (hechoes dest h).imp (hsame dest) fun ⟨hsrc, hheld⟩ => ⟨hsrc, hkind, hheld⟩

end

/-- A datagram from the address that opens to the token the address has to echo. -/
def Endpoint.echoes (cipher : Cipher Secret Key) (root : Secret) (e : Endpoint Secret Key (Carrier Addr) Addr) (src : Addr)
    (datagram : List UInt8) : Bool :=
  match cipher.openDatagram root e.keys.sending.opposite datagram with
  | some (header, body) => header.kind = .response ∧ e.transport.path.held src = some body
  | none => false

/-- An endpoint with what it has emitted, and of that what went to an address not proven at the
time; what it has taken; and the addresses that have echoed a token. -/
structure Account (Secret Key Addr : Type*) where
  endpoint : Endpoint Secret Key (Carrier Addr) Addr
  emitted : List (Addr × ℕ)
  unproven : List (Addr × ℕ)
  heard : List (Addr × ℕ)
  validated : List Addr

namespace Account

variable {cipher : Cipher Secret Key} {root : Secret} {cid : ConnectionId} {dialling listening : Side}
  {g g' : Account Secret Key Addr}

/-- An accepting endpoint: told of its peer, or made from the first datagram of one. -/
inductive Opened (st : Setting Secret Key (Carrier Addr) Addr) : Account Secret Key Addr → Prop where
  | listen (peer : Addr) : Opened st ⟨.new st.cipher st.cid st.root (st.claimed peer) .serverToClient, [], [], [], []⟩
  | accept {src : Addr} {now : ℕ} {datagram : List UInt8} {e : Endpoint Secret Key (Carrier Addr) Addr}
      {received : Received Addr} :
      Endpoint.accept st.cipher st.transport st.cid st.root st.claimed src now datagram = .ok (e, received) →
      Opened st ⟨e, [], [], [(src, datagram.length)], []⟩

def echoing (cipher : Cipher Secret Key) (root : Secret) (e : Endpoint Secret Key (Carrier Addr) Addr) : Call Addr → List Addr
  | .recv src _ datagram => if e.echoes cipher root src datagram then [src] else []
  | _ => []

def next (st : Setting Secret Key (Carrier Addr) Addr) (g : Account Secret Key Addr) (a : Call Addr) :
    Option (Account Secret Key Addr) :=
  (g.endpoint.call st.cipher st.transport a).map fun (e, out, took) =>
    let sent := (out.map fun datagram => (datagram.1, datagram.2.length)).toList
    { endpoint := e
      emitted := g.emitted ++ sent
      unproven := g.unproven ++ sent.filter fun datagram => ¬g.endpoint.transport.path.Proven datagram.1
      heard := g.heard ++ took.toList
      validated := g.validated ++ if took.isSome then echoing st.cipher st.root g.endpoint a else [] }

def system (st : Setting Secret Key (Carrier Addr) Addr) : System (Account Secret Key Addr) (Call Addr) := ⟨Opened st, next st⟩

variable (cipher root) in
/-- What was emitted and what may still be emitted is three times what was heard. -/
structure Sound (g : Account Secret Key Addr) : Prop where
  coherent : g.endpoint.keys.Coherent cipher root
  apart : g.endpoint.transport.path.Apart
  credit : ∀ dest, bytesAt dest g.unproven + g.endpoint.transport.path.credit dest ≤
    amplificationLimit * bytesAt dest g.heard
  proven : ∀ dest, g.endpoint.transport.path.Proven dest → dest ∈ g.validated
  charged : ∀ dest, dest ∉ g.validated → bytesAt dest g.emitted = bytesAt dest g.unproven

variable {e : Endpoint Secret Key (Carrier Addr) Addr}

theorem Sound.quiet (h : g.Sound cipher root) (hcoh : e.keys.Coherent cipher root)
    (hpath : e.transport.path = g.endpoint.transport.path) : Sound cipher root { g with endpoint := e } := by
  obtain ⟨-, hapart, hcredit, hproven, hcharged⟩ := h
  rw [← hpath] at hapart hcredit hproven
  exact ⟨hcoh, hapart, hcredit, hproven, hcharged⟩

theorem bytesAt_filter (p : PathValidator Addr) (dest : Addr) (sent : List (Addr × ℕ)) :
    bytesAt dest (sent.filter fun datagram => ¬p.Proven datagram.1) = if p.Proven dest then 0 else bytesAt dest sent := by
  rw [bytesAt, List.filter_filter]
  split_ifs with hproven
  · rw [List.filter_eq_nil_iff.mpr fun datagram _ => ?_, List.map_nil, List.sum_nil]
    rw [Bool.and_eq_true, decide_eq_true_eq, decide_eq_true_eq]
    exact fun h => h.2 (h.1 ▸ hproven)
  · rw [bytesAt]
    congr 2
    refine List.filter_congr fun datagram _ => ?_
    by_cases heq : datagram.1 = dest
    · rw [heq, decide_eq_true hproven, Bool.and_true]
    · rw [decide_eq_false heq, Bool.false_and]

theorem Sound.speaks (h : g.Sound cipher root) {out : Option (Addr × List UInt8)}
    (hcoh : e.keys.Coherent cipher root) (hspeaks : Endpoint.Speaks (carriage Addr) g.endpoint e out) :
    Sound cipher root { g with
      endpoint := e
      emitted := g.emitted ++ (out.map fun datagram => (datagram.1, datagram.2.length)).toList
      unproven := g.unproven ++ (out.map fun datagram => (datagram.1, datagram.2.length)).toList.filter
        fun datagram => ¬g.endpoint.transport.path.Proven datagram.1 } := by
  obtain ⟨deeds, hrun, hdeeds, hout⟩ := hspeaks
  obtain ⟨hease, hbound⟩ := speaks_path hdeeds hrun
  rw [hout] at hbound
  refine ⟨hcoh, hease.apart h.apart, fun dest => ?_, fun dest hproven => h.proven dest ((hease.iff_proven dest).mp hproven),
    fun dest hnot => ?_⟩
  · have hcredit := h.credit dest
    dsimp only
    rw [bytesAt_append, bytesAt_filter]
    split_ifs with hproven
    · have hless : e.transport.path.credit dest ≤ g.endpoint.transport.path.credit dest := hease.credit dest
      omega
    · have hpaid := hbound dest hproven
      dsimp only [Endpoint.standing] at hpaid
      omega
  · dsimp only
    rw [bytesAt_append, bytesAt_append, bytesAt_filter, if_neg fun hproven => hnot (h.proven dest hproven), h.charged dest hnot]

theorem Sound.took (h : g.Sound cipher root) {src : Addr} {now : ℕ}
    {datagram body : List UInt8} {header : Header} {deeds : List (Deed Addr)} (hcoh : e.keys.Coherent cipher root)
    (hopen : cipher.openDatagram root g.endpoint.keys.sending.opposite datagram = some (header, body))
    (hreplies : Endpoint.Replies src now body header.kind deeds)
    (hrun : ((carriage Addr).system fun _ => True).run g.endpoint.standing (.arrived src datagram.length now :: deeds) =
      some e.standing) :
    Sound cipher root { g with
      endpoint := e
      heard := g.heard ++ [(src, datagram.length)]
      validated := g.validated ++ echoing cipher root g.endpoint (.recv src now datagram) } := by
  obtain ⟨hapart, hcredit, hproven⟩ := replies_path h.apart hreplies hrun
  refine ⟨hcoh, hapart, fun dest => ?_, fun dest hdest => ?_, fun dest hnot => ?_⟩
  · have hbefore := h.credit dest
    have hearned := hcredit dest
    dsimp only [Endpoint.standing] at hearned ⊢
    rw [bytesAt_append, Nat.mul_add]
    omega
  · obtain hdest | ⟨rfl, hkind, hheld⟩ := hproven dest hdest
    · exact List.mem_append_left _ (h.proven dest hdest)
    · have hechoes : g.endpoint.echoes cipher root dest datagram = true := by
        rw [Endpoint.echoes, hopen]
        exact decide_eq_true ⟨hkind, hheld⟩
      refine List.mem_append_right _ ?_
      rw [echoing, if_pos hechoes]
      exact List.mem_singleton_self dest
  · exact h.charged dest fun hdest => hnot (List.mem_append_left _ hdest)

theorem sound_new (peer : Addr) : Sound cipher root (⟨.new cipher cid root
    ((carried cipher root cid dialling listening).claimed peer) .serverToClient, [], [], [], []⟩ : Account Secret Key Addr) := by
  refine ⟨KeySchedule.coherent_new _ _, nofun, fun dest => ?_, fun dest hproven => ?_, fun _ _ => rfl⟩
  · rw [PathValidator.credit_eq]
    change _ + (if dest = peer then 0 else 0) ≤ _
    rw [ite_self]
    exact Nat.zero_le _
  · cases hproven.2

theorem Sound.next {a : Call Addr} (h : g.Sound cipher root)
    (hs : next (carried cipher root cid dialling listening) g a = some g') : g'.Sound cipher root := by
  obtain ⟨⟨e, out, took⟩, hcall, rfl⟩ := Option.map_eq_some_iff.mp hs
  have hcoh := (Endpoint.call_coherent h.coherent hcall).1
  obtain ⟨rfl, hspeaks⟩ | ⟨rfl, rfl, carries, now, hdeed⟩ |
    ⟨src, now, datagram, header, body, deeds, rfl, rfl, rfl, hopen, hreplies, hrun⟩ := Endpoint.call_deeds h.coherent hcall
  · have hsound := h.speaks hcoh hspeaks
    simpa using hsound
  · have hsound := h.quiet hcoh (congrArg (fun s => s.2.path) (Option.some.inj hdeed)).symm
    simpa using hsound
  · have hsound := h.took hcoh hopen hreplies hrun
    simp only [Option.map_none, Option.toList_none, List.filter_nil, List.append_nil]
    exact hsound

theorem sound (h : (system (carried cipher root cid dialling listening)).Reachable g) : g.Sound cipher root := by
  refine System.Reachable.invariant (P := fun g => g.Sound cipher root) h (fun g hg => ?_) fun g a g' hg hs => hg.next hs
  cases hg with
  | listen peer => exact sound_new peer
  | @accept src now datagram e received haccept =>
    have hcoh : (Endpoint.new cipher cid root ((carried cipher root cid dialling listening).claimed src) .serverToClient :
        Endpoint Secret Key (Carrier Addr) Addr).keys.Coherent cipher root := KeySchedule.coherent_new _ _
    have hrecv := Endpoint.recv_of_accept haccept
    obtain ⟨hnone, -⟩ | ⟨header, body, deeds, hopen, -, hreplies, hrun⟩ := Endpoint.recv_deeds hrecv hcoh
    · cases hnone
    · have hsound : Sound cipher root (⟨e, [], [], [(src, datagram.length)], echoing cipher root (Endpoint.new cipher cid root
          ((carried cipher root cid dialling listening).claimed src) .serverToClient) (.recv src now datagram)⟩ :
            Account Secret Key Addr) :=
        Sound.took (sound_new src) (Endpoint.advances_recv hrecv hcoh).coherent hopen hreplies hrun
      -- no token has been drawn yet, so none can be echoed
      have hheld : ((carried cipher root cid dialling listening).claimed src).path.held src = none := by
        exact congrArg (Option.bind · _) (if_pos rfl)
      have hechoes : echoing cipher root (Endpoint.new cipher cid root
          ((carried cipher root cid dialling listening).claimed src) .serverToClient) (.recv src now datagram) = [] := by
        refine if_neg fun h => ?_
        rw [Endpoint.echoes] at h
        split at h
        · obtain ⟨-, hsome⟩ := of_decide_eq_true h
          cases hheld.symm.trans hsome
        · cases h
      rw [hechoes] at hsound
      exact hsound

/-- An accepting endpoint emits to no address more than three times what it took from there
while the address is not proven; and to an address that has echoed no token, in all. -/
theorem amplification_bounded (h : (system (carried cipher root cid dialling listening)).Reachable g) :
    (∀ dest, bytesAt dest g.unproven ≤ amplificationLimit * bytesAt dest g.heard) ∧
    ∀ dest, dest ∉ g.validated → bytesAt dest g.emitted ≤ amplificationLimit * bytesAt dest g.heard := by
  have hsound := sound h
  have hunproven : ∀ dest, bytesAt dest g.unproven ≤ amplificationLimit * bytesAt dest g.heard := fun dest =>
    (Nat.le_add_right _ _).trans (hsound.credit dest)
  refine ⟨hunproven, fun dest hnot => ?_⟩
  rw [hsound.charged dest hnot]
  exact hunproven dest

/-- A datagram taken, answered with a frame and acknowledged, and no token echoed. -/
theorem amplification_bounded_greeting : ∃ g, (system sample).Reachable g ∧ bytesAt 1 g.heard = 33 ∧ bytesAt 1 g.emitted = 84 ∧
    1 ∉ g.validated ∧ bytesAt 1 g.emitted ≤ amplificationLimit * bytesAt 1 g.heard := by
  obtain ⟨g, hreach, hheard, hemitted, hnot⟩ : ∃ g, (system sample).Reachable g ∧ bytesAt 1 g.heard = 33 ∧
      bytesAt 1 g.emitted = 84 ∧ 1 ∉ g.validated :=
    System.Reachable.of_run ⟨.new sample.cipher sample.cid sample.root (sample.claimed 1) .serverToClient, [], [], [], []⟩
      [.recv 1 0 Party.hello, .send [105, 106] 0, .pollTransmit 25000000] (.listen 1) (by decide +kernel)
  exact ⟨g, hreach, hheard, hemitted, hnot, (amplification_bounded hreach).2 1 hnot⟩

end Account

end Braid.Dgram
