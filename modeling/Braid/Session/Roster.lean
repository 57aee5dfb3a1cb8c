import Mathlib.Data.List.Nodup
import Braid.Session.Turns

/-! Who is attached to a session and who is remembered by it. Attachments have distinct numbers and distinct
clients, a client that is away is not attached, at most `maxAttachments` clients that are away are remembered,
and no repaint is armed in a session that has no terminal. Attachments that change in place leave the roster
as it was, which is what `Like` says; only dropping and attaching change it. -/

namespace Braid.Session

open Commands (ClientStream)

namespace Attachment

variable {wire : Wire} {allowed : Prop} {a a' a'' : Attachment} {now offset : ℕ}

/-- The same attachment with more or less in its queue, which is closed only if it was. -/
structure Queues (a a' : Attachment) : Prop where
  sink : a' = { a with sink := a'.sink }
  closed : a'.sink.isClosed = a.sink.isClosed

theorem Queues.refl (a : Attachment) : a.Queues a := ⟨rfl, rfl⟩

theorem Queues.trans (h : a.Queues a') (h' : a'.Queues a'') : a.Queues a'' := by
  refine ⟨?_, h'.closed.trans h.closed⟩
  rw [h'.sink, h.sink]

theorem Queues.kin (h : a.Queues a') : Kin allowed a a' := by
  rw [h.sink]
  exact ⟨rfl, rfl, .inl⟩

theorem kin_sink (sink : Sink Message) : Kin allowed a { a with sink } := ⟨rfl, rfl, .inl⟩

end Attachment

theorem Queued.queues {a a' : Attachment} (h : Queued a a') : a.Queues a' := by
  induction h with
  | refl => exact .refl a
  | tail _ hpush ih =>
    obtain ⟨_, _, _, -, hpush, rfl⟩ := hpush
    exact ih.trans ⟨rfl, Sink.push_closed hpush⟩

namespace SessionActor

variable {wire : Wire} {allowed : Prop} {s s' s'' : SessionActor} {now wrap : ℕ} {w : World}

/-- The same roster, with repaints armed only in a session that has a terminal. -/
structure Like (s s' : SessionActor) : Prop where
  attachments : List.Forall₂ (Attachment.Kin (s.terminal.isSome = true)) s.attachments s'.attachments
  retired : s'.retired = s.retired
  terminal : s'.terminal.isSome = s.terminal.isSome

theorem Like.refl (s : SessionActor) : s.Like s := ⟨List.forall₂_same.2 fun a _ => .refl _ a, rfl, rfl⟩

theorem Follows.like (h : s.Follows wire s') : s.Like s' :=
  ⟨h.attachments.imp fun _ _ => Acts.kin, h.retired, congrArg Option.isSome h.terminal⟩

/-! ### The roster -/

structure Orderly (s : SessionActor) : Prop where
  ids : (s.attachments.map Attachment.id).Nodup
  clients : (s.attachments.map Attachment.client ++ s.retired.map Prod.fst).Nodup
  kept : s.retired.length ≤ maxAttachments
  calm : s.terminal.isSome = false → ∀ a ∈ s.attachments, a.repaintPending = false

theorem kin_maps {l l' : List Attachment} (h : List.Forall₂ (Attachment.Kin allowed) l l') :
    l'.map Attachment.id = l.map Attachment.id ∧ l'.map Attachment.client = l.map Attachment.client := by
  induction h with
  | nil => exact ⟨rfl, rfl⟩
  | cons hkin _ ih => exact ⟨by simp [hkin.id, ih.1], by simp [hkin.client, ih.2]⟩

theorem Orderly.like (h : s.Orderly) (hlike : s.Like s') : s'.Orderly := by
  obtain ⟨hids, hclients⟩ := kin_maps hlike.attachments
  refine ⟨by rw [hids]; exact h.ids, by rw [hclients, hlike.retired]; exact h.clients,
    by rw [hlike.retired]; exact h.kept, fun hnone a' ha' => ?_⟩
  rw [hlike.terminal] at hnone
  obtain ⟨a, ha, hkin⟩ := exists_of_forall₂ hlike.attachments ha'
  by_contra hpending
  rw [Bool.not_eq_false] at hpending
  rcases hkin.pending hpending with hold | hsome
  · rw [h.calm hnone a ha] at hold
    cases hold
  · rw [hnone] at hsome
    cases hsome

/-! ### Leaving -/

/-- The clients that are forgotten when those of `leaving` join those that are away. -/
def evicted (away leaving : List ℕ) : List ℕ :=
  (away ++ leaving).take (away.length + leaving.length - maxAttachments)

/-- What a session remembers and carries once the clients of `leaving` have joined those that are away. -/
structure Leaves (s s' : SessionActor) (leaving : List ℕ) : Prop where
  retired : s'.retired.map Prod.fst =
    (s.retired.map Prod.fst ++ leaving).drop (s.retired.length + leaving.length - maxAttachments)
  live : s'.forwards.live = s.forwards.live.filter fun entry => entry.1.1 ∉ evicted (s.retired.map Prod.fst) leaving
  terminal : s'.terminal = s.terminal
  offset : s'.offset = s.offset
  size : s'.size = s.size
  generation : s'.generation = s.generation

theorem leaves_retire (hkept : s.retired.length ≤ maxAttachments) {client : ℕ} (stream : ClientStream)
    (hnew : client ∉ s.retired.map Prod.fst) :
    s.Leaves (s.retire client stream) [client] ∧ (s.retire client stream).attachments = s.attachments := by
  have hfilter : s.retired.filter (fun kept => decide (kept.1 ≠ client)) = s.retired := by
    rw [List.filter_eq_self]
    intro kept hmem
    simp only [ne_eq, decide_not, Bool.not_eq_eq_eq_not, Bool.not_true, decide_eq_false_iff_not]
    exact fun heq => hnew (heq ▸ List.mem_map_of_mem hmem)
  unfold retire
  simp only [hfilter]
  have hlength : (s.retired ++ [(client, stream)]).length = s.retired.length + 1 := by simp
  split_ifs with hfull
  · -- The ring was full: its oldest client goes.
    have height : s.retired.length = maxAttachments := by omega
    obtain ⟨gone, rest, hretired⟩ : ∃ gone rest, s.retired = gone :: rest := by
      cases hr : s.retired with
      | nil => simp [hr, maxAttachments] at height
      | cons gone rest => exact ⟨gone, rest, rfl⟩
    have hone : s.retired.length + [client].length - maxAttachments = 1 := by simp [height]
    refine ⟨⟨?_, ?_, rfl, rfl, rfl, rfl⟩, rfl⟩
    · rw [hone]
      simp [hretired]
    · have : evicted (s.retired.map Prod.fst) [client] = [gone.1] := by
        unfold evicted
        rw [List.length_map, hone, hretired]
        rfl
      rw [this, hretired]
      simp [Forwards.forget]
  · rw [hlength] at hfull
    have hnone : s.retired.length + [client].length - maxAttachments = 0 := by simp; omega
    refine ⟨⟨?_, ?_, rfl, rfl, rfl, rfl⟩, rfl⟩
    · rw [hnone]
      simp
    · have : evicted (s.retired.map Prod.fst) [client] = [] := by
        unfold evicted
        rw [List.length_map, hnone, List.take_zero]
      simp [this]

theorem dropFirst_cases (h : s.Orderly) (p : Attachment → Bool) (now : ℕ) :
    (s.dropFirst p now = s ∧ ∀ a ∈ s.attachments, p a = false) ∨
      ∃ l₁ a l₂, s.attachments = l₁ ++ a :: l₂ ∧ (∀ x ∈ l₁, p x = false) ∧ p a = true ∧
        (s.dropFirst p now).attachments = l₁ ++ l₂ ∧ s.Leaves (s.dropFirst p now) [a.client] := by
  cases hfind : s.attachments.find? p with
  | none =>
    refine .inl ⟨by unfold dropFirst; rw [hfind], fun a ha => ?_⟩
    simpa using List.find?_eq_none.1 hfind a ha
  | some a =>
    obtain ⟨hp, l₁, l₂, hlist, hbefore⟩ := List.find?_eq_some_iff_append.1 hfind
    have hbefore : ∀ x ∈ l₁, p x = false := fun x hx => by simpa using hbefore x hx
    have herase : s.attachments.eraseP p = l₁ ++ l₂ := by
      rw [hlist, List.eraseP_append_right _ (by simpa using hbefore), List.eraseP_cons_of_pos hp]
    have hnew : a.client ∉ s.retired.map Prod.fst := by
      have := h.clients
      rw [hlist] at this
      exact fun hmem => List.disjoint_of_nodup_append this (by simp) hmem
    obtain ⟨hleaves, hattachments⟩ := leaves_retire (s := { s with attachments := s.attachments.eraseP p })
      h.kept a.stream hnew
    refine .inr ⟨l₁, a, l₂, hlist, hbefore, hp, ?_, ?_⟩
    · unfold dropFirst
      rw [hfind]
      exact hattachments.trans herase
    · unfold dropFirst
      rw [hfind]
      exact { hleaves with }

theorem Orderly.dropFirst (h : s.Orderly) (p : Attachment → Bool) (now : ℕ) : (s.dropFirst p now).Orderly := by
  rcases dropFirst_cases h p now with ⟨hsame, -⟩ | ⟨l₁, a, l₂, hlist, -, -, hleft, hleaves⟩
  · rw [hsame]
    exact h
  · have hsub : List.Sublist (l₁ ++ l₂) s.attachments := by
      rw [hlist]
      exact List.Sublist.append_left (List.sublist_cons_self _ _) _
    refine ⟨?_, ?_, ?_, ?_⟩
    · rw [hleft]
      exact h.ids.sublist (hsub.map _)
    · rw [hleft, hleaves.retired]
      have hperm : ((l₁ ++ l₂).map Attachment.client ++ (s.retired.map Prod.fst ++ [a.client])).Perm
          (s.attachments.map Attachment.client ++ s.retired.map Prod.fst) := by
        rw [hlist]
        simp only [List.map_append, List.map_cons, List.append_assoc, List.cons_append]
        refine List.Perm.append_left _ ?_
        rw [← List.append_assoc]
        exact (List.perm_append_singleton _ _)
      exact (hperm.nodup_iff.2 h.clients).sublist (List.Sublist.append_left (List.drop_sublist _ _) _)
    · have := congrArg List.length hleaves.retired
      simp only [List.length_map, List.length_drop, List.length_append, List.length_cons, List.length_nil] at *
      omega
    · rw [hleft, hleaves.terminal]
      exact fun hnone x hx => h.calm hnone x (hsub.subset hx)

theorem Orderly.dropAll (h : s.Orderly) (gone : List ℕ) (now : ℕ) : (s.dropAll gone now).Orderly := by
  induction gone generalizing s with
  | nil => exact h
  | cons id rest ih => exact ih (h.dropFirst _ _)

theorem Leaves.refl (hkept : s.retired.length ≤ maxAttachments) : s.Leaves s [] := by
  refine ⟨?_, ?_, rfl, rfl, rfl, rfl⟩
  · simp [hkept]
  · have : evicted (s.retired.map Prod.fst) [] = [] := by simp [evicted, hkept]
    simp [this]

theorem Leaves.trans {xs ys : List ℕ} (h : s.Leaves s' xs) (h' : s'.Leaves s'' ys) : s.Leaves s'' (xs ++ ys) := by
  set away := s.retired.map Prod.fst ++ xs with haway
  have hlength : away.length = s.retired.length + xs.length := by simp [haway]
  have hretired : s'.retired.map Prod.fst = away.drop (away.length - maxAttachments) := by rw [hlength, h.retired]
  have hcount : s'.retired.length = away.length - (away.length - maxAttachments) := by
    have := congrArg List.length hretired
    simpa using this
  have htotal : s.retired.length + (xs ++ ys).length - maxAttachments =
      (away.length - maxAttachments) + (s'.retired.length + ys.length - maxAttachments) := by
    rw [List.length_append]
    omega
  have hsplit : s.retired.map Prod.fst ++ (xs ++ ys) = away ++ ys := by rw [haway, List.append_assoc]
  have hdrop : (away ++ ys).drop (away.length - maxAttachments) = s'.retired.map Prod.fst ++ ys := by
    rw [List.drop_append_of_le_length (by omega), hretired]
  refine ⟨?_, ?_, h'.terminal.trans h.terminal, h'.offset.trans h.offset, h'.size.trans h.size,
    h'.generation.trans h.generation⟩
  · rw [h'.retired, htotal, hsplit, ← List.drop_drop, hdrop]
  · have hevicted : evicted (s.retired.map Prod.fst) (xs ++ ys) =
        evicted (s.retired.map Prod.fst) xs ++ evicted (s'.retired.map Prod.fst) ys := by
      unfold evicted
      rw [List.length_map, List.length_map, htotal, hsplit, List.take_add, hdrop, ← haway, ← hlength,
        List.take_append_of_le_length (by omega)]
    rw [h'.live, h.live, List.filter_filter, hevicted]
    refine List.filter_congr fun entry _ => ?_
    simp only [List.mem_append, not_or, Bool.decide_and, Bool.and_comm]

theorem dropAll_leaves (h : s.Orderly) (gone : List Attachment) (hmem : ∀ a ∈ gone, a ∈ s.attachments)
    (hnodup : (gone.map Attachment.id).Nodup) (now : ℕ) :
    s.Leaves (s.dropAll (gone.map Attachment.id) now) (gone.map Attachment.client) ∧
      ∀ x, x ∈ (s.dropAll (gone.map Attachment.id) now).attachments ↔
        x ∈ s.attachments ∧ x.id ∉ gone.map Attachment.id := by
  induction gone generalizing s with
  | nil => exact ⟨.refl h.kept, by simp [dropAll]⟩
  | cons a rest ih =>
    have ha := hmem a List.mem_cons_self
    rw [List.map_cons, List.nodup_cons] at hnodup
    rcases dropFirst_cases h (·.id == a.id) now with ⟨-, hnone⟩ | ⟨l₁, b, l₂, hlist, -, hb, hleft, hleaves⟩
    · simp at hnone
      exact absurd rfl (hnone a ha)
    · have hba : b = a := List.inj_on_of_nodup_map h.ids (by simp [hlist]) ha (by simpa using hb)
      subst hba
      have hids := h.ids
      rw [hlist] at hids
      have hstays : ∀ x, x ∈ (s.dropFirst (·.id == b.id) now).attachments ↔ x ∈ s.attachments ∧ x.id ≠ b.id := by
        intro x
        rw [hleft, hlist]
        have hother : x ∈ l₁ ++ l₂ → x.id ≠ b.id := by
          intro hx heq
          have hperm : ((l₁ ++ b :: l₂).map Attachment.id).Perm (b.id :: (l₁ ++ l₂).map Attachment.id) := by
            simp
          exact (List.nodup_cons.1 (hperm.nodup_iff.1 hids)).1 (heq ▸ List.mem_map_of_mem hx)
        constructor
        · exact fun hx => ⟨by simp only [List.mem_append, List.mem_cons] at hx ⊢; tauto, hother hx⟩
        · rintro ⟨hx, hne⟩
          simp only [List.mem_append, List.mem_cons] at hx ⊢
          rcases hx with hx | rfl | hx
          · exact .inl hx
          · exact absurd rfl hne
          · exact .inr hx
      have hrest : ∀ x ∈ rest, x ∈ (s.dropFirst (·.id == b.id) now).attachments := fun x hx =>
        (hstays x).2 ⟨hmem x (List.mem_cons_of_mem _ hx), fun heq => hnodup.1 (heq ▸ List.mem_map_of_mem hx)⟩
      obtain ⟨hleaves', hmem'⟩ := ih (h.dropFirst _ now) hrest hnodup.2
      refine ⟨hleaves.trans hleaves', fun x => ?_⟩
      rw [show s.dropAll ((b :: rest).map Attachment.id) now =
        (s.dropFirst (·.id == b.id) now).dropAll (rest.map Attachment.id) now from rfl, hmem' x, hstays x]
      simp only [List.map_cons, List.mem_cons, not_or, and_assoc]

variable {step : Attachment → Attachment × Bool}

theorem like_swept
    (hkin : ∀ a, Attachment.Kin (s.terminal.isSome = true) a (step a).1) :
    s.Like { s with attachments := (s.attachments.map step).map Prod.fst } := by
  refine ⟨?_, rfl, rfl⟩
  rw [List.map_map]
  exact List.forall₂_map_right_iff.2 (List.forall₂_same.2 fun a _ => hkin a)

theorem Orderly.sweep (h : s.Orderly)
    (hkin : ∀ a, Attachment.Kin (s.terminal.isSome = true) a (step a).1) (now : ℕ) : (s.sweep step now).Orderly :=
  (h.like (like_swept hkin)).dropAll _ now

/-- Those a sweep gives up leave, and the others stay as it left them. -/
theorem sweep_leaves (h : s.Orderly)
    (hkin : ∀ a, Attachment.Kin (s.terminal.isSome = true) a (step a).1) (now : ℕ) :
    s.Leaves (s.sweep step now) ((s.attachments.filter fun a => (step a).2).map Attachment.client) ∧
      ∀ x, x ∈ (s.sweep step now).attachments ↔ ∃ a ∈ s.attachments, step a = (x, false) := by
  have hswept := h.like (like_swept hkin)
  set gone := ((s.attachments.map step).filter Prod.snd).map Prod.fst with hgone
  have hsub : List.Sublist gone ((s.attachments.map step).map Prod.fst) := List.filter_sublist.map _
  obtain ⟨hleaves, hstays⟩ := dropAll_leaves hswept gone (fun a ha => hsub.subset ha)
    (hswept.ids.sublist (hsub.map _)) now
  have hdrop : s.sweep step now =
      { s with attachments := (s.attachments.map step).map Prod.fst }.dropAll (gone.map Attachment.id) now := by
    have hids : gone.map Attachment.id = ((s.attachments.map step).filter Prod.snd).map fun entry => entry.1.id := by
      rw [hgone, List.map_map]
      rfl
    rw [hids]
    rfl
  rw [hdrop]
  constructor
  · have hclients : gone.map Attachment.client = (s.attachments.filter fun a => (step a).2).map Attachment.client := by
      rw [hgone, List.filter_map, List.map_map, List.map_map]
      exact List.map_congr_left fun a _ => (hkin a).client
    rw [← hclients]
    exact { hleaves with }
  · intro x
    rw [hstays x]
    constructor
    · rintro ⟨hx, hnot⟩
      simp only [List.map_map, List.mem_map, Function.comp] at hx
      obtain ⟨a, ha, rfl⟩ := hx
      refine ⟨a, ha, Prod.ext rfl ?_⟩
      rw [← Bool.not_eq_true]
      intro hleft
      refine hnot (List.mem_map_of_mem (List.mem_map_of_mem (f := Prod.fst) (a := step a) ?_))
      exact List.mem_filter.2 ⟨List.mem_map_of_mem ha, hleft⟩
    · rintro ⟨a, ha, hstep⟩
      refine ⟨List.mem_map.2 ⟨step a, List.mem_map_of_mem ha, by rw [hstep]⟩, fun hmem => ?_⟩
      obtain ⟨y, hy, hid⟩ := List.mem_map.1 hmem
      obtain ⟨entry, hentry, rfl⟩ := List.mem_map.1 hy
      obtain ⟨hentry, hleft⟩ := List.mem_filter.1 hentry
      obtain ⟨b, hb, rfl⟩ := List.mem_map.1 hentry
      have hab : a.id = b.id := by
        rw [← (hkin b).id, hid, ← (hkin a).id, hstep]
      have : a = b := List.inj_on_of_nodup_map h.ids ha hb hab
      subst this
      rw [hstep] at hleft
      cases hleft

/-! ### Every turn keeps the roster in order -/

theorem closed_orderly (wire : Wire) : Closed wire Orderly where
  follows h hfollows := h.like hfollows.like
  dropFirst p now h := h.dropFirst p now
  sweep now h hkin _ := h.sweep hkin now

theorem Orderly.forward (h : s.Orderly) (bytes : List UInt8) (lastOutput : Option ℕ) (w : World) :
    (s.forward wire bytes lastOutput w).1.Orderly := by
  unfold SessionActor.forward
  split
  · exact h
  · rename_i terminal hsome
    dsimp only
    -- Recording the output changes nothing the roster reads.
    have hlike : ∀ (t : Terminal) (offset : ℕ), s.Like { s with terminal := some t, offset } := fun t offset =>
      ⟨(Like.refl s).attachments, rfl, by rw [hsome]; rfl⟩
    split_ifs with hover hempty
    · exact h.like (hlike _ s.offset)
    · split
      · exact h.like (hlike _ _)
      · exact (h.like (hlike _ _)).dropAll _ _
      · exact h.like (hlike _ _)
    · split
      · exact h.like (hlike _ _)
      · exact (h.like (hlike _ _)).dropAll _ _
      · refine (closed_orderly wire).repaint ((h.like (hlike _ _)).sweep (fun a => ?_) _) _ _
        exact .of_entry rfl (Attachment.entry_forward ..)

theorem Orderly.output (h : s.Orderly) (wire : Wire) (bytes : Option (List UInt8)) (w : World) : (s.output wire bytes w).1.Orderly := by
  unfold SessionActor.output
  split
  · exact h
  · rename_i terminal hsome
    have hlike : s.Like { s with terminal := some { terminal with lastOutput := some w.now } } :=
      ⟨(Like.refl s).attachments, rfl, by rw [hsome]; rfl⟩
    split
    · exact h.like hlike
    · exact (h.like hlike).forward _ _ _

variable {a : Attachment}

theorem kin_replayChunks {offset : ℕ} (chunks : List (List UInt8)) :
    Attachment.Kin allowed a (replayChunks wire a offset chunks).1 := by
  induction chunks generalizing a offset with
  | nil => exact .refl _ a
  | cons chunk rest ih =>
    unfold replayChunks
    split
    · exact .refl _ a
    · split
      · exact Attachment.Kin.trans (Attachment.kin_sink _) ih
      · exact .refl _ a
      · exact .refl _ a

theorem kin_replay {start : ℕ} : Attachment.Kin allowed a (s.replay wire a start wrap).1 := by
  unfold replay
  split
  · exact .refl _ a
  · split
    · exact .refl _ a
    · exact kin_replayChunks _

theorem kin_reportSkipped {bytes : ℕ} : Attachment.Kin allowed a (reportSkipped wire a bytes) := by
  unfold reportSkipped
  split_ifs
  · exact .refl _ a
  · exact (Attachment.queued_offer rfl).queues.kin

theorem kin_beginSync {mark : ℕ} (h : allowed) : Attachment.Kin allowed a (a.beginSync mark) :=
  .of_allowed h rfl rfl

theorem kin_resume {confirmed : ConfirmedOutput} (h : allowed) :
    Attachment.Kin allowed a (s.resume wire a confirmed w).1 := by
  unfold resume
  dsimp only
  have hskip : ∀ {b : Attachment} {bytes : ℕ}, Attachment.Kin allowed a b →
      Attachment.Kin allowed a ((reportSkipped wire b bytes).beginSync s.mark) := fun hb =>
    (hb.trans kin_reportSkipped).trans (kin_beginSync h)
  split_ifs
  · exact hskip (.refl _ a)
  · exact hskip (Attachment.kin_sink _)
  · have hreplay : Attachment.Kin allowed a (s.replay wire a confirmed.nextOff w.wrap).1 := kin_replay
    split <;> rename_i heq <;> rw [heq] at hreplay
    · exact hreplay.trans ⟨rfl, rfl, .inl⟩
    · exact hskip hreplay
    · exact hskip hreplay
    · exact hreplay

theorem kin_greet {confirmed : Option ConfirmedOutput} :
    Attachment.Kin (s.terminal.isSome = true) a (s.greet wire a confirmed w).1 := by
  unfold greet
  split
  · exact .refl _ a
  · rename_i b hb
    have hb : Attachment.Kin (s.terminal.isSome = true) a b := (Attachment.queued_send (by split_ifs <;> rfl) hb).queues.kin
    split
    · exact hb
    · split
      · exact hb
      · rename_i c hc
        have hc := hb.trans (Attachment.queued_send rfl hc).queues.kin
        split_ifs with hnone
        · exact hc
        · exact hc.trans (kin_resume (Option.isSome_iff_ne_none.2 (by simpa using hnone)))

theorem like_noteAttachments : s.Like (s.noteAttachments now) := ⟨(Like.refl s).attachments, rfl, rfl⟩

theorem not_attached (h : s.Orderly) (client now : ℕ) :
    client ∉ (s.dropFirst (·.client == client) now).attachments.map Attachment.client := by
  rcases dropFirst_cases h (·.client == client) now with ⟨hsame, hnone⟩ | ⟨l₁, a, l₂, hlist, -, ha, hleft, -⟩
  · rw [hsame]
    simpa using hnone
  · have hclients := (List.nodup_append.1 h.clients).1
    rw [hlist] at hclients
    have hperm : ((l₁ ++ a :: l₂).map Attachment.client).Perm (a.client :: (l₁ ++ l₂).map Attachment.client) := by simp
    rw [hleft, ← (by simpa using ha : a.client = client)]
    exact (List.nodup_cons.1 (hperm.nodup_iff.1 hclients)).1

theorem takeStream_spec (hclients : (s.retired.map Prod.fst).Nodup) (client : ℕ) :
    List.Sublist (s.takeStream client).1.retired s.retired ∧
      client ∉ (s.takeStream client).1.retired.map Prod.fst ∧
      (s.takeStream client).1 = { s with retired := (s.takeStream client).1.retired } := by
  unfold takeStream
  split
  · rename_i hnone
    refine ⟨List.Sublist.refl _, fun hmem => ?_, rfl⟩
    obtain ⟨kept, hkept, heq⟩ := List.mem_map.1 hmem
    simpa [heq] using List.find?_eq_none.1 hnone kept hkept
  · rename_i stream hsome
    obtain ⟨hp, l₁, l₂, hlist, hbefore⟩ := List.find?_eq_some_iff_append.1 hsome
    have herase : s.retired.eraseP (fun kept => decide (kept.1 = client)) = l₁ ++ l₂ := by
      rw [hlist, List.eraseP_append_right _ (by simpa using hbefore), List.eraseP_cons_of_pos (by simpa using hp)]
    refine ⟨List.eraseP_sublist, ?_, rfl⟩
    rw [herase]
    rename_i c
    rw [hlist] at hclients
    have hperm : ((l₁ ++ (c, stream) :: l₂).map Prod.fst).Perm (c :: (l₁ ++ l₂).map Prod.fst) := by simp
    rw [← (by simpa using hp : c = client)]
    exact (List.nodup_cons.1 (hperm.nodup_iff.1 hclients)).1

theorem Orderly.install (h : s.Orderly) (hid : a.id ∉ s.attachments.map Attachment.id)
    (hclient : a.client ∉ s.attachments.map Attachment.client)
    (hcalm : s.terminal.isSome = false → a.repaintPending = false) :
    ({ (s.takeStream a.client).1 with attachments := (s.takeStream a.client).1.attachments ++ [a] } : SessionActor).Orderly := by
  obtain ⟨hattached, hretired, hdisjoint⟩ := List.nodup_append.1 h.clients
  obtain ⟨hsub, hnew, hsame⟩ := takeStream_spec hretired a.client
  set away := (s.takeStream a.client).1.retired
  rw [hsame]
  refine ⟨?_, ?_, hsub.length_le.trans h.kept, ?_⟩
  · rw [List.map_append, List.nodup_append]
    refine ⟨h.ids, by simp, fun c hc d hd heq => ?_⟩
    simp only [List.map_cons, List.map_nil, List.mem_singleton] at hd
    exact hid (hd ▸ heq ▸ hc)
  · rw [List.map_append, List.nodup_append, List.nodup_append]
    refine ⟨⟨hattached, by simp, ?_⟩, hretired.sublist (hsub.map _), ?_⟩
    · intro c hc d hd heq
      simp only [List.map_cons, List.map_nil, List.mem_singleton] at hd
      exact hclient (hd ▸ heq ▸ hc)
    · intro c hc d hd heq
      rcases List.mem_append.1 hc with hc | hc
      · exact hdisjoint c hc d ((hsub.map _).subset hd) heq
      · simp only [List.map_cons, List.map_nil, List.mem_singleton] at hc
        exact hnew (hc ▸ heq ▸ hd)
  · intro hnone b hb
    rcases List.mem_append.1 hb with hb | hb
    · exact h.calm hnone b hb
    · rw [List.mem_singleton.1 hb]
      exact hcalm hnone

theorem Orderly.attach (h : s.Orderly) {id : ℕ} (hid : id ∉ s.attachments.map Attachment.id) (client : ℕ)
    (sink : Sink Message) (confirmed : Option ConfirmedOutput) (framing : Framing) (w : World) :
    (s.attach wire id client sink confirmed framing w).Orderly := by
  have hdropped := h.dropFirst (·.client == client) w.now
  have hclient := not_attached h client w.now
  have hfresh : id ∉ (s.dropFirst (·.client == client) w.now).attachments.map Attachment.id := by
    rcases dropFirst_cases h (·.client == client) w.now with ⟨hsame, -⟩ | ⟨l₁, a, l₂, hlist, -, -, hleft, -⟩
    · rwa [hsame]
    · rw [hlist] at hid
      rw [hleft]
      simp only [List.map_append, List.map_cons, List.mem_append, List.mem_cons, not_or] at hid ⊢
      exact ⟨hid.1, hid.2.2⟩
  unfold SessionActor.attach
  generalize s.dropFirst (·.client == client) w.now = t at hdropped hclient hfresh
  have hterminal : (t.takeStream client).1.terminal = t.terminal := by
    rw [(takeStream_spec (List.nodup_append.1 hdropped.clients).2.1 client).2.2]
  dsimp only
  set u := (t.takeStream client).1
  set newcomer := u.newcomer id client (t.takeStream client).2 sink framing w.now
  set a := (u.greet wire newcomer confirmed w).1 with ha
  have hkin : Attachment.Kin (u.terminal.isSome = true) newcomer a := kin_greet
  have hinstalled : ({ u with attachments := u.attachments ++ [a] } : SessionActor).Orderly := by
    have hac : a.client = client := hkin.client
    have hcalm : t.terminal.isSome = false → a.repaintPending = false := by
      intro hnone
      by_contra hpending
      rw [Bool.not_eq_false] at hpending
      rcases hkin.pending hpending with hnew | hsome
      · cases hnew
      · rw [hterminal, hnone] at hsome
        cases hsome
    have := hdropped.install (a := a) ((hkin.id : a.id = id) ▸ hfresh) (hac ▸ hclient) hcalm
    rwa [hac] at this
  split_ifs
  · exact h
  · exact hdropped
  · exact hinstalled.like like_noteAttachments
  · exact (hinstalled.like like_noteAttachments).dropFirst _ _

theorem fresh_of_next {id client : ℕ} {closed : Bool} {confirmed : Option ConfirmedOutput} {framing : Framing}
    (hnext : s.next wire (.event (.attach id client closed confirmed framing) w) = some s') :
    id ∉ s.attachments.map Attachment.id := by
  unfold SessionActor.next at hnext
  split_ifs at hnext with hadmits
  simp only [admits, List.all_eq_true, bne_iff_ne, ne_eq] at hadmits
  simpa using hadmits

theorem Orderly.next (h : s.Orderly) {step : Step} (hnext : s.next wire step = some s') : s'.Orderly := by
  have houtput : ∀ bytes w t, s.output wire bytes w = (t, .ok ()) → t.Orderly := fun bytes w t heq => by
    have hkept := h.output wire bytes w
    rwa [heq] at hkept
  refine (closed_orderly wire).next h hnext ?_ fun bytes w t _ => houtput bytes w t
  rintro id client closed confirmed framing w rfl
  exact h.attach (fresh_of_next hnext) _ _ _ _ _

theorem orderly_new (terminal : Bool) (size : Screen.GridSize) (now : ℕ) : (new terminal size now).Orderly :=
  ⟨List.nodup_nil, List.nodup_nil, Nat.zero_le _, fun _ _ ha => nomatch ha⟩

/-- The roster is in order in every state a session reaches. -/
theorem orderly (h : (system wire).Reachable s) : s.Orderly :=
  h.invariant (P := Orderly) (by rintro _ ⟨terminal, size, now, rfl⟩; exact orderly_new _ _ _)
    fun _ _ _ hs hnext => hs.next hnext

end SessionActor

end Braid.Session
