import Mathlib.Data.List.Forall2
import Braid.Session.Seat

/-! What a turn of a session does to its attachments. Apart from the output and a new client, a turn changes
attachments in place by acts of their own, drops some of them, or sweeps over all of them; what is kept by
these three is kept by the turn. -/

namespace Braid.Session

open Commands (ClientStream)

section
variable {α : Type*} {R : α → α → Prop} {l l' l'' : List α}

theorem forall₂_trans (h : List.Forall₂ R l l') (h' : List.Forall₂ R l' l'')
    (htrans : ∀ {a b c}, R a b → R b c → R a c) : List.Forall₂ R l l'' := by
  induction h generalizing l'' with
  | nil => exact h'
  | cons hab _ ih =>
    cases h' with
    | cons hbc hrest => exact .cons (htrans hab hbc) (ih hrest)

theorem exists_of_forall₂ {b : α} (h : List.Forall₂ R l l') (hb : b ∈ l') : ∃ a ∈ l, R a b := by
  induction h with
  | nil => cases hb
  | @cons a b' l l' hab _ ih =>
    rcases List.mem_cons.1 hb with rfl | hb
    · exact ⟨a, List.mem_cons_self, hab⟩
    · obtain ⟨c, hc, hcb⟩ := ih hb
      exact ⟨c, List.mem_cons_of_mem _ hc, hcb⟩

end

/-! ### Attachments changed in place -/

namespace Attachment

/-- The same attachment later, with a repaint armed only if that is allowed. -/
structure Kin (allowed : Prop) (a a' : Attachment) : Prop where
  id : a'.id = a.id
  client : a'.client = a.client
  pending : a'.repaintPending = true → a.repaintPending = true ∨ allowed

variable {wire : Wire} {allowed : Prop} {a a' a'' : Attachment} {now offset : ℕ}

theorem Kin.refl (allowed : Prop) (a : Attachment) : Kin allowed a a := ⟨rfl, rfl, .inl⟩

theorem Kin.trans (h : Kin allowed a a') (h' : Kin allowed a' a'') : Kin allowed a a'' where
  id := h'.id.trans h.id
  client := h'.client.trans h.client
  pending hp := (h'.pending hp).elim h.pending .inr

theorem Kin.of_allowed (h : allowed) (hid : a'.id = a.id) (hclient : a'.client = a.client) : Kin allowed a a' :=
  ⟨hid, hclient, fun _ => .inr h⟩

def entry (a : Attachment) : ℕ × ℕ := (a.id, a.client)

@[simp] theorem entry_settle (caughtUp : Bool) (grid : Screen.GridSize) : (a.settle caughtUp grid).entry = a.entry := by
  unfold settle
  split_ifs <;> rfl

@[simp] theorem entry_beginSync (mark : ℕ) : (a.beginSync mark).entry = a.entry := rfl

@[simp] theorem entry_settleBeforeOutput (lastOutput : Option ℕ) (grid : Screen.GridSize) :
    (a.settleBeforeOutput offset now lastOutput grid).entry = a.entry := by
  unfold settleBeforeOutput
  split_ifs <;> simp

theorem entry_pushChunks (mark : ℕ) (chunks : List (List UInt8)) :
    (a.pushChunks wire mark offset chunks).1.entry = a.entry := by
  induction chunks generalizing a offset with
  | nil => rfl
  | cons chunk rest ih =>
    unfold pushChunks
    split
    · rfl
    · split
      · exact ih
      · rfl
      · rfl

theorem entry_pushOutput (bytes : List UInt8) (mark : ℕ) : (a.pushOutput wire offset bytes mark).1.entry = a.entry := by
  have hstirred : (a.stirredBy bytes).entry = a.entry := by
    unfold stirredBy
    split_ifs <;> rfl
  unfold pushOutput
  dsimp only
  split_ifs
  · exact hstirred
  · exact (entry_pushChunks _ _).trans hstirred

theorem entry_forward (bytes : List UInt8) (grid : Screen.GridSize) (lastOutput : Option ℕ) (mark : ℕ) :
    (a.forward wire offset bytes grid lastOutput mark now).1.entry = a.entry := by
  unfold forward
  dsimp only
  split_ifs
  · simp
  · have hpushed : ((a.settleBeforeOutput offset now lastOutput grid).pushOutput wire offset bytes mark).1.entry = _ :=
      entry_pushOutput bytes mark
    split <;> rename_i h <;> rw [h] at hpushed <;> simpa using hpushed

theorem entry_pushScreen (frame : Daemon.RepaintFrame) (deferred : List (ℕ × Foundation.Text)) (cut : Option Cut) :
    (a.pushScreen frame offset deferred cut).1.entry = a.entry := by
  unfold pushScreen
  dsimp only
  split
  · rfl
  · split <;> rfl

theorem entry_repaint (painted : Painted) (frame : Daemon.RepaintFrame) (dirty : Daemon.RowMask) (grid : Screen.GridSize)
    (lastOutput : Option ℕ) (log : DeferredOsc) (cut : Option Cut) :
    (a.repaint painted frame dirty offset grid lastOutput log cut now).1.entry = a.entry := by
  unfold repaint
  dsimp only
  split_ifs
  · have hpushed : (({ a with ledger := a.ledger.noteDamage dirty }.painting painted now).pushScreen frame offset
        ({ a with ledger := a.ledger.noteDamage dirty }.owedDeferred log) cut).1.entry = _ := entry_pushScreen frame _ cut
    split <;> rename_i h <;> rw [h] at hpushed
    · dsimp only
      split_ifs
      · exact (entry_settle _ _).trans hpushed
      · exact hpushed
    · exact hpushed
    · exact hpushed
  · rfl

theorem Kin.of_entry (h : allowed) (hentry : a'.entry = a.entry) : Kin allowed a a' :=
  .of_allowed h (congrArg Prod.fst hentry) (congrArg Prod.snd hentry)

end Attachment

section
variable {wire : Wire} {terminal : Option Terminal} {offset : ℕ} {a a' : Attachment}

theorem Acts.kin (h : Acts wire terminal offset a a') : Attachment.Kin (terminal.isSome = true) a a' := by
  induction h with
  | refl => exact .refl _ a
  | tail _ hact ih =>
    refine ih.trans ?_
    obtain ⟨act, hact, hnext⟩ := hact
    cases act with
    | aside => cases hnext; exact ⟨rfl, rfl, .inl⟩
    | path => cases hnext; exact ⟨rfl, rfl, .inl⟩
    | queue =>
      obtain ⟨_, _, -, -, heq⟩ := Seat.next_queue hnext
      cases heq
      exact ⟨rfl, rfl, .inl⟩
    | confirm => cases hnext; exact ⟨rfl, rfl, .inl⟩
    | regrid =>
      obtain ⟨_, rfl, heq⟩ := Option.map_eq_some_iff.1 hnext
      cases heq
      exact .of_allowed rfl rfl rfl
    | restart =>
      obtain ⟨_, rfl, heq⟩ := Option.map_eq_some_iff.1 hnext
      cases heq
      exact .of_allowed rfl rfl rfl
    | repaint =>
      obtain ⟨_, _, rfl, hpainted, heq⟩ := Seat.next_repaint hnext
      cases heq
      exact .of_entry rfl ((congrArg (·.1.entry) hpainted).symm.trans (Attachment.entry_repaint ..))
    | output => cases hact
    | write =>
      obtain ⟨_, -, heq⟩ := Option.map_eq_some_iff.1 hnext
      cases heq
      exact ⟨rfl, rfl, .inl⟩

end

/-! ### Serving one attachment -/

theorem serve_cases {β : Type*} (p : Attachment → Bool) (step : Attachment → Attachment × β) (l : List Attachment) :
    (serve p step l = none ∧ ∀ a ∈ l, p a = false) ∨
      ∃ l₁ a l₂, l = l₁ ++ a :: l₂ ∧ (∀ x ∈ l₁, p x = false) ∧ p a = true ∧
        serve p step l = some (l₁ ++ (step a).1 :: l₂, (step a).2) := by
  induction l with
  | nil => exact .inl ⟨rfl, by simp⟩
  | cons a rest ih =>
    by_cases hp : p a = true
    · exact .inr ⟨[], a, rest, rfl, by simp, hp, by simp [serve, hp]⟩
    · rw [Bool.not_eq_true] at hp
      rcases ih with ⟨hnone, hall⟩ | ⟨l₁, b, l₂, rfl, hbefore, hb, hsome⟩
      · exact .inl ⟨by simp [serve, hp, hnone], by simpa [hp] using hall⟩
      · exact .inr ⟨a :: l₁, b, l₂, rfl, by simpa [hp] using hbefore, hb, by simp [serve, hp, hsome]⟩

theorem serve_forall₂ {β : Type*} {p : Attachment → Bool} {step : Attachment → Attachment × β} {l l' : List Attachment}
    {b : β} {R : Attachment → Attachment → Prop} (h : serve p step l = some (l', b)) (hrefl : ∀ a, R a a)
    (hstep : ∀ a, R a (step a).1) : List.Forall₂ R l l' := by
  rcases serve_cases p step l with ⟨hnone, -⟩ | ⟨l₁, a, l₂, rfl, -, -, hsome⟩
  · rw [hnone] at h
    cases h
  · rw [hsome] at h
    cases h
    exact List.rel_append (List.forall₂_same.2 fun x _ => hrefl x)
      (.cons (hstep a) (List.forall₂_same.2 fun x _ => hrefl x))

namespace SessionActor

variable {wire : Wire} {s s' s'' : SessionActor} {now wrap : ℕ} {w : World}

theorem pumpAll_queued (attachments : List Attachment) (live : List (ForwardKey × LiveForward)) :
    List.Forall₂ Queued attachments (pumpAll wire now wrap attachments live).1 := by
  induction live generalizing attachments with
  | nil => exact List.forall₂_same.2 fun a _ => .refl
  | cons entry rest ih =>
    obtain ⟨key, f⟩ := entry
    unfold pumpAll
    split
    · exact ih attachments
    · rename_i served _ _ h
      have hserved : List.Forall₂ Queued attachments served :=
        serve_forall₂ h (fun _ => .refl) fun a => LiveForward.queued_pump f
      exact forall₂_trans hserved (ih served) .trans

/-! ### Turns that change attachments in place -/

/-- The same roster, each attachment led on by acts of its own. -/
structure Follows (wire : Wire) (s s' : SessionActor) : Prop where
  attachments : List.Forall₂ (Acts wire s.terminal s.offset) s.attachments s'.attachments
  retired : s'.retired = s.retired
  terminal : s'.terminal = s.terminal
  offset : s'.offset = s.offset

theorem Follows.refl (s : SessionActor) : s.Follows wire s := ⟨List.forall₂_same.2 fun _ _ => .refl, rfl, rfl, rfl⟩

theorem Follows.trans (h : s.Follows wire s') (h' : s'.Follows wire s'') : s.Follows wire s'' where
  attachments := by
    have := h'.attachments
    rw [h.terminal, h.offset] at this
    exact forall₂_trans h.attachments this .trans
  retired := h'.retired.trans h.retired
  terminal := h'.terminal.trans h.terminal
  offset := h'.offset.trans h.offset

theorem follows_of_serve {β : Type*} {p : Attachment → Bool} {step : Attachment → Attachment × β} {l : List Attachment} {b : β}
    (h : serve p step s.attachments = some (l, b)) (hstep : ∀ a, Acts wire s.terminal s.offset a (step a).1) :
    s.Follows wire { s with attachments := l } :=
  ⟨serve_forall₂ h (fun _ => .refl) hstep, rfl, rfl, rfl⟩

theorem follows_update {id : ℕ} {step : Attachment → Attachment} (hstep : ∀ a, Acts wire s.terminal s.offset a (step a)) :
    s.Follows wire (s.update id step) := by
  unfold update
  split
  · exact .refl s
  · rename_i h
    exact follows_of_serve h hstep

theorem follows_forwards (forwards : Forwards) : s.Follows wire { s with forwards } :=
  ⟨(Follows.refl s).attachments, rfl, rfl, rfl⟩

theorem follows_offerForward (client : ℕ) {message : Message} (hplain : message.isPlain = true) :
    s.Follows wire (s.offerForward wire client message) := by
  unfold offerForward
  split
  · exact .refl s
  · rename_i h
    refine follows_of_serve h fun a => ?_
    cases ha : a.sendForward wire message with
    | error _ => exact .refl
    | ok a' => exact (Attachment.queued_sendForward hplain ha).acts

variable (key : ForwardKey)

theorem follows_retireForward (reason : ForwardResetReason) :
    s.Follows wire (s.retireForward wire key reason) :=
  (follows_offerForward _ rfl).trans (follows_forwards _)

theorem follows_startForward : s.Follows wire (s.startForward wire key w) := by
  unfold startForward
  split_ifs
  · exact follows_retireForward _ _
  · exact follows_retireForward _ _
  · exact follows_retireForward _ _
  · exact follows_retireForward _ _
  · exact follows_forwards _

theorem follows_withForward (step : LiveForward → Option LiveForward) :
    s.Follows wire (s.withForward wire key step) := by
  unfold withForward
  split
  · split_ifs
    · exact follows_offerForward _ rfl
    · exact .refl s
  · split
    · exact follows_forwards _
    · exact follows_retireForward _ _

theorem follows_finishForward (outcome : Pumped) :
    s.Follows wire (s.finishForward wire key outcome) := by
  cases outcome with
  | kept => exact .refl s
  | failed => exact follows_retireForward _ _
  | done => exact follows_forwards _

theorem follows_finishAll (pumped : List ((ForwardKey × LiveForward) × Pumped)) :
    s.Follows wire (pumped.foldl (fun s entry => s.finishForward wire entry.1.1 entry.2) s) := by
  induction pumped generalizing s with
  | nil => exact .refl s
  | cons entry rest ih => exact (follows_finishForward _ _).trans ih

theorem follows_pumpForwards (now wrap : ℕ) : s.Follows wire (s.pumpForwards wire now wrap) := by
  have hpumped : s.Follows wire
      { s with
        attachments := (pumpAll wire now wrap s.attachments s.forwards.live).1
        forwards := { s.forwards with live := (pumpAll wire now wrap s.attachments s.forwards.live).2.map Prod.fst } } :=
    ⟨(pumpAll_queued _ _).imp fun _ _ => Queued.acts, rfl, rfl, rfl⟩
  exact hpumped.trans (follows_finishAll _)

theorem follows_ack (id seq : ℕ) : s.Follows wire (s.ack wire id seq) :=
  follows_update fun a =>
    (acts_aside a.link (a.stream.acknowledged seq).1 a.size a.consumed).trans (Attachment.queued_offer rfl).acts

theorem follows_regrid (resized : Bool) : s.Follows wire (s.regrid resized).1 := by
  unfold regrid
  split
  · exact .refl s
  · split_ifs with hskip
    · exact .refl s
    · exact .refl s
    · obtain ⟨terminal, hterminal⟩ : ∃ terminal, s.terminal = some terminal := by
        rw [not_or, Option.isNone_iff_eq_none] at hskip
        exact Option.ne_none_iff_exists'.1 hskip.2
      rename_i size _ _
      refine ⟨?_, rfl, rfl, rfl⟩
      refine List.forall₂_map_right_iff.2 (List.forall₂_same.2 fun a _ => ?_)
      refine acts_single (.regrid s.nextGeneration.generation size.rows) rfl ?_
      simp only [Seat.next, hterminal, Option.map_some, mark, nextGeneration, Option.elim_some]

/-! ### What every turn keeps -/

/-- Kept when attachments change in place, when one is dropped, and when a sweep changes or drops each. -/
structure Closed (wire : Wire) (I : SessionActor → Prop) : Prop where
  follows : ∀ {s s'}, I s → s.Follows wire s' → I s'
  dropFirst : ∀ {s} p now, I s → I (s.dropFirst p now)
  sweep : ∀ {s : SessionActor} {step : Attachment → Attachment × Bool} now, I s →
    (∀ a, Attachment.Kin (s.terminal.isSome = true) a (step a).1) →
    (∀ a, (step a).2 = false → Acts wire s.terminal s.offset a (step a).1) → I (s.sweep step now)

namespace Closed

variable {I : SessionActor → Prop}

theorem and {J : SessionActor → Prop} (hI : Closed wire I) (hJ : Closed wire J) : Closed wire fun s => I s ∧ J s where
  follows h hfollows := ⟨hI.follows h.1 hfollows, hJ.follows h.2 hfollows⟩
  dropFirst p now h := ⟨hI.dropFirst p now h.1, hJ.dropFirst p now h.2⟩
  sweep now h hkin hacts := ⟨hI.sweep now h.1 hkin hacts, hJ.sweep now h.2 hkin hacts⟩

section

variable (hI : Closed wire I) (h : I s)

include hI h

theorem dropAll (gone : List ℕ) (now : ℕ) : I (s.dropAll gone now) := by
  induction gone generalizing s with
  | nil => exact h
  | cons id rest ih => exact ih (hI.dropFirst _ _ h)

theorem repaint (painted : Painted) (w : World) : I (s.repaint painted w).1 := by
  unfold SessionActor.repaint
  split_ifs
  · exact h
  · split
    · exact h
    · rename_i terminal hterminal
      split
      · exact h
      · refine hI.sweep _ h (fun a => .of_entry (by rw [hterminal]; rfl) (Attachment.entry_repaint ..)) fun a hstays => ?_
        rename_i frame dirty hframe
        refine acts_single (.repaint painted frame dirty s.size (w.cut a.id) w.now) rfl ?_
        simp only [Seat.next, hterminal, Option.bind_some]
        split
        · rename_i heq
          rw [heq]
        · rename_i heq
          rw [heq] at hstays
          cases hstays

theorem gap (a : Attachment) (now : ℕ) : I (s.gap a now) := by
  unfold SessionActor.gap
  split
  · exact hI.dropFirst _ _ h
  · exact h

theorem gated {a : Attachment} {seq : ℕ} {effect : SessionActor → SessionActor}
    (heffect : ∀ t, I t → t.terminal = s.terminal → I (effect t)) : I (s.gated wire a seq now effect) := by
  have hfollows : s.Follows wire (s.update a.id fun b => { b with stream := (a.stream.admit_ seq).1 }) :=
    follows_update fun b => acts_aside b.link _ b.size b.consumed
  have hstream := hI.follows h hfollows
  unfold SessionActor.gated
  dsimp only
  split
  · exact heffect _ hstream hfollows.terminal
  · exact hI.follows hstream (follows_ack _ _)
  · exact hI.gap hstream _ _

theorem input (a : Attachment) (seq : ℕ) (w : World) : I (s.input wire a seq w) := by
  unfold SessionActor.input
  split
  · split_ifs
    · have happlied : s.Follows wire (s.update a.id fun a => { a with stream := a.stream.applied seq w.now }) :=
        follows_update fun b => acts_aside b.link _ b.size b.consumed
      exact hI.follows h (happlied.trans (follows_ack _ _))
    · exact hI.dropFirst _ _ h
  · exact hI.follows h (follows_ack _ _)
  · exact hI.gap h _ _

theorem resize (id : ℕ) (size : Screen.GridSize) (seq : ℕ) (w : World) :
    I (s.resize wire id size seq w) := by
  have hsized : s.Follows wire (s.update id fun a => { a with size }) :=
    follows_update fun b => acts_aside b.link b.stream _ b.consumed
  have hregrid := hI.follows h (hsized.trans (follows_regrid w.resized))
  unfold SessionActor.resize
  split <;> rename_i heq <;> rw [heq] at hregrid
  · exact hI.follows hregrid (follows_ack _ _)
  · exact hI.follows (hI.dropFirst _ _ hregrid) (follows_regrid _)

theorem requestRepaint (hsome : s.terminal.isSome = true) (id seq : ℕ) (w : World) :
    I (s.requestRepaint wire id seq w) := by
  obtain ⟨terminal, hterminal⟩ := Option.isSome_iff_exists.1 hsome
  have hgeneration : s.Follows wire s.nextGeneration := ⟨(Follows.refl s).attachments, rfl, rfl, rfl⟩
  have hrestarted : s.nextGeneration.Follows wire (s.nextGeneration.update id fun a =>
      (a.restart s.nextGeneration.generation s.nextGeneration.size.rows).beginSync s.nextGeneration.mark) := by
    refine follows_update fun a => acts_single (.restart s.nextGeneration.generation s.size.rows) rfl ?_
    simp only [Seat.next, nextGeneration, hterminal, Option.map_some, mark, Option.elim_some]
  have hpainted := hI.repaint (hI.follows h (hgeneration.trans hrestarted)) (.one id) w
  unfold SessionActor.requestRepaint
  dsimp only
  split <;> rename_i heq <;> rw [heq] at hpainted
  · exact hI.follows hpainted (follows_ack _ _)
  · exact hI.dropFirst _ _ hpainted

theorem command (id : ℕ) (request : Request) (w : World) :
    I (s.command wire id request w).1 := by
  unfold SessionActor.command
  split
  · exact h
  · rename_i a _
    have hstirred : s.Follows wire (s.update id fun a => { a with link := a.link.stirred }) :=
      follows_update fun b => acts_aside _ b.stream b.size b.consumed
    have h' := hI.follows h hstirred
    cases request with
    | command message =>
      dsimp only
      split
      · split_ifs
        · exact hI.input h' _ _ _
        · exact hI.gated h' fun t ht _ => hI.follows ht (follows_ack _ _)
      · exact hI.gated h' fun t ht _ => hI.resize ht _ _ _ _
      · split_ifs with hsome
        · exact hI.gated h' fun t ht hterminal => hI.requestRepaint ht (by rw [hterminal]; exact hsome) _ _ _
        · exact hI.gated h' fun t ht _ => hI.follows ht (follows_ack _ _)
      · exact hI.gated h' fun t ht _ => hI.follows ht ((follows_startForward _).trans (follows_ack _ _))
    | screenAck generation version =>
      exact hI.follows h' (follows_update fun a => acts_single (.confirm generation version) rfl rfl)
    | close => exact hI.dropAll h' _ _
    | detach seq =>
      refine hI.dropFirst _ _ (hI.follows h' (follows_update fun b => ?_))
      exact acts_aside b.link _ b.size b.consumed
    | pong token consumed => exact hI.follows h (follows_update fun b => acts_aside _ b.stream b.size _)
    | consumed off => exact hI.follows h' (follows_update fun b => acts_aside b.link b.stream b.size _)
    | forwardData stream off fin bytes => exact hI.follows h' (follows_withForward _ _)
    | forwardAck stream off window held => exact hI.follows h' (follows_withForward _ _)
    | forwardReset stream => exact hI.follows h' (follows_forwards _)

theorem tick (w : World) : I (s.tick wire w).1 := by
  unfold SessionActor.tick
  dsimp only
  split_ifs
  · exact hI.dropAll h _ _
  · exact hI.dropAll h _ _
  · have hprobe : ∀ a : Attachment, Acts wire s.terminal s.offset a (a.probe wire w.now).1 := fun a => acts_probe
    have hswept : I (s.sweep (·.probe wire w.now) w.now) := hI.sweep _ h (fun a => (hprobe a).kin) fun a _ => hprobe a
    have hpainted := hI.repaint (hI.follows hswept (follows_pumpForwards w.now w.wrap)) .due w
    split <;> rename_i heq <;> rw [heq] at hpainted <;> exact hpainted

/-- The turns that take output down and that install a client are left to the caller, and a turn that ends
the session is not looked at. -/
theorem handle {event : ActorEvent} (hhandle : s.handle wire event w = (s', .continue))
    (hattach : ∀ id client closed confirmed framing, event = .attach id client closed confirmed framing →
      I (s.attach wire id client (if closed then Sink.new.close else .new) confirmed framing w))
    (houtput : ∀ bytes t, event = .ptyOutput bytes → s.output wire bytes w = (t, .ok ()) → I t) : I s' := by
  have hfst : (s.handle wire event w).1 = s' := congrArg Prod.fst hhandle
  cases event with
  | attach id client closed confirmed framing => exact hfst ▸ hattach _ _ _ _ _ rfl
  | command id request => exact hfst ▸ hI.command h _ _ _
  | detached id => exact hfst ▸ hI.dropFirst _ _ h
  | ptyOutput bytes =>
    unfold SessionActor.handle at hhandle
    dsimp only at hhandle
    split at hhandle
    · rename_i t _ heq
      exact (Prod.mk.inj hhandle).1 ▸ houtput bytes t rfl heq
    · exact nomatch (Prod.mk.inj hhandle).2
  | ptyEnded =>
    unfold SessionActor.handle at hhandle
    split_ifs at hhandle
    · exact nomatch (Prod.mk.inj hhandle).2
    · exact (Prod.mk.inj hhandle).1 ▸ h
  | kill => exact nomatch (Prod.mk.inj hhandle).2
  | forwardConnected key failure =>
    cases failure with
    | some reason => exact hfst ▸ hI.follows h (follows_retireForward _ _)
    | none => exact hfst ▸ hI.follows h (follows_forwards _)
  | forwardBytes key bytes => exact hfst ▸ hI.follows h (follows_forwards _)
  | forwardEof key failed =>
    rw [← hfst]
    unfold SessionActor.handle forwardEof
    dsimp only
    split_ifs
    · exact hI.follows h (follows_retireForward _ _)
    · exact hI.follows h (follows_forwards _)

theorem next {step : Step} (hnext : s.next wire step = some s')
    (hattach : ∀ id client closed confirmed framing w, step = .event (.attach id client closed confirmed framing) w →
      I (s.attach wire id client (if closed then Sink.new.close else .new) confirmed framing w))
    (houtput : ∀ bytes w t, step = .event (.ptyOutput bytes) w → s.output wire bytes w = (t, .ok ()) → I t) : I s' := by
  unfold SessionActor.next at hnext
  split_ifs at hnext
  cases step with
  | regrid w =>
    cases hnext
    exact hI.follows h (follows_regrid _)
  | tick w =>
    have htick := hI.tick h w
    dsimp only at hnext
    split at hnext
    · rename_i heq
      rw [heq] at htick
      cases hnext
      exact htick
    · cases hnext
  | event event w =>
    dsimp only at hnext
    split at hnext
    · rename_i t hhandle
      cases hnext
      refine hI.follows (hI.handle h hhandle ?_ ?_) (follows_pumpForwards _ _)
      · exact fun id client closed confirmed framing heq => hattach id client closed confirmed framing w (by rw [heq])
      · exact fun bytes t heq => houtput bytes w t (by rw [heq])
    · cases hnext
  | writer id step =>
    simp only [write] at hnext
    split at hnext
    · rename_i heq
      cases hnext
      refine hI.follows h (follows_of_serve heq fun a => ?_)
      split
      · rename_i hwrite
        exact acts_single (.write step) rfl (by simp only [Seat.next, hwrite, Option.map_some])
      · exact .refl
    · cases hnext
  | socket key step =>
    simp only [work, Option.bind_eq_some_iff, Option.map_eq_some_iff] at hnext
    obtain ⟨_, _, _, _, rfl⟩ := hnext
    exact hI.follows h (follows_forwards _)
  | socketFailed key =>
    cases hnext
    exact hI.follows h (follows_forwards _)
  | path id framing =>
    cases hnext
    exact hI.follows h (follows_update fun a => acts_single (.path framing) rfl rfl)
  | rehash live =>
    dsimp only at hnext
    split_ifs at hnext
    cases hnext
    exact hI.follows h (follows_forwards _)

end

end Closed

end SessionActor

end Braid.Session
