import Braid.Session.Roster
import Braid.Session.Watch

/-! Every attachment of every session a run reaches is a seat that a run of its own acts reaches, starting
from the greeting of a new client. So what is proved of seats holds of the attachments of a session whatever
the other clients do. A condition on the output of a session is passed on to its seats. -/

namespace Braid.Session

open Foundation
open Commands (ClientStream)

namespace SessionActor

/-- What a session keeps of its output is the end of all there has been. -/
def Kept (s : SessionActor) : Prop :=
  ∀ terminal, s.terminal = some terminal → s.offset = terminal.forwarded.length ∧
    terminal.backlog <:+ terminal.forwarded ∧ terminal.deferred.Marked ∧ terminal.deferred.Counted

def seat (s : SessionActor) (a : Attachment) : Seat := ⟨a, s.terminal, s.offset⟩

end SessionActor

namespace Seat

variable (wire : Wire)

/-- The seat of a client that has just been greeted. -/
def Arrives (v : Seat) : Prop :=
  ∃ (s : SessionActor) (id client : ℕ) (stream : ClientStream) (framing : Framing) (confirmed : Option ConfirmedOutput)
    (w : World), s.Kept ∧ v.terminal = s.terminal ∧ v.offset = s.offset ∧
      s.greet wire (s.newcomer id client stream .new framing w.now) confirmed w = (v.attachment, true)

end Seat

namespace SessionActor

variable {wire : Wire} {s s' : SessionActor} {now : ℕ} {w : World} {P : Seat → Prop}

/-- What every seat of a session is like. -/
structure Seats (P : Seat → Prop) (s : SessionActor) : Prop where
  orderly : s.Orderly
  kept : s.Kept
  seats : ∀ a ∈ s.attachments, P (s.seat a)

theorem Kept.of_context (h : s.Kept) (hterminal : s'.terminal = s.terminal) (hoffset : s'.offset = s.offset) : s'.Kept := by
  intro terminal hsome
  rw [hoffset]
  exact h terminal (hterminal ▸ hsome)

theorem seat_of_context (hterminal : s'.terminal = s.terminal) (hoffset : s'.offset = s.offset) (a : Attachment) :
    s'.seat a = s.seat a := by
  rw [seat, hterminal, hoffset, seat]

/-- Acts that leave the output alone keep `P`. -/
def Steady (wire : Wire) (P : Seat → Prop) : Prop :=
  ∀ v act v', act.isOutput = false → P v → v.next wire act = some v' → P v'

theorem Steady.acts (hP : Steady wire P) {terminal : Option Terminal} {offset : ℕ} {a a' : Attachment}
    (h : P ⟨a, terminal, offset⟩) (hacts : Acts wire terminal offset a a') : P ⟨a', terminal, offset⟩ := by
  induction hacts with
  | refl => exact h
  | tail _ hact ih =>
    obtain ⟨act, hquiet, hnext⟩ := hact
    exact hP _ act _ hquiet ih hnext

theorem dropFirst_context (s : SessionActor) (p : Attachment → Bool) (now : ℕ) :
    (s.dropFirst p now).terminal = s.terminal ∧ (s.dropFirst p now).offset = s.offset ∧
      (s.dropFirst p now).attachments = s.attachments.eraseP p := by
  unfold dropFirst
  split
  · rename_i hnone
    refine ⟨rfl, rfl, (List.eraseP_of_forall_not fun a ha => ?_).symm⟩
    exact List.find?_eq_none.1 hnone a ha
  · unfold noteAttachments retire
    dsimp only
    split_ifs <;> exact ⟨rfl, rfl, rfl⟩

theorem closed_seats (hP : Steady wire P) : Closed wire (Seats P) where
  follows h hfollows := by
    refine ⟨h.orderly.like hfollows.like, h.kept.of_context hfollows.terminal hfollows.offset, fun a' ha' => ?_⟩
    obtain ⟨a, ha, hacts⟩ := exists_of_forall₂ hfollows.attachments ha'
    rw [seat_of_context hfollows.terminal hfollows.offset]
    exact hP.acts (h.seats a ha) hacts
  dropFirst p now h := by
    obtain ⟨hterminal, hoffset, hleft⟩ := dropFirst_context _ p now
    refine ⟨h.orderly.dropFirst p now, h.kept.of_context hterminal hoffset, fun a ha => ?_⟩
    rw [seat_of_context hterminal hoffset]
    exact h.seats a (List.mem_of_mem_eraseP (hleft ▸ ha))
  sweep now h hkin hacts := by
    obtain ⟨hleaves, hstays⟩ := sweep_leaves h.orderly hkin now
    refine ⟨h.orderly.sweep hkin now, h.kept.of_context hleaves.terminal hleaves.offset, fun x hx => ?_⟩
    obtain ⟨a, ha, hstep⟩ := (hstays x).1 hx
    rw [seat_of_context hleaves.terminal hleaves.offset]
    have hled := hP.acts (h.seats a ha) (hacts a (by rw [hstep]))
    rwa [hstep] at hled

/-! ### A client attaches -/

theorem greet_closed {a : Attachment} (h : a.sink.isClosed = true) (confirmed : Option ConfirmedOutput) :
    (s.greet wire a confirmed w).2 = false := by
  have hsend : ∀ message, ∃ error, a.send wire message = .error error := by
    intro message
    cases hsent : a.send wire message with
    | error error => exact ⟨error, rfl⟩
    | ok a' =>
      obtain ⟨_, _, -, hpush, -⟩ := Attachment.send_ok hsent
      obtain ⟨_, hopen, -⟩ := Sink.push_ok hpush
      exact absurd (hopen.symm.trans h) Bool.false_ne_true
  obtain ⟨error, herror⟩ := hsend (if s.terminal.isSome = true then .hello else .helloForward)
  unfold greet
  rw [herror]

theorem takeStream_context (s : SessionActor) (client : ℕ) :
    (s.takeStream client).1.terminal = s.terminal ∧ (s.takeStream client).1.offset = s.offset ∧
      (s.takeStream client).1.attachments = s.attachments := by
  unfold takeStream
  split <;> exact ⟨rfl, rfl, rfl⟩

theorem attach_spec (wire : Wire) (hkept : s.Kept) {id : ℕ} (hid : id ∉ s.attachments.map Attachment.id) (client : ℕ) (closed : Bool)
    (confirmed : Option ConfirmedOutput) (framing : Framing) (w : World) :
    let attached := s.attach wire id client (if closed then Sink.new.close else .new) confirmed framing w
    attached.terminal = s.terminal ∧ attached.offset = s.offset ∧
      ∀ a ∈ attached.attachments, a ∈ s.attachments ∨ (s.seat a).Arrives wire := by
  intro attached
  obtain ⟨hterminal, hoffset, hleft⟩ := dropFirst_context s (·.client == client) w.now
  have hsub : ∀ a ∈ (s.dropFirst (·.client == client) w.now).attachments, a ∈ s.attachments := fun a ha =>
    List.mem_of_mem_eraseP (hleft ▸ ha)
  unfold attached SessionActor.attach
  generalize s.dropFirst (·.client == client) w.now = t at hterminal hoffset hsub
  obtain ⟨hterminal', hoffset', hattachments⟩ := takeStream_context t client
  dsimp only
  set u := (t.takeStream client).1
  set newcomer := u.newcomer id client (t.takeStream client).2 (if closed then Sink.new.close else .new) framing w.now
  have hcontext : u.terminal = s.terminal ∧ u.offset = s.offset := ⟨hterminal'.trans hterminal, hoffset'.trans hoffset⟩
  have hold : ∀ a ∈ u.attachments, a ∈ s.attachments := fun a ha => hsub a (hattachments ▸ ha)
  split_ifs with hfull hreserved hstays
  · exact ⟨rfl, rfl, fun a ha => .inl ha⟩
  · exact ⟨hterminal, hoffset, fun a ha => .inl (hsub a ha)⟩
  · refine ⟨hcontext.1, hcontext.2, fun a ha => (List.mem_append.1 ha).imp (hold a) fun hnew => ?_⟩
    cases closed with
    | true => exact absurd (hstays.symm.trans (greet_closed rfl confirmed)) Bool.noConfusion
    | false =>
      refine ⟨u, id, client, (t.takeStream client).2, framing, confirmed, w, hkept.of_context hcontext.1 hcontext.2,
        hcontext.1.symm, hcontext.2.symm, ?_⟩
      rw [List.mem_singleton.1 hnew]
      exact Prod.ext rfl hstays
  · -- a client that could not be greeted is the one that leaves again
    obtain ⟨hterminal₂, hoffset₂, hleft₂⟩ := dropFirst_context
      ({ u with attachments := u.attachments ++ [(u.greet wire newcomer confirmed w).1] }.noteAttachments w.now) (·.id == id) w.now
    refine ⟨hterminal₂.trans hcontext.1, hoffset₂.trans hcontext.2, fun a ha => .inl (hold a ?_)⟩
    have hgreeted : (u.greet wire newcomer confirmed w).1.id = id := kin_greet.id
    have hothers : ∀ b ∈ u.attachments, ¬(b.id == id) = true := fun b hb heq =>
      hid (List.mem_map.2 ⟨b, hold b hb, by simpa using heq⟩)
    have herase : (u.attachments ++ [(u.greet wire newcomer confirmed w).1]).eraseP (·.id == id) = u.attachments := by
      rw [List.eraseP_append_right _ hothers, List.eraseP_cons_of_pos (by simpa using hgreeted), List.append_nil]
    exact herase ▸ hleft₂ ▸ ha

theorem Seats.attach (h : Seats P s) (harrives : ∀ a, (s.seat a).Arrives wire → P (s.seat a)) {id : ℕ}
    (hid : id ∉ s.attachments.map Attachment.id) (client : ℕ) (closed : Bool) (confirmed : Option ConfirmedOutput)
    (framing : Framing) (w : World) :
    Seats P (s.attach wire id client (if closed then Sink.new.close else .new) confirmed framing w) := by
  obtain ⟨hterminal, hoffset, hattached⟩ := attach_spec wire h.kept hid client closed confirmed framing w
  refine ⟨h.orderly.attach hid .., h.kept.of_context hterminal hoffset, fun a ha => ?_⟩
  rw [seat_of_context hterminal hoffset]
  exact (hattached a ha).elim (h.seats a) (harrives a)

/-! ### Output -/

section
variable (wire s) (bytes : List UInt8) (w : World)

/-- The attachments as a run of output leaves them. -/
def handed : List Attachment :=
  s.attachments.map fun a =>
    (a.forward wire s.offset bytes s.size (s.terminal.bind Terminal.lastOutput) s.mark w.now).1

/-- Some client is sent whole screens when the output is handed out. -/
def scanning : Bool := (s.handed wire bytes w).any (·.isSyncing)

end

theorem Kept.append (h : s.Kept) {terminal recorded : Terminal} (bytes : List UInt8) (hterminal : s.terminal = some terminal)
    (hterminal' : s'.terminal = some recorded) (hoffset' : s'.offset = s.offset + bytes.length)
    (hforwarded : recorded.forwarded = terminal.forwarded ++ bytes)
    (hbacklog : recorded.backlog <:+ terminal.backlog ++ bytes) (hlater : terminal.deferred.Later recorded.deferred)
    (hcounted : terminal.deferred.Counted → recorded.deferred.Counted) : s'.Kept := by
  obtain ⟨hoffset, hkept, hmarked, hcount⟩ := h terminal hterminal
  intro t ht
  obtain rfl := Option.some.inj (hterminal'.symm.trans ht)
  refine ⟨?_, ?_, hlater.marked hmarked, hcounted hcount⟩
  · rw [hoffset', hforwarded, hoffset, List.length_append]
  · rw [hforwarded]
    exact hbacklog.trans (List.suffix_append_self_iff.mpr hkept)

theorem dismiss_spec (h : s.Orderly) (now : ℕ) :
    (s.dismiss now).attachments = [] ∧ (s.dismiss now).terminal = s.terminal ∧ (s.dismiss now).offset = s.offset := by
  have hids : (s.attachments.reverse.map Attachment.id).Nodup := by
    rw [List.map_reverse, List.nodup_reverse]
    exact h.ids
  obtain ⟨hleaves, hstays⟩ := dropAll_leaves h s.attachments.reverse (fun a => List.mem_reverse.1) hids now
  refine ⟨List.eq_nil_iff_forall_not_mem.2 fun a ha => ?_, hleaves.terminal, hleaves.offset⟩
  obtain ⟨hmem, hnot⟩ := (hstays a).1 ha
  exact hnot (List.mem_map_of_mem (List.mem_reverse.2 hmem))

theorem later_record (terminal : Terminal) (bytes : List UInt8) (scanned : Bool) (floor now : ℕ) :
    terminal.deferred.Later (terminal.record bytes scanned floor now).deferred := by
  refine DeferredOsc.Later.trans ?_ (DeferredOsc.later_forgetBefore floor)
  split_ifs
  · exact DeferredOsc.later_feed bytes
  · exact .refl _

variable {terminal : Terminal}

theorem counted_record (h : terminal.deferred.Counted) (bytes : List UInt8) (scanned : Bool) (floor now : ℕ) :
    (terminal.record bytes scanned floor now).deferred.Counted := by
  refine DeferredOsc.Counted.forgetBefore ?_ floor
  split_ifs
  · exact h.feed bytes
  · exact h

/-- The session with a run of output taken down and not handed out. -/
def taken (s : SessionActor) (terminal : Terminal) (bytes : List UInt8) (now : ℕ) : SessionActor :=
  { s with
    terminal := some { terminal with
      lastOutput := some now
      backlog := (terminal.backlog ++ bytes).drop ((terminal.backlog ++ bytes).length - backlogBytes)
      forwarded := terminal.forwarded ++ bytes }
    offset := s.offset + bytes.length }

variable {bytes : Option (List UInt8)}

theorem output_ok (hok : s.output wire bytes w = (s', .ok ())) :
    s' = s ∨ ∃ terminal run, s.terminal = some terminal ∧ bytes = some run ∧
      (w.flushed = some false ∧ s' = (s.taken terminal run w.now).dismiss w.now ∨
        s.attachments = [] ∧ s' = s.taken terminal run w.now ∨
        w.flushed = some true ∧
          s' = ((((s.taken terminal run w.now).scan run (s.handed wire run w)).sweep
            (·.forward wire s.offset run s.size terminal.lastOutput s.mark w.now) w.now).repaint .due w).1) := by
  unfold SessionActor.output at hok
  split at hok
  · exact .inl (Prod.mk.inj hok).1.symm
  · rename_i terminal hterminal
    split at hok
    · exact nomatch (Prod.mk.inj hok).2
    · rename_i run
      refine .inr ⟨terminal, run, hterminal, rfl, ?_⟩
      unfold SessionActor.forward at hok
      dsimp only at hok
      by_cases hover : Forwarding.u64Max < s.offset + run.length
      · rw [if_pos hover] at hok
        exact nomatch (Prod.mk.inj hok).2
      · rw [if_neg hover] at hok
        split at hok
        · exact nomatch (Prod.mk.inj hok).2
        · rename_i hflushed
          exact .inl ⟨hflushed, (Prod.mk.inj hok).1.symm⟩
        · rename_i hflushed
          split_ifs at hok with hempty
          · exact .inr (.inl ⟨List.isEmpty_iff.1 hempty, (Prod.mk.inj hok).1.symm⟩)
          · refine .inr (.inr ⟨hflushed, ?_⟩)
            have hmark : s.mark = terminal.deferred.mark := by rw [mark, hterminal, Option.elim_some]
            rw [handed, hterminal, hmark]
            exact (congrArg Prod.fst hok).symm

theorem orderly_taken (h : s.Orderly) (hterminal : s.terminal = some terminal) (bytes : List UInt8) :
    (s.taken terminal bytes now).Orderly :=
  h.like ⟨(Like.refl s).attachments, rfl, by rw [hterminal]; rfl⟩

theorem kept_taken (h : s.Kept) (hterminal : s.terminal = some terminal) (bytes : List UInt8) :
    (s.taken terminal bytes now).Kept := by
  refine h.append bytes hterminal rfl rfl rfl ?_ (.refl _) id
  generalize backlogBytes = limit
  exact List.drop_suffix _ _

theorem scan_taken (wire : Wire) (s : SessionActor) (terminal : Terminal) (bytes : List UInt8) (w : World) :
    ∃ floor, (∀ a ∈ s.handed wire bytes w, floor ≤ a.deferredFrom) ∧
      ((s.taken terminal bytes w.now).scan bytes (s.handed wire bytes w)).terminal =
        some (terminal.record bytes (s.scanning wire bytes w) floor w.now) := by
  refine ⟨((s.handed wire bytes w).map (·.deferredFrom)).min?.getD
    (if s.scanning wire bytes w then terminal.deferred.feed bytes else terminal.deferred).mark, fun a ha => ?_, ?_⟩
  · have hmem : a.deferredFrom ∈ (s.handed wire bytes w).map (·.deferredFrom) := List.mem_map_of_mem ha
    obtain ⟨least, hleast⟩ := Option.isSome_iff_exists.1 (List.isSome_min?_of_mem hmem)
    rw [hleast, Option.getD_some]
    exact List.le_min?_iff hleast |>.mp le_rfl _ hmem
  · simp only [scan, taken, Option.map_some, Terminal.record, scanning]
    congr

/-- Output that is handed out is taken down and given to every attachment that stays. -/
theorem handOut_spec (wire : Wire) (h : s.Orderly) (hterminal : s.terminal = some terminal)
    (bytes : List UInt8) (w : World) :
    ∃ (floor : ℕ) (t : SessionActor), ((s.taken terminal bytes w.now).scan bytes (s.handed wire bytes w)).sweep
        (·.forward wire s.offset bytes s.size terminal.lastOutput s.mark w.now) w.now = t ∧
      t.Orderly ∧ t.terminal = some (terminal.record bytes (s.scanning wire bytes w) floor w.now) ∧
      t.offset = s.offset + bytes.length ∧ ∀ x ∈ t.attachments, floor ≤ x.deferredFrom ∧ x ∈ s.handed wire bytes w ∧
        ∃ a ∈ s.attachments, a.forward wire s.offset bytes s.size terminal.lastOutput s.mark w.now = (x, false) := by
  obtain ⟨floor, hfloor, hscanned⟩ := scan_taken wire s terminal bytes w
  have horderly : ((s.taken terminal bytes w.now).scan bytes (s.handed wire bytes w)).Orderly :=
    h.like ⟨(Like.refl s).attachments, rfl, by rw [hscanned, hterminal]; rfl⟩
  have hkin : ∀ a : Attachment, Attachment.Kin
      (((s.taken terminal bytes w.now).scan bytes (s.handed wire bytes w)).terminal.isSome = true) a
      (a.forward wire s.offset bytes s.size terminal.lastOutput s.mark w.now).1 := fun a =>
    .of_entry (by rw [hscanned]; rfl) (Attachment.entry_forward ..)
  obtain ⟨hleaves, hstays⟩ := sweep_leaves horderly hkin w.now
  refine ⟨floor, _, rfl, horderly.sweep hkin _, hleaves.terminal.trans hscanned, hleaves.offset, fun x hx => ?_⟩
  obtain ⟨a, ha, hstep⟩ := (hstays x).1 hx
  have hmem : x ∈ s.handed wire bytes w := by
    rw [handed, hterminal]
    exact List.mem_map.2 ⟨a, ha, congrArg Prod.fst hstep⟩
  exact ⟨hfloor x hmem, hmem, a, ha, hstep⟩

theorem closed_terminal (wire : Wire) (K : Option Terminal → Prop) : Closed wire fun s => s.Orderly ∧ K s.terminal where
  follows h hfollows := ⟨h.1.like hfollows.like, hfollows.terminal ▸ h.2⟩
  dropFirst p now h := ⟨h.1.dropFirst p now, by rw [(dropFirst_context _ p now).1]; exact h.2⟩
  sweep now h hkin _ := ⟨h.1.sweep hkin now, (sweep_leaves h.1 hkin now).1.terminal ▸ h.2⟩

theorem output_terminal (h : s.Orderly) (hok : s.output wire bytes w = (s', .ok ())) :
    s'.terminal = s.terminal ∨ ∃ terminal run recorded, s.terminal = some terminal ∧ bytes = some run ∧
      s'.terminal = some recorded ∧ recorded.forwarded = terminal.forwarded ++ run ∧
      ((w.flushed = some false ∨ s.attachments = []) ∧ recorded.deferred = terminal.deferred ∨
        w.flushed = some true ∧ ∃ floor, recorded = terminal.record run (s.scanning wire run w) floor w.now) := by
  rcases output_ok hok with rfl | ⟨terminal, run, hterminal, rfl, ⟨hflushed, rfl⟩ | ⟨hempty, rfl⟩ | ⟨hflushed, rfl⟩⟩
  · exact .inl rfl
  · obtain ⟨-, hcontext, -⟩ := dismiss_spec (orderly_taken h hterminal run) w.now
    exact .inr ⟨terminal, run, _, hterminal, rfl, hcontext, rfl, .inl ⟨.inl hflushed, rfl⟩⟩
  · exact .inr ⟨terminal, run, _, hterminal, rfl, rfl, rfl, .inl ⟨.inr hempty, rfl⟩⟩
  · obtain ⟨floor, t, rfl, horderly, hrecorded, -⟩ := handOut_spec wire h hterminal run w
    obtain ⟨-, hpainted⟩ := (closed_terminal wire (· = some _)).repaint ⟨horderly, hrecorded⟩ .due w
    exact .inr ⟨terminal, run, _, hterminal, rfl, hpainted, rfl, .inr ⟨hflushed, floor, rfl⟩⟩

theorem Seats.handOut (h : Seats P s) (hterminal : s.terminal = some terminal) {bytes : List UInt8}
    {w : World} (houtput : ∀ a ∈ s.attachments, ∀ floor v',
      (s.seat a).next wire (.output bytes s.size (s.scanning wire bytes w) floor w.now) = some v' → P v') :
    Seats P (((s.taken terminal bytes w.now).scan bytes (s.handed wire bytes w)).sweep
      (·.forward wire s.offset bytes s.size terminal.lastOutput s.mark w.now) w.now) := by
  obtain ⟨floor, t, heq, horderly, hrecorded, hoffset, hstays⟩ := handOut_spec wire h.orderly hterminal bytes w
  rw [heq]
  refine ⟨horderly, ?_, fun x hx => ?_⟩
  · refine h.kept.append bytes hterminal hrecorded hoffset rfl ?_ (later_record _ _ _ _ _) fun hcount => counted_record hcount _ _ _ _
    rw [Terminal.record]
    generalize backlogBytes = limit
    exact List.drop_suffix _ _
  · obtain ⟨hfloor, hmem, a, ha, hstep⟩ := hstays x hx
    refine houtput a ha floor _ ?_
    have hmark : s.mark = terminal.deferred.mark := by rw [mark, hterminal, Option.elim_some]
    rw [hmark] at hstep
    simp only [Seat.next, seat, hrecorded, hoffset, hterminal, Option.bind_some, hstep]
    exact if_pos ⟨fun hsyncing => List.any_eq_true.2 ⟨x, hmem, hsyncing⟩, hfloor⟩

theorem Seats.output (hP : Steady wire P) (h : Seats P s) {w : World}
    (houtput : ∀ run, bytes = some run → w.flushed = some true → ∀ a ∈ s.attachments, ∀ floor v',
      (s.seat a).next wire (.output run s.size (s.scanning wire run w) floor w.now) = some v' → P v')
    (hok : s.output wire bytes w = (s', .ok ())) : Seats P s' := by
  rcases output_ok hok with rfl | ⟨terminal, run, hterminal, rfl, ⟨-, rfl⟩ | ⟨hempty, rfl⟩ | ⟨hflushed, rfl⟩⟩
  · exact h
  · have horderly : (s.taken terminal run w.now).Orderly := orderly_taken h.orderly hterminal run
    obtain ⟨hempty, hcontext⟩ := dismiss_spec horderly w.now
    refine ⟨horderly.dropAll _ _, (kept_taken h.kept hterminal run).of_context hcontext.1 hcontext.2, ?_⟩
    rw [hempty]
    exact fun a ha => nomatch ha
  · refine ⟨orderly_taken h.orderly hterminal run, kept_taken h.kept hterminal run, ?_⟩
    exact fun a ha => absurd (hempty ▸ ha : a ∈ []) List.not_mem_nil
  · exact (closed_seats hP).repaint (h.handOut hterminal (houtput run rfl hflushed)) _ _

/-! ### Runs -/

theorem seats_new (terminal : Bool) (size : Screen.GridSize) (now : ℕ) : Seats P (new terminal size now) := by
  refine ⟨orderly_new _ _ _, fun t ht => ?_, fun a ha => nomatch ha⟩
  cases terminal with
  | false => cases ht
  | true =>
    cases ht
    exact ⟨rfl, List.suffix_rfl, DeferredOsc.marked_new, DeferredOsc.counted_new⟩

end SessionActor

/-! ### The log of a seat -/

namespace Seat

variable {wire : Wire} {v v' : Seat} {act : Act}

theorem Arrives.log (h : v.Arrives wire) : v.log.Marked ∧ v.log.Counted := by
  obtain ⟨s, id, client, stream, framing, confirmed, w, hkept, hterminal, -, -⟩ := h
  rw [Seat.log, hterminal]
  cases hsome : s.terminal with
  | none => exact ⟨DeferredOsc.marked_new, DeferredOsc.counted_new⟩
  | some terminal => exact (hkept terminal hsome).2.2

theorem later_next (h : v.next wire act = some v') : v.log.Later v'.log := by
  cases hact : act.isOutput with
  | false =>
    rw [log, log, (next_context hact h).1]
    exact .refl _
  | true =>
    cases act with
    | output bytes grid scanned floor now =>
      obtain ⟨terminal, attachment, hterminal, -, -, -, rfl⟩ := next_output h
      rw [log, hterminal]
      exact SessionActor.later_record _ _ _ _ _
    | _ => cases hact

theorem counted_next (hcounted : v.log.Counted) (h : v.next wire act = some v') : v'.log.Counted := by
  cases hact : act.isOutput with
  | false =>
    rw [log, (next_context hact h).1]
    exact hcounted
  | true =>
    cases act with
    | output bytes grid scanned floor now =>
      obtain ⟨terminal, attachment, hterminal, -, -, -, rfl⟩ := next_output h
      rw [log, hterminal] at hcounted
      exact SessionActor.counted_record hcounted _ _ _ _
    | _ => cases hact

end Seat

end Braid.Session
