import Braid.Foundation.System
import Mathlib.Data.List.Perm.Basic

/-! The session actor's mailbox: two bounded lanes, control ahead of output, each
with a condition variable its senders park on. A pop frees a slot of one lane,
and only a pop from a full lane wakes anyone: every sender parked on the control
lane, but a single one of those parked on the output lane. What an event carries
is not read here; events keep only what tells them apart. -/

namespace Braid.Daemon

open Foundation

inductive ActorEvent where
  | attach (id : ℕ)
  | command (id : ℕ)
  | detached (id : ℕ)
  | ptyOutput (bytes : List UInt8)
  | ptyEnded
  | kill
  | search
  | forwardConnected (client stream : ℕ)
  | forwardBytes (client stream : ℕ) (bytes : List UInt8)
  | forwardEof (client stream : ℕ) (failed : Bool)
  deriving DecidableEq

def controlLane : ℕ := 256

def outputLane : ℕ := 32

inductive Lane where
  | control
  | output
  deriving DecidableEq

namespace ActorEvent

def isBulk : ActorEvent → Bool
  | .ptyOutput _ | .ptyEnded | .forwardConnected _ _ | .forwardBytes _ _ _ | .forwardEof _ _ _ => true
  | _ => false

def lane (event : ActorEvent) : Lane := if event.isBulk then .output else .control

end ActorEvent

structure MailboxState where
  control : List ActorEvent
  output : List ActorEvent
  senders : ℕ
  closed : Bool
  deriving DecidableEq

namespace MailboxState

variable (state : MailboxState)

def hasRoom : ActorEvent → Bool
  -- The end of the shell always fits, and a kill has a slot past the bound.
  | .ptyEnded => true
  | .kill => state.control.length < controlLane + 1
  | event => if event.isBulk then state.output.length < outputLane else state.control.length < controlLane

def push (event : ActorEvent) : MailboxState :=
  match event.lane with
  | .output => { state with output := state.output ++ [event] }
  | .control => { state with control := state.control ++ [event] }

def take : Option (ActorEvent × Lane × MailboxState) :=
  match state.control, state.output with
  | event :: control, _ => some (event, .control, { state with control := control })
  | [], event :: output => some (event, .output, { state with output := output })
  | [], [] => none

def full : Lane → Bool
  | .control => controlLane ≤ state.control.length
  | .output => outputLane ≤ state.output.length

end MailboxState

/-- The mailbox and those who use it: the senders parked on each condition
variable, the senders awake and still to take the lock again, and the lane whose
room the receiver, past the lock, is about to announce. -/
structure Mailbox where
  state : MailboxState
  controlRoom : List ActorEvent
  outputRoom : List ActorEvent
  awake : List ActorEvent
  freed : Option Lane
  deriving DecidableEq

inductive MailboxAction where
  /-- `send`, or `send_timeout`, up to its first wait. -/
  | send (event : ActorEvent)
  | trySend (event : ActorEvent)
  /-- A sender parked at this place wakes unnotified: its time is up, or spuriously. -/
  | wake (lane : Lane) (place : ℕ)
  /-- An awake sender takes the lock; with its time up it does not park again. -/
  | recheck (place : ℕ) (expired : Bool)
  /-- The receiver pops an event. -/
  | recv
  /-- The receiver notifies; one sender at most is the one at this place. -/
  | notify (place : ℕ)
  | cloneSender
  | dropSender
  | dropReceiver
  deriving DecidableEq

namespace Mailbox

def new : Mailbox := ⟨⟨[], [], 1, false⟩, [], [], [], none⟩

def park (m : Mailbox) (event : ActorEvent) : Mailbox :=
  match event.lane with
  | .control => { m with controlRoom := m.controlRoom ++ [event] }
  | .output => { m with outputRoom := m.outputRoom ++ [event] }

def next (m : Mailbox) : MailboxAction → Option Mailbox
  | .send event =>
    if m.state.closed then some m
    else if m.state.hasRoom event then some { m with state := m.state.push event }
    else some (m.park event)
  | .trySend event =>
    if m.state.closed = false ∧ m.state.hasRoom event then some { m with state := m.state.push event } else some m
  | .wake .control place => m.controlRoom[place]?.map fun event =>
      { m with controlRoom := m.controlRoom.eraseIdx place, awake := m.awake ++ [event] }
  | .wake .output place => m.outputRoom[place]?.map fun event =>
      { m with outputRoom := m.outputRoom.eraseIdx place, awake := m.awake ++ [event] }
  | .recheck place expired => m.awake[place]?.map fun event =>
      let m := { m with awake := m.awake.eraseIdx place }
      if m.state.closed then m
      else if m.state.hasRoom event then { m with state := m.state.push event }
      else if expired then m
      else m.park event
  | .recv =>
    if m.state.closed ∨ m.freed.isSome then none
    else m.state.take.map fun (_, popped, state) =>
      { m with state := state, freed := if m.state.full popped then some popped else none }
  | .notify place =>
    match m.freed with
    | none => none
    | some .control => some { m with controlRoom := [], awake := m.awake ++ m.controlRoom, freed := none }
    | some .output =>
      if m.outputRoom = [] then some { m with freed := none }
      else m.outputRoom[place]?.map fun event =>
        { m with outputRoom := m.outputRoom.eraseIdx place, awake := m.awake ++ [event], freed := none }
  | .cloneSender => some { m with state := { m.state with senders := m.state.senders + 1 } }
  | .dropSender => some { m with state := { m.state with senders := m.state.senders - 1 } }
  | .dropReceiver => some { m with
      state := { m.state with closed := true }
      controlRoom := []
      outputRoom := []
      awake := m.awake ++ m.controlRoom ++ m.outputRoom
      freed := none }

def system : System Mailbox MailboxAction := ⟨(· = new), next⟩

/-! ### Room -/

variable {m m' : Mailbox} {event : ActorEvent}

theorem hasRoom_bulk {state : MailboxState} (hbulk : event.isBulk = true) (hne : event ≠ .ptyEnded) :
    state.hasRoom event = decide (state.output.length < outputLane) := by
  cases event with
  | ptyEnded => exact absurd rfl hne
  | attach | command | detached | kill | search => cases hbulk
  | ptyOutput | forwardConnected | forwardBytes | forwardEof => rfl

theorem full_of_hasRoom {state : MailboxState} (h : state.hasRoom event = false) :
    state.full event.lane = true := by
  cases event with
  | ptyEnded => cases h
  | kill =>
    have := of_decide_eq_false h
    exact decide_eq_true (by omega)
  | attach | command | detached | search | ptyOutput | forwardConnected | forwardBytes | forwardEof =>
    exact decide_eq_true (Nat.le_of_not_lt (of_decide_eq_false h))

theorem hasRoom_of_le {state state' : MailboxState} (hcontrol : state.control.length ≤ state'.control.length)
    (houtput : state.output.length ≤ state'.output.length) (h : state.hasRoom event = false) :
    state'.hasRoom event = false := by
  cases event with
  | ptyEnded => cases h
  | kill =>
    have := of_decide_eq_false h
    exact decide_eq_false (by omega)
  | attach | command | detached | search | ptyOutput | forwardConnected | forwardBytes | forwardEof =>
    have := of_decide_eq_false h
    exact decide_eq_false (by omega)

theorem length_push (state : MailboxState) (event : ActorEvent) :
    (state.push event).control.length = state.control.length + (if event.isBulk then 0 else 1) ∧
      (state.push event).output.length = state.output.length + (if event.isBulk then 1 else 0) := by
  cases hbulk : event.isBulk <;> simp [MailboxState.push, ActorEvent.lane, hbulk]

theorem closed_push (state : MailboxState) (event : ActorEvent) : (state.push event).closed = state.closed := by
  unfold MailboxState.push
  split <;> rfl

theorem take_cases {state state' : MailboxState} {popped : Lane} (h : state.take = some (event, popped, state')) :
    popped = .control ∧ state.control = event :: state'.control ∧ state'.output = state.output ∨
      popped = .output ∧ state'.control = state.control ∧ state.control = [] ∧ state.output = event :: state'.output := by
  unfold MailboxState.take at h
  split at h
  · rename_i control _ hcontrol
    obtain ⟨rfl, rfl, rfl⟩ := by simpa using h
    exact .inl ⟨rfl, hcontrol, rfl⟩
  · rename_i hcontrol houtput
    obtain ⟨rfl, rfl, rfl⟩ := by simpa using h
    exact .inr ⟨rfl, rfl, hcontrol, houtput⟩
  · cases h

/-! ### Wake-ups owed -/

/-- Wake-ups on their way to the output lane: its senders still to take the lock,
and a notification still to be made. -/
def owed (m : Mailbox) : ℕ := m.awake.countP ActorEvent.isBulk + if m.freed = some .output then 1 else 0

/-- Nobody parked on the control lane has room, but for a notification to come;
and free slots of the output lane have a wake-up each while anyone is parked. -/
structure Sound (m : Mailbox) : Prop where
  controlWaits : ∀ event ∈ m.controlRoom, event.isBulk = false
  outputWaits : ∀ event ∈ m.outputRoom, event.isBulk = true ∧ event ≠ .ptyEnded
  control : m.freed ≠ some .control → ∀ event ∈ m.controlRoom, m.state.hasRoom event = false
  output : m.state.closed = false → m.outputRoom ≠ [] → outputLane ≤ m.state.output.length + m.owed

theorem sound_new : Sound new := ⟨nofun, nofun, fun _ => nofun, fun _ h => absurd rfl h⟩

theorem Sound.push (h : Sound m) (event : ActorEvent) : Sound { m with state := m.state.push event } where
  controlWaits := h.controlWaits
  outputWaits := h.outputWaits
  control hfreed other hother := by
    obtain ⟨hcontrol, houtput⟩ := length_push m.state event
    exact hasRoom_of_le (hcontrol ▸ Nat.le_add_right _ _) (houtput ▸ Nat.le_add_right _ _) (h.control hfreed other hother)
  output hopen hne := by
    have := h.output (closed_push m.state event ▸ hopen) hne
    obtain ⟨-, houtput⟩ := length_push m.state event
    change outputLane ≤ (m.state.push event).output.length + m.owed
    omega

theorem Sound.park (h : Sound m) (hroom : m.state.hasRoom event = false) : Sound (m.park event) := by
  have hfull := full_of_hasRoom hroom
  unfold Mailbox.park
  cases hbulk : event.isBulk with
  | false =>
    rw [ActorEvent.lane, if_neg (by simp [hbulk])]
    refine ⟨?_, h.outputWaits, fun hfreed => ?_, h.output⟩
    · exact List.forall_mem_append.mpr ⟨h.controlWaits, by simpa using hbulk⟩
    · exact List.forall_mem_append.mpr ⟨h.control hfreed, by simpa using hroom⟩
  | true =>
    rw [ActorEvent.lane, if_pos hbulk] at hfull ⊢
    refine ⟨h.controlWaits, ?_, h.control, fun _ _ => ?_⟩
    · refine List.forall_mem_append.mpr ⟨h.outputWaits, ?_⟩
      simp only [List.mem_singleton, forall_eq]
      exact ⟨hbulk, by rintro rfl; cases hroom⟩
    · exact Nat.le_add_right_of_le (of_decide_eq_true hfull)

theorem countP_eraseIdx {awake : List ActorEvent} {place : ℕ} (h : awake[place]? = some event) :
    awake.countP ActorEvent.isBulk =
      (awake.eraseIdx place).countP ActorEvent.isBulk + if event.isBulk then 1 else 0 := by
  obtain ⟨hlt, rfl⟩ := List.getElem?_eq_some_iff.mp h
  rw [← (List.getElem_cons_eraseIdx_perm hlt).countP_eq, List.countP_cons]

theorem Sound.leave (h : Sound m) {awake : List ActorEvent}
    (hslot : m.state.closed = false → m.outputRoom ≠ [] → outputLane ≤ m.state.output.length +
      (if event.isBulk then 1 else 0) + ({ m with awake := awake } : Mailbox).owed)
    (hroom : m.state.hasRoom event = false) : Sound { m with awake := awake } := by
  refine ⟨h.controlWaits, h.outputWaits, h.control, fun hopen hne => ?_⟩
  have hlane := hslot hopen hne
  split_ifs at hlane with hbulk
  · have hfull := full_of_hasRoom hroom
    rw [ActorEvent.lane, if_pos hbulk] at hfull
    exact Nat.le_add_right_of_le (of_decide_eq_true hfull)
  · exact hlane

/-- A sender that takes the lock uses the slot it was woken for, or finds none. -/
theorem Sound.recheck (h : Sound m) {place : ℕ} (hplace : m.awake[place]? = some event) (expired : Bool) :
    Sound (let m := { m with awake := m.awake.eraseIdx place }
      if m.state.closed then m
      else if m.state.hasRoom event then { m with state := m.state.push event }
      else if expired then m
      else m.park event) := by
  have hcount := countP_eraseIdx hplace
  -- What the slots and wake-ups come to once this one is no longer on its way.
  have hslot : m.state.closed = false → m.outputRoom ≠ [] → outputLane ≤ m.state.output.length +
      (if event.isBulk then 1 else 0) + ({ m with awake := m.awake.eraseIdx place } : Mailbox).owed := by
    intro hopen hne
    have := h.output hopen hne
    simp only [owed] at this ⊢
    omega
  dsimp only
  split_ifs with hclosed hroom hexpired
  · exact ⟨h.controlWaits, h.outputWaits, h.control, fun hopen => by rw [hclosed] at hopen; cases hopen⟩
  · refine ⟨h.controlWaits, h.outputWaits, fun hfreed other hother => ?_, fun hopen hne => ?_⟩
    · obtain ⟨hcontrol, houtput⟩ := length_push m.state event
      exact hasRoom_of_le (hcontrol ▸ Nat.le_add_right _ _) (houtput ▸ Nat.le_add_right _ _)
        (h.control hfreed other hother)
    · dsimp only
      rw [(length_push m.state event).2]
      exact hslot (Bool.eq_false_iff.mpr hclosed) hne
  · exact h.leave hslot (Bool.eq_false_iff.mpr hroom)
  · exact (h.leave hslot (Bool.eq_false_iff.mpr hroom)).park (Bool.eq_false_iff.mpr hroom)

theorem Sound.wake (h : Sound m) {lane : Lane} {place : ℕ} (hs : m.next (.wake lane place) = some m') : Sound m' := by
  cases lane with
  | control =>
    obtain ⟨event, hplace, rfl⟩ := Option.map_eq_some_iff.mp hs
    refine ⟨fun other hother => h.controlWaits other (List.mem_of_mem_eraseIdx hother), h.outputWaits,
      fun hfreed other hother => h.control hfreed other (List.mem_of_mem_eraseIdx hother), fun hopen hne => ?_⟩
    have := h.output hopen hne
    simp only [owed, List.countP_append] at this ⊢
    omega
  | output =>
    obtain ⟨event, hplace, rfl⟩ := Option.map_eq_some_iff.mp hs
    refine ⟨h.controlWaits, fun other hother => h.outputWaits other (List.mem_of_mem_eraseIdx hother), h.control,
      fun hopen hne => ?_⟩
    have := h.output hopen (by rintro hnil; rw [hnil] at hplace; cases hplace)
    simp only [owed, List.countP_append] at this ⊢
    omega

theorem Sound.notify (h : Sound m) {place : ℕ} (hs : m.next (.notify place) = some m') : Sound m' := by
  rw [next] at hs
  cases hfreed : m.freed with
  | none => rw [hfreed] at hs; cases hs
  | some lane =>
    rw [hfreed] at hs
    cases lane with
    | control =>
      cases hs
      refine ⟨nofun, h.outputWaits, fun _ => nofun, fun hopen hne => ?_⟩
      have := h.output hopen hne
      simp only [owed, List.countP_append, hfreed, Option.some.injEq, reduceCtorEq, if_false] at this ⊢
      omega
    | output =>
      split_ifs at hs with hnone
      · cases hs
        exact ⟨h.controlWaits, h.outputWaits, fun _ => h.control (by simp [hfreed]), fun _ hne => absurd hnone hne⟩
      · obtain ⟨event, hplace, rfl⟩ := Option.map_eq_some_iff.mp hs
        refine ⟨h.controlWaits, fun other hother => h.outputWaits other (List.mem_of_mem_eraseIdx hother),
          fun _ => h.control (by simp [hfreed]), fun hopen _ => ?_⟩
        have hbulk := (h.outputWaits event (List.mem_of_getElem? hplace)).1
        have := h.output hopen hnone
        simp only [owed, List.countP_append, List.countP_singleton, hbulk, hfreed, if_true, reduceCtorEq, if_false] at this ⊢
        omega

/-- An output event is popped from a full lane, or with nobody parked on it. -/
def Gated (m : Mailbox) : MailboxAction → Prop
  | .recv => m.state.control = [] → outputLane ≤ m.state.output.length ∨ m.outputRoom = []
  | _ => True

instance (m : Mailbox) : (a : MailboxAction) → Decidable (m.Gated a)
  | .recv => inferInstanceAs (Decidable (_ → _ ∨ _))
  | .send _ | .trySend _ | .wake _ _ | .recheck _ _ | .notify _ | .cloneSender | .dropSender | .dropReceiver =>
    inferInstanceAs (Decidable True)

theorem Sound.recv (h : Sound m) (hok : m.Gated .recv) (hs : m.next .recv = some m') : Sound m' := by
  rw [next] at hs
  split_ifs at hs with hbusy
  obtain ⟨hopen, hfreed⟩ : m.state.closed = false ∧ m.freed = none := by simpa [not_or] using hbusy
  have hparked : ∀ event ∈ m.controlRoom, controlLane ≤ m.state.control.length := by
    intro event hevent
    have hfull := full_of_hasRoom (h.control (by simp [hfreed]) event hevent)
    rw [ActorEvent.lane, h.controlWaits event hevent] at hfull
    exact of_decide_eq_true hfull
  obtain ⟨⟨event, popped, state⟩, htake, rfl⟩ := Option.map_eq_some_iff.mp hs
  obtain ⟨rfl, hcontrol, houtput⟩ | ⟨rfl, hcontrol, hempty, houtput⟩ := take_cases htake
  · dsimp only at hs ⊢
    refine ⟨h.controlWaits, h.outputWaits, fun hquiet other hother => ?_, fun _ hne => ?_⟩
    · -- Nobody parks behind a control lane that was not full.
      have hfull : m.state.full .control = true := decide_eq_true (hparked other hother)
      rw [if_pos hfull] at hquiet
      exact absurd rfl hquiet
    · have := h.output hopen hne
      have hother : (if m.state.full .control = true then some Lane.control else none) ≠ some .output := by
        split_ifs <;> simp
      simp only [owed, hfreed, hother, houtput, reduceCtorEq, if_false] at this ⊢
      exact this
  · refine ⟨h.controlWaits, h.outputWaits, fun _ other hother => ?_, fun _ hne => ?_⟩
    · have := hparked other hother
      rw [hempty, controlLane] at this
      simp at this
    · have hlane := (hok hempty).resolve_right hne
      have hfull : m.state.full .output = true := decide_eq_true hlane
      rw [houtput, List.length_cons] at hlane
      simp only [owed, hfull, if_true]
      omega

theorem Sound.next (h : Sound m) {a : MailboxAction} (hok : m.Gated a) (hs : m.next a = some m') : Sound m' := by
  cases a with
  | send event =>
    rw [Mailbox.next] at hs
    split_ifs at hs with hclosed hroom
    · exact Option.some.inj hs ▸ h
    · exact Option.some.inj hs ▸ h.push event
    · exact Option.some.inj hs ▸ h.park (Bool.eq_false_iff.mpr hroom)
  | trySend event =>
    rw [Mailbox.next] at hs
    split_ifs at hs
    · exact Option.some.inj hs ▸ h.push event
    · exact Option.some.inj hs ▸ h
  | wake lane place => exact h.wake hs
  | recheck place expired =>
    obtain ⟨event, hplace, rfl⟩ := Option.map_eq_some_iff.mp hs
    exact h.recheck hplace expired
  | recv => exact h.recv hok hs
  | notify place => exact h.notify hs
  | cloneSender =>
    cases hs
    exact { h with }
  | dropSender =>
    cases hs
    exact { h with }
  | dropReceiver =>
    cases hs
    exact ⟨nofun, nofun, fun _ => nofun, fun _ hne => absurd rfl hne⟩

theorem via_sound (h : system.Via Gated m) : Sound m :=
  h.invariant (by rintro _ rfl; exact sound_new) fun _ _ _ h hok hs => h.next hok hs

/-- In every run that pops output events only from a full lane or with nobody
parked on it, once no wake-up is on its way nobody is parked who has room. -/
theorem parked_senders_wait (h : system.Via Gated m) (hopen : m.state.closed = false) (hawake : m.awake = [])
    (hfreed : m.freed = none) : ∀ event ∈ m.controlRoom ++ m.outputRoom, m.state.hasRoom event = false := by
  have hsound := via_sound h
  refine List.forall_mem_append.mpr ⟨hsound.control (by simp [hfreed]), fun event hevent => ?_⟩
  obtain ⟨hbulk, hne⟩ := hsound.outputWaits event hevent
  have hlane := hsound.output hopen (List.ne_nil_of_mem hevent)
  simp only [owed, hawake, hfreed, List.countP_nil, reduceCtorEq, if_false] at hlane
  rw [hasRoom_bulk hbulk hne]
  exact decide_eq_false (by omega)

/-- Thirty-two reads fill the output lane and two more senders park; one pop wakes
one of them, which takes the slot. -/
def crowdRun : List MailboxAction :=
  List.replicate 34 (.send (.ptyOutput [])) ++ [.recv, .notify 0, .recheck 0 false]

theorem parked_senders_wait_crowdRun : ∃ m, system.Via Gated m ∧ m.outputRoom = [.ptyOutput []] ∧
    m.state.hasRoom (.ptyOutput []) = false := by
  obtain ⟨m, hvia, hroom, hopen, hawake, hfreed⟩ : ∃ m, system.Via Gated m ∧ m.outputRoom = [.ptyOutput []] ∧
      m.state.closed = false ∧ m.awake = [] ∧ m.freed = none :=
    System.Via.of_run new crowdRun rfl (by decide)
  refine ⟨m, hvia, hroom, parked_senders_wait hvia hopen hawake hfreed _ ?_⟩
  rw [hroom]
  exact List.mem_append_right _ (List.mem_singleton_self _)

/-- Two pops before the woken sender runs: the second frees a slot of a lane that
is no longer full and wakes nobody. -/
def drainedRun : List MailboxAction :=
  List.replicate 34 (.send (.ptyOutput [])) ++ [.recv, .notify 0, .recv, .recheck 0 false] ++ List.replicate 31 .recv

/-- The mailbox is drained empty and a sender is still parked on it. -/
theorem drained_sender_parked : ∃ m, system.Reachable m ∧ m.state = ⟨[], [], 1, false⟩ ∧ m.awake = [] ∧
    m.freed = none ∧ m.outputRoom = [.ptyOutput []] ∧ m.state.hasRoom (.ptyOutput []) = true := by
  have hrun : system.run new drainedRun = some ⟨⟨[], [], 1, false⟩, [], [.ptyOutput []], [], none⟩ := by decide
  exact ⟨_, (System.Reachable.init rfl).run hrun, rfl, rfl, rfl, rfl, rfl⟩

end Mailbox

end Braid.Daemon
