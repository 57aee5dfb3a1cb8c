import Braid.Client.Screen

/-! What a client replays. The head of a screen brings the sequences the byte stream would have carried, and
the piece that completes the screen writes them to the terminal, whether or not the screen is one the client
then holds. So a head that is taken is answered by one replay at most, and nothing else is. -/

namespace Braid.Client

open Screen

variable {δ : Type*} (w : CharWidths)

namespace ClientScreen

def takes (s : ClientScreen) (part : ScreenPart) (terminalRows : ℕ) (predictions : Predictions) : Bool :=
  !s.superseded (ScreenPart.named part) &&
    match part with
    | .head header base scroll pieces rows =>
      let (s, assembly) := s.assemble (ScreenPart.named part) predictions
      assembly.head.isNone && (s.head w header base scroll pieces rows terminalRows predictions).isOk
    | .tail _ _ _ _ _ => false

/-- Whether the piece completes its screen: only then is nothing left to assemble after one that was not refused. -/
def completes (s : ClientScreen) (part : ScreenPart) (terminalRows : ℕ) (predictions : Predictions) : Bool :=
  let (s', _, result) := s.part w part terminalRows predictions
  !s.superseded (ScreenPart.named part) && result.isOk && s'.pending.isNone

def assembles (s : ClientScreen) : Bool := s.pending.any fun assembly => assembly.head.isSome

variable {w} {s : ClientScreen} {part : ScreenPart} {terminalRows : ℕ} {predictions : Predictions}

theorem assembles_of_assemble {named : ℕ × ℕ} (h : (s.assemble named predictions).2.head.isSome = true) :
    s.assembles = true := by
  unfold assemble at h
  cases hpending : s.pending with
  | none => split_ifs at h <;> simp_all [abandon]
  | some assembly => split_ifs at h <;> simp_all [abandon, assembles]

theorem pending_tail {assembly : Assembly} (hpending : s.pending = some assembly) (hhead : assembly.head = none)
    (pieces index : ℕ) (rows : List RowSpan) : (s.tail w assembly pieces index rows).1.pending = some assembly := by
  unfold tail
  rw [hhead]
  split_ifs <;> exact hpending

/-- Without a new head, only an assembly that was begun goes on or is completed. -/
theorem assembles_of_part (htakes : s.takes w part terminalRows predictions = false)
    (h : (s.part w part terminalRows predictions).1.assembles = true ∨ s.completes w part terminalRows predictions = true) :
    s.assembles = true := by
  unfold completes at h
  unfold takes at htakes
  unfold ClientScreen.part at h
  by_cases hsuperseded : s.superseded (ScreenPart.named part) = true
  · simpa [hsuperseded] using h
  have hpending : ∀ named, (s.assemble named predictions).1.pending = some (s.assemble named predictions).2 := fun _ => rfl
  have hfrom : ∀ named, (s.assemble named predictions).2.head.isSome = true → s.assembles = true := fun _ =>
    assembles_of_assemble
  cases part with
  | head header base scroll pieces rows =>
    cases hhead : (s.assemble (header.generation, header.version) predictions).2.head with
    | some head => exact hfrom _ (by rw [hhead]; rfl)
    | none =>
      cases hok : (s.assemble (header.generation, header.version) predictions).1.head w header base scroll pieces rows
          terminalRows predictions with
      | ok _ => simp_all [ScreenPart.named, Except.isOk, Except.toBool]
      | error _ => simp_all [ScreenPart.named, Except.isOk, Except.toBool, assembles, abandon]
  | tail generation version pieces index rows =>
    cases hhead : (s.assemble (generation, version) predictions).2.head with
    | some head => exact hfrom _ (by rw [hhead]; rfl)
    | none =>
      have hsame := pending_tail (w := w) (hpending (generation, version)) hhead pieces index rows
      simp_all [ScreenPart.named, assembles]

end ClientScreen

/-- A client's screen, the deferred sequences its header brought, and all that were replayed. -/
structure Viewer (δ : Type*) where
  screen : ClientScreen
  deferred : List δ
  replayed : List δ

namespace Viewer

def initial : Viewer δ := ⟨.initial, [], []⟩

/-- A piece arrives, and `entries` with it if it is a head. -/
def part (v : Viewer δ) (part : ScreenPart) (entries : List δ) (terminalRows : ℕ) (predictions : Predictions) :
    Viewer δ × Except PartMismatch (Option Assembled) :=
  let (screen, _, result) := v.screen.part w part terminalRows predictions
  let deferred := if v.screen.takes w part terminalRows predictions then entries else v.deferred
  (⟨screen, deferred,
    if v.screen.completes w part terminalRows predictions then v.replayed ++ deferred else v.replayed⟩, result)

/-- What was replayed, and what the screen being assembled will add. -/
def due (v : Viewer δ) : List δ := v.replayed ++ if v.screen.assembles then v.deferred else []

variable {w}

theorem replayed_due (v : Viewer δ) : v.replayed.Sublist v.due := List.sublist_append_left _ _

theorem due_part (v : Viewer δ) (piece : ScreenPart) (entries : List δ) (terminalRows : ℕ) (predictions : Predictions) :
    (v.part w piece entries terminalRows predictions).1.due.Sublist (v.due ++ entries) := by
  have hdone : v.screen.completes w piece terminalRows predictions = true →
      (v.screen.part w piece terminalRows predictions).1.assembles = false := by
    intro h
    simp only [ClientScreen.completes, Bool.and_eq_true, Option.isNone_iff_eq_none] at h
    rw [ClientScreen.assembles, h.2]
    rfl
  unfold due part
  cases htakes : v.screen.takes w piece terminalRows predictions with
  | true =>
    -- whatever was being assembled is given up for the new head
    simp only [if_true]
    have hreplayed := v.replayed_due
    cases hcompletes : v.screen.completes w piece terminalRows predictions with
    | true => simp [hdone hcompletes]
    | false =>
      refine hreplayed.append ?_
      split_ifs
      · exact .refl _
      · exact List.nil_sublist _
  | false =>
    simp only [Bool.false_eq_true, if_false]
    refine List.Sublist.trans ?_ (List.sublist_append_left _ _)
    have hassembles := ClientScreen.assembles_of_part htakes
    cases hcompletes : v.screen.completes w piece terminalRows predictions with
    | true => simp [hdone hcompletes, hassembles (.inr hcompletes)]
    | false =>
      refine (List.Sublist.refl _).append ?_
      by_cases hgoes : (v.screen.part w piece terminalRows predictions).1.assembles = true
      · rw [if_pos hgoes, if_pos (hassembles (.inl hgoes))]
      · rw [if_neg hgoes]
        exact List.nil_sublist _

end Viewer

end Braid.Client
