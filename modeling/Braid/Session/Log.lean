import Braid.Session.Owed

/-! The log of deferred sequences as its callers use it: fed output in pieces, and told which marks nobody needs
any more. A complete sequence is the newest entry once its terminator is read, unless its introducer came
inside the body of another. The escape ends that body, but the bracket behind it is taken for a terminator
that went wrong, so the scanner is between sequences while the second body passes. -/

namespace Braid.Session

open Foundation

/-- No byte of a text without control characters is a control byte. -/
theorem utf8_above_control {text : Text} (h : Commands.hasControl text = false) : ∀ byte ∈ text.utf8, 0x1f < byte := by
  intro byte hbyte
  obtain ⟨char, hchar, hbyte⟩ := List.mem_flatMap.mp hbyte
  have hplain := List.any_eq_false.mp h char hchar
  simp only [Bool.or_eq_true, decide_eq_true_eq, not_or, UInt32.lt_iff_toNat_lt] at hplain
  have hlow : 32 ≤ char.val.toNat := Nat.le_of_not_lt hplain.1
  rw [UInt8.lt_iff_toNat_lt]
  change 31 < byte.toNat
  unfold String.utf8EncodeChar at hbyte
  dsimp only at hbyte
  split_ifs at hbyte <;> simp only [List.mem_cons, List.not_mem_nil, or_false] at hbyte
  · subst hbyte
    rw [UInt8.toNat_ofNat']
    omega
  · rcases hbyte with rfl | rfl <;> rw [UInt8.toNat_ofNat'] <;> omega
  · rcases hbyte with rfl | rfl | rfl <;> rw [UInt8.toNat_ofNat'] <;> omega
  · rcases hbyte with rfl | rfl | rfl | rfl <;> rw [UInt8.toNat_ofNat'] <;> omega

theorem length_utf8 (text : Text) : text.utf8.length = text.byteLen := by
  simp [Text.utf8, Text.byteLen, List.length_flatMap]

namespace DeferredOsc

variable {d : DeferredOsc} {command : DeferredKind} {body : Text} {byte : UInt8}

/-! ### Calls -/

inductive Call where
  | feed (bytes : List UInt8)
  | forgetBefore (mark : ℕ)

def call (d : DeferredOsc) : Call → DeferredOsc
  | .feed bytes => d.feed bytes
  | .forgetBefore mark => d.forgetBefore mark

/-- No entry has a control character, and none is there that a newer one supersedes. -/
structure Clean (d : DeferredOsc) : Prop where
  plain : ∀ entry ∈ d.entries, Commands.hasControl entry.2 = false
  single : ∀ number, (d.entries.countP fun entry => deferredCommand entry.2 = some (.sticky number)) ≤ 1

theorem Clean.of_sublist {d' : DeferredOsc} (h : d.Clean) (hsub : d'.entries.Sublist d.entries) : d'.Clean :=
  ⟨fun entry hentry => h.plain entry (hsub.subset hentry), fun number => hsub.countP_le.trans (h.single number)⟩

theorem Clean.record (h : d.Clean) (hplain : Commands.hasControl body = false)
    (hcommand : deferredCommand body = some command) : (d.record command body).Clean := by
  refine ⟨fun entry hentry => ?_, fun number => ?_⟩
  · rcases mem_record hentry with hold | rfl
    · exact h.plain entry hold
    · exact hplain
  · have hsub : (d.record command body).entries.Sublist (d.candidates command body) := (evict_suffix _ _).sublist
    refine hsub.countP_le.trans ?_
    rw [candidates, List.countP_append, List.countP_filter, List.countP_singleton]
    by_cases hsame : command = .sticky number
    · -- everything the new entry supersedes is gone
      subst hsame
      have hgone : d.entries.countP (fun entry => decide (deferredCommand entry.2 = some (.sticky number)) &&
          !stale (.sticky number) entry) = 0 := by
        simp [stale]
      rw [hgone, Nat.zero_add]
      split_ifs <;> simp
    · have hother : ¬deferredCommand body = some (.sticky number) := by
        rw [hcommand]
        exact fun heq => hsame (Option.some.inj heq)
      simp only [hother, decide_false, Bool.false_eq_true, if_false, Nat.add_zero]
      refine (List.countP_mono_left fun entry _ hentry => ?_).trans (h.single number)
      exact (Bool.and_eq_true_iff.mp hentry).1

theorem Clean.step (h : d.Clean) : (d.step byte).Clean := by
  cases hrecorded : d.recorded byte with
  | none =>
    obtain ⟨scan, held, truncated, hstep⟩ := step_of_not_recorded hrecorded
    rw [hstep]
    exact h.of_sublist (List.Sublist.refl _)
  | some closed =>
    rw [step_of_recorded hrecorded]
    unfold recorded at hrecorded
    split_ifs at hrecorded
    obtain ⟨-, -, hplain, hcommand⟩ := closing_eq_some hrecorded
    exact Clean.record (d := d.abandon) (h.of_sublist (List.Sublist.refl _)) hplain hcommand

theorem Clean.call (h : d.Clean) (c : Call) : (d.call c).Clean := by
  cases c with
  | forgetBefore mark => exact h.of_sublist (List.dropWhile_suffix _).sublist
  | feed bytes =>
    rw [DeferredOsc.call, feed_eq_foldl]
    induction bytes generalizing d with
    | nil => exact h
    | cons byte bytes ih => exact ih h.step

theorem calls_sound (calls : List Call) :
    (calls.foldl call .new).Counted ∧ (calls.foldl call .new).Marked ∧ (calls.foldl call .new).Clean := by
  induction calls using List.reverseRecOn with
  | nil => exact ⟨counted_new, marked_new, by rintro _ ⟨⟩, fun _ => Nat.zero_le _⟩
  | append_singleton calls c ih =>
    obtain ⟨hcounted, hmarked, hclean⟩ := ih
    rw [List.foldl_append]
    refine ⟨?_, ?_, hclean.call c⟩
    · cases c with
      | feed bytes => exact hcounted.feed bytes
      | forgetBefore mark => exact hcounted.forgetBefore mark
    · cases c with
      | feed bytes => exact (later_feed bytes).marked hmarked
      | forgetBefore mark => exact (later_forgetBefore mark).marked hmarked

/-- What holds of the log after any calls, and what it answers then. -/
theorem log_of_calls (calls : List Call) :
    let d := calls.foldl call .new
    (d.entries.length ≤ deferredEntries ∧ d.bytes ≤ deferredBytes ∧
      d.bytes = (d.entries.map fun entry => entry.2.byteLen).sum) ∧
    (∀ entry ∈ d.entries, Commands.hasControl entry.2 = false) ∧
    d.entries.Pairwise (·.1 < ·.1) ∧
    (∀ number, (d.entries.countP fun entry => deferredCommand entry.2 = some (.sticky number)) ≤ 1) ∧
    (∀ start, d.since start <:+ d.entries ∧ ∀ entry, entry ∈ d.since start ↔ entry ∈ d.entries ∧ start ≤ entry.1) ∧
    ∀ start budget, d.carry start budget <:+ d.since start ∧ cost (d.carry start budget) ≤ budget ∧
      ∀ rest, rest <:+ d.since start → cost rest ≤ budget → rest <:+ d.carry start budget := by
  obtain ⟨hcounted, hmarked, hclean⟩ := calls_sound calls
  refine ⟨⟨hcounted.fits.1, hcounted.bytes ▸ hcounted.fits.2, hcounted.bytes⟩, hclean.plain, hmarked.ascending,
    hclean.single, fun start => ⟨filter_suffix hmarked.ascending start, fun entry => ?_⟩, carry_spec _⟩
  rw [since, List.mem_filter, decide_eq_true_eq]

/-! ### A complete sequence -/

theorem record_newest (h : d.Counted) (hbody : body.byteLen ≤ deferredBytes) (command : DeferredKind) :
    (d.record command body).entries.getLast? = some (d.next, body) := by
  have hentries := (Prod.mk.inj (record_eq h command body)).1
  have hfits : Fits [(d.next, body)] := ⟨(by decide : 1 ≤ deferredEntries), by simpa [total] using hbody⟩
  obtain ⟨front, hfront⟩ := (evict_spec (d.candidates command body)).2.2 _ (List.suffix_append _ _) hfits
  rw [hentries, ← hfront]
  exact List.getLast?_concat

theorem foldl_body (hscan : d.scan = .body) (hwhole : d.truncated = false) {bytes : List UInt8}
    (hbytes : ∀ byte ∈ bytes, 0x1f < byte) (hroom : d.held.length + bytes.length ≤ oscScanLimit) :
    bytes.foldl DeferredOsc.step d = { d with held := d.held ++ bytes } := by
  induction bytes generalizing d with
  | nil => simp
  | cons byte bytes ih =>
    rw [List.forall_mem_cons] at hbytes
    rw [List.length_cons] at hroom
    have hstep : d.step byte = { d with held := d.held ++ [byte] } := by
      have hbel : byte ≠ belByte := by
        rintro rfl
        exact absurd hbytes.1 (by decide)
      have hesc : byte ≠ escByte := by
        rintro rfl
        exact absurd hbytes.1 (by decide)
      unfold DeferredOsc.step push
      rw [hscan]
      dsimp only
      rw [if_neg hbel, if_neg hesc, if_neg (UInt8.not_le.mpr hbytes.1), if_pos (by omega)]
    rw [List.foldl_cons, hstep, ih (d := { d with held := d.held ++ [byte] }) hscan hwhole hbytes.2
      (by rw [List.length_append, List.length_singleton]; omega)]
    simp

def InBody (d : DeferredOsc) : Prop := d.scan = .body ∨ d.scan = .bodyEscape

instance (d : DeferredOsc) : Decidable d.InBody := inferInstanceAs (Decidable (_ ∨ _))

theorem foldl_introducer (h : ¬d.InBody) :
    [escByte, 0x5d].foldl DeferredOsc.step d = { d with scan := .body, held := [], truncated := false } := by
  obtain ⟨scan, held, truncated, entries, bytes, next⟩ := d
  cases scan with
  | ground => rfl
  | escape => rfl
  | body => exact absurd (.inl rfl) h
  | bodyEscape => exact absurd (.inr rfl) h

/-- Inside a body an introducer only ends what it interrupts. -/
theorem foldl_introducer_inBody (h : d.InBody) : [escByte, 0x5d].foldl DeferredOsc.step d = d.abandon := by
  obtain ⟨scan, held, truncated, entries, bytes, next⟩ := d
  rcases h with rfl | rfl <;> rfl

variable {terminator : List UInt8}

theorem foldl_terminator (hterminator : terminator = [belByte] ∨ terminator = [escByte, 0x5c]) (hscan : d.scan = .body)
    (hclosing : d.closing = some (command, body)) :
    terminator.foldl DeferredOsc.step d = d.abandon.record command body := by
  rcases hterminator with rfl | rfl
  · refine step_of_recorded ?_
    rw [recorded, if_pos (.inl ⟨hscan, rfl⟩), hclosing]
  · have hescape : d.step escByte = { d with scan := .bodyEscape } := by
      unfold DeferredOsc.step
      rw [hscan]
      rfl
    rw [List.foldl_cons, hescape]
    have hrecorded : recorded { d with scan := .bodyEscape } 0x5c = some (command, body) := by
      rw [recorded, if_pos (.inr ⟨rfl, rfl⟩)]
      exact hclosing
    exact step_of_recorded hrecorded

theorem foldl_terminator_ground (hterminator : terminator = [belByte] ∨ terminator = [escByte, 0x5c])
    (hscan : d.scan = .ground) : terminator.foldl DeferredOsc.step d = d := by
  obtain ⟨scan, held, truncated, entries, bytes, next⟩ := d
  cases hscan
  rcases hterminator with rfl | rfl <;> rfl

theorem complete_newest (hcounted : d.Counted) (hmarked : d.Marked)
    (hterminator : terminator = [belByte] ∨ terminator = [escByte, 0x5c])
    (hlimit : body.utf8.length ≤ oscScanLimit) (hplain : Commands.hasControl body = false)
    (hcommand : deferredCommand body = some command) :
    (([escByte, 0x5d] ++ body.utf8 ++ terminator).foldl DeferredOsc.step d).entries.getLast? = some (d.next, body) ↔
      ¬d.InBody := by
  have hbytes := utf8_above_control hplain
  rw [List.foldl_append, List.foldl_append]
  by_cases hbody : d.InBody
  · have hskip : ∀ byte ∈ body.utf8, byte ≠ escByte := by
      rintro _ hbyte rfl
      exact absurd (hbytes _ hbyte) (by decide)
    rw [foldl_introducer_inBody hbody, foldl_skip rfl hskip, foldl_terminator_ground hterminator rfl]
    refine iff_of_false (fun hlast => ?_) (not_not_intro hbody)
    exact lt_irrefl _ (hmarked.bounded _ (List.mem_of_getLast? hlast))
  · have hclosing : closing { d with scan := .body, held := [] ++ body.utf8, truncated := false } = some (command, body) := by
      simp [closing, fromUtf8_utf8, hplain, hcommand]
    rw [foldl_introducer hbody, foldl_body rfl rfl hbytes (by simpa using hlimit), foldl_terminator hterminator rfl hclosing]
    refine iff_of_true (record_newest ⟨hcounted.bytes, hcounted.fits⟩ ?_ command) hbody
    rw [← length_utf8]
    exact hlimit

/-- A complete sequence at the end of a stream, however that is cut, is the newest entry just if the scanner was
not inside a body when the sequence began. -/
theorem stream_newest_iff {chunks : List (List UInt8)} {before : List UInt8}
    (hstream : chunks.flatten = before ++ ([escByte, 0x5d] ++ body.utf8 ++ terminator))
    (hterminator : terminator = [belByte] ∨ terminator = [escByte, 0x5c])
    (hlimit : body.utf8.length ≤ oscScanLimit) (hplain : Commands.hasControl body = false)
    (hcommand : (deferredCommand body).isSome = true) :
    (chunks.foldl DeferredOsc.feed .new).entries.getLast? = some ((DeferredOsc.new.feed before).next, body) ↔
      ¬(DeferredOsc.new.feed before).InBody := by
  obtain ⟨command, hcommand⟩ := Option.isSome_iff_exists.mp hcommand
  have hchunks : chunks.foldl DeferredOsc.feed .new = chunks.flatten.foldl DeferredOsc.step .new := by
    rw [List.foldl_flatten]
    simp only [← feed_eq_foldl]
  rw [hchunks, hstream, List.foldl_append, ← feed_eq_foldl .new before]
  exact complete_newest (counted_new.feed before) ((later_feed before).marked marked_new) hterminator hlimit hplain hcommand

/-- A title, cut behind its escape. -/
theorem stream_newest_title :
    (DeferredOsc.feed (.feed .new [0x61, escByte]) [0x5d, 0x30, 0x3b, 0x62, belByte]).entries.getLast? =
      some (0, ['0', ';', 'b']) :=
  (stream_newest_iff (show [[0x61, escByte], [0x5d, 0x30, 0x3b, 0x62, belByte]].flatten =
    [0x61] ++ ([escByte, 0x5d] ++ Text.utf8 ['0', ';', 'b'] ++ [belByte]) by decide) (.inl rfl) (by decide) (by decide)
    (by decide)).mpr (by decide)

/-- A title behind one that was never finished is in no entry. -/
theorem stream_lost_unfinished :
    (DeferredOsc.new.feed ([escByte, 0x5d, 0x30, 0x3b, 0x61] ++ ([escByte, 0x5d] ++ Text.utf8 ['0', ';', 'b'] ++
      [belByte]))).entries = [] := by
  decide

end DeferredOsc

end Braid.Session
