import Mathlib.Data.List.Chain
import Braid.Session.Deferred

/-! What the scanner of deferred sequences records was in the output. While every byte of the output is
scanned the scanner holds the end of it from the last introducer on, so the body it finishes with stands
there in one piece. That is as true across output the scanner is not given, as long as it is between
sequences then. Whatever the scanner is given, marks are used once and in order. -/

namespace Braid.Session

open Foundation

/-- The body stands in the output between an introducer and a terminator. -/
def Occurs (body : Text) (output : List UInt8) : Prop :=
  ∃ front terminator behind, (terminator = [belByte] ∨ terminator = [escByte, 0x5c]) ∧
    output = front ++ ([escByte, 0x5d] ++ body.utf8 ++ terminator) ++ behind

variable {body : Text}

theorem Occurs.append {output : List UInt8} (h : Occurs body output) (more : List UInt8) :
    Occurs body (output ++ more) := by
  obtain ⟨front, terminator, behind, hterminator, rfl⟩ := h
  exact ⟨front, terminator, behind ++ more, hterminator, by simp⟩

theorem Occurs.isInfix {output : List UInt8} (h : Occurs body output) :
    [escByte, 0x5d] ++ body.utf8 ++ [belByte] <:+: output ∨ [escByte, 0x5d] ++ body.utf8 ++ [escByte, 0x5c] <:+: output := by
  obtain ⟨front, _, behind, rfl | rfl, rfl⟩ := h
  · exact .inl (List.infix_append ..)
  · exact .inr (List.infix_append ..)

theorem Occurs.of_suffix {output terminator : List UInt8}
    (hterminator : terminator = [belByte] ∨ terminator = [escByte, 0x5c])
    (h : [escByte, 0x5d] ++ body.utf8 ++ terminator <:+ output) : Occurs body output := by
  obtain ⟨front, rfl⟩ := h
  exact ⟨front, terminator, [], hterminator, by simp⟩

namespace DeferredOsc

variable {d : DeferredOsc} {seen : List UInt8}

theorem evict_suffix (entries : List (ℕ × Text)) (bytes : ℕ) : (evict entries bytes).1 <:+ entries := by
  induction entries generalizing bytes with
  | nil => exact List.suffix_rfl
  | cons entry rest ih =>
    unfold evict
    split_ifs
    · exact (ih _).trans (List.suffix_cons _ _)
    · exact List.suffix_rfl

variable {command : DeferredKind}

theorem mem_record {entry : ℕ × Text}
    (h : entry ∈ (d.record command body).entries) : entry ∈ d.entries ∨ entry = (d.next, body) := by
  have hmem := (evict_suffix _ _).subset h
  rcases List.mem_append.mp hmem with hold | hnew
  · exact .inl (List.mem_of_mem_filter hold)
  · exact .inr (List.mem_singleton.mp hnew)

/-! ### What a byte records -/

/-- What the log makes of a body that ends here. -/
def closing (d : DeferredOsc) : Option (DeferredKind × Text) :=
  if d.truncated then none
  else (fromUtf8 d.held).bind fun body =>
    if Commands.hasControl body then none else (deferredCommand body).map fun command => (command, body)

def recorded (d : DeferredOsc) (byte : UInt8) : Option (DeferredKind × Text) :=
  if d.scan = .body ∧ byte = belByte ∨ d.scan = .bodyEscape ∧ byte = 0x5c then d.closing else none

variable {byte : UInt8}

theorem closing_eq_some (h : d.closing = some (command, body)) :
    d.truncated = false ∧ fromUtf8 d.held = some body ∧ Commands.hasControl body = false ∧
      deferredCommand body = some command := by
  unfold closing at h
  split_ifs at h with htruncated
  obtain ⟨text, htext, hkind⟩ := Option.bind_eq_some_iff.mp h
  split_ifs at hkind with hcontrol
  obtain ⟨kind, hcommand, heq⟩ := Option.map_eq_some_iff.mp hkind
  cases heq
  exact ⟨Bool.eq_false_iff.mpr htruncated, htext, Bool.eq_false_iff.mpr hcontrol, hcommand⟩

theorem finish_of_closing (h : d.closing = some (command, body)) :
    d.finish = d.abandon.record command body := by
  obtain ⟨htruncated, htext, hcontrol, hcommand⟩ := closing_eq_some h
  simp [finish, htruncated, htext, hcontrol, hcommand]

theorem finish_of_not_closing (h : d.closing = none) : d.finish = d.abandon := by
  unfold closing at h
  unfold finish
  dsimp only
  split_ifs at h ⊢ with htruncated
  · rfl
  · split
    · rfl
    · rename_i body hbody
      rw [hbody] at h
      split_ifs with hcontrol
      · rfl
      · cases hcommand : deferredCommand body with
        | none => rfl
        | some command => simp [hcontrol, hcommand] at h

theorem step_of_recorded (h : d.recorded byte = some (command, body)) :
    d.step byte = d.abandon.record command body := by
  unfold recorded at h
  split_ifs at h with hend
  unfold step
  rcases hend with ⟨hscan, rfl⟩ | ⟨hscan, rfl⟩ <;> rw [hscan] <;> exact finish_of_closing h

theorem step_of_not_recorded (h : d.recorded byte = none) :
    ∃ scan held truncated, d.step byte = { d with scan, held, truncated } := by
  unfold recorded at h
  unfold step
  cases hscan : d.scan <;> simp only [hscan] at h ⊢
  · split_ifs
    · exact ⟨_, _, _, rfl⟩
    · exact ⟨_, _, _, rfl⟩
  · split_ifs <;> exact ⟨_, _, _, rfl⟩
  · split_ifs with hbel
    · rw [if_pos (.inl ⟨trivial, hbel⟩)] at h
      exact ⟨_, _, _, finish_of_not_closing h⟩
    · exact ⟨_, _, _, rfl⟩
    · exact ⟨_, _, _, rfl⟩
    · unfold push
      split_ifs <;> exact ⟨_, _, _, rfl⟩
  · split_ifs with hend
    · rw [if_pos (.inr ⟨trivial, hend⟩)] at h
      exact ⟨_, _, _, finish_of_not_closing h⟩
    · exact ⟨_, _, _, rfl⟩
    · exact ⟨_, _, _, rfl⟩

theorem finish_spec (d : DeferredOsc) :
    d.finish.scan = .ground ∧
      ∀ entry ∈ d.finish.entries, entry ∈ d.entries ∨ d.truncated = false ∧ entry.2.utf8 = d.held := by
  cases hclosing : d.closing with
  | none =>
    rw [finish_of_not_closing hclosing]
    exact ⟨rfl, fun _ => .inl⟩
  | some closed =>
    rw [finish_of_closing hclosing]
    refine ⟨rfl, fun entry hentry => (mem_record hentry).imp_right ?_⟩
    rintro rfl
    obtain ⟨htruncated, htext, -⟩ := closing_eq_some hclosing
    exact ⟨htruncated, utf8_of_fromUtf8 htext⟩

/-! ### Marks -/

/-- Marks ascend, and the next one is new. -/
structure Marked (d : DeferredOsc) : Prop where
  ascending : d.entries.Pairwise (·.1 < ·.1)
  bounded : ∀ entry ∈ d.entries, entry.1 < d.next

/-- The same log later: an entry that was not there has a mark that was not used. -/
structure Later (d d' : DeferredOsc) : Prop where
  next : d.next ≤ d'.next
  entries : ∀ entry ∈ d'.entries, entry ∈ d.entries ∨ d.next ≤ entry.1
  marked : d.Marked → d'.Marked

theorem marked_new : DeferredOsc.new.Marked := ⟨List.Pairwise.nil, fun _ h => nomatch h⟩

theorem Later.refl (d : DeferredOsc) : d.Later d := ⟨le_rfl, fun _ => .inl, id⟩

theorem Later.trans {d' d'' : DeferredOsc} (h : d.Later d') (h' : d'.Later d'') : d.Later d'' where
  next := h.next.trans h'.next
  entries entry hentry := (h'.entries entry hentry).elim (h.entries entry) fun hnew => .inr (h.next.trans hnew)
  marked hmarked := h'.marked (h.marked hmarked)

theorem Later.of_sublist {d' : DeferredOsc} (hnext : d'.next = d.next) (hsub : List.Sublist d'.entries d.entries) :
    d.Later d' where
  next := hnext.ge
  entries _ hentry := .inl (hsub.subset hentry)
  marked hmarked := ⟨hmarked.ascending.sublist hsub, fun entry hentry => hnext ▸ hmarked.bounded entry (hsub.subset hentry)⟩

theorem later_record (command : DeferredKind) (body : Text) : d.Later (d.record command body) := by
  refine ⟨Nat.le_succ _, fun entry hentry => (mem_record hentry).imp_right fun h => by rw [h], fun hmarked => ?_⟩
  constructor
  · refine List.Pairwise.sublist (evict_suffix _ _).sublist (List.pairwise_append.mpr ⟨?_, by simp, ?_⟩)
    · exact hmarked.ascending.filter _
    · intro old hold new hnew
      rw [List.mem_singleton.mp hnew]
      exact hmarked.bounded old (List.mem_of_mem_filter hold)
  · intro entry hentry
    rcases mem_record hentry with hold | rfl
    · exact (hmarked.bounded entry hold).trans (Nat.lt_succ_self _)
    · exact Nat.lt_succ_self _

theorem later_step (byte : UInt8) : d.Later (d.step byte) := by
  cases hrecorded : d.recorded byte with
  | none =>
    obtain ⟨scan, held, truncated, hstep⟩ := step_of_not_recorded hrecorded
    rw [hstep]
    exact .of_sublist rfl (List.Sublist.refl _)
  | some closed =>
    have habandon : d.Later d.abandon := .of_sublist rfl (List.Sublist.refl _)
    rw [step_of_recorded hrecorded]
    exact habandon.trans (later_record _ _)

theorem filter_suffix {entries : List (ℕ × Text)} (h : entries.Pairwise (·.1 < ·.1)) (mark : ℕ) :
    entries.filter (fun entry => mark ≤ entry.1) <:+ entries := by
  induction entries with
  | nil => exact List.suffix_rfl
  | cons entry rest ih =>
    obtain ⟨hhead, hrest⟩ := List.pairwise_cons.mp h
    by_cases hmark : mark ≤ entry.1
    · -- everything behind a mark that counts counts too
      have hall : ∀ x ∈ entry :: rest, mark ≤ x.1 := by
        rintro x (_ | ⟨_, hx⟩)
        · exact hmark
        · exact hmark.trans (hhead x hx).le
      exact ⟨[], List.filter_eq_self.mpr fun x hx => decide_eq_true (hall x hx)⟩
    · rw [List.filter_cons_of_neg (by simpa using hmark)]
      exact (ih hrest).trans (List.suffix_cons _ _)

/-! ### Where the scanner stands -/

/-- Where the scanner stands in what it has seen. -/
def Place (d : DeferredOsc) (seen : List UInt8) : Prop :=
  match d.scan with
  | .ground => True
  | .escape => [escByte] <:+ seen
  | .body => ∃ raw, [escByte, 0x5d] ++ raw <:+ seen ∧ (d.truncated = false → d.held = raw)
  | .bodyEscape => ∃ raw, [escByte, 0x5d] ++ raw ++ [escByte] <:+ seen ∧ (d.truncated = false → d.held = raw)

/-- The scanner stands in the output, and what it holds was in it. -/
structure Scans (d : DeferredOsc) (seen : List UInt8) : Prop where
  place : d.Place seen
  entries : ∀ entry ∈ d.entries, Occurs entry.2 seen

/-- Output the scanner is not given does not matter to it between sequences. -/
theorem Scans.skip (h : d.Scans seen) (hground : d.scan = .ground) (more : List UInt8) : d.Scans (seen ++ more) := by
  refine ⟨?_, fun entry hentry => (h.entries entry hentry).append more⟩
  rw [Place, hground]
  trivial

theorem Scans.finish {raw terminator : List UInt8} (hentries : ∀ entry ∈ d.entries, Occurs entry.2 seen)
    (hterminator : terminator = [belByte] ∨ terminator = [escByte, 0x5c])
    (hseen : [escByte, 0x5d] ++ raw ++ terminator <:+ seen) (hheld : d.truncated = false → d.held = raw) :
    d.finish.Scans seen := by
  obtain ⟨hground, hrecorded⟩ := d.finish_spec
  refine ⟨by rw [Place, hground]; trivial, fun entry hentry => ?_⟩
  rcases hrecorded entry hentry with hold | ⟨htruncated, hbody⟩
  · exact hentries entry hold
  · refine .of_suffix hterminator ?_
    rwa [hbody, hheld htruncated]

theorem Scans.step (h : d.Scans seen) {byte : UInt8} (hescape : d.scan = .bodyEscape → byte ≠ escByte) :
    (d.step byte).Scans (seen ++ [byte]) := by
  have hentries : ∀ entry ∈ d.entries, Occurs entry.2 (seen ++ [byte]) := fun entry hentry =>
    (h.entries entry hentry).append _
  have hplace := h.place
  unfold Place at hplace
  unfold DeferredOsc.step
  cases hscan : d.scan with
  | ground =>
    dsimp only
    split_ifs with hesc
    · exact ⟨hesc ▸ List.suffix_append _ _, hentries⟩
    · exact ⟨by rw [Place, hscan]; trivial, hentries⟩
  | escape =>
    rw [hscan] at hplace
    dsimp only at hplace ⊢
    split_ifs with hopen hesc
    · subst hopen
      exact ⟨⟨[], List.suffix_append_self_iff.mpr hplace, fun _ => rfl⟩, hentries⟩
    · exact ⟨by rw [Place, hscan, hesc]; exact List.suffix_append _ _, hentries⟩
    · exact ⟨trivial, hentries⟩
  | body =>
    rw [hscan] at hplace
    obtain ⟨raw, hsuffix, hheld⟩ := hplace
    have hsuffix : [escByte, 0x5d] ++ raw ++ [byte] <:+ seen ++ [byte] := List.suffix_append_self_iff.mpr hsuffix
    dsimp only
    split_ifs with hbel hesc hcontrol
    · exact .finish hentries (.inl (congrArg (fun b => [b]) hbel)) hsuffix hheld
    · subst hesc
      exact ⟨⟨raw, hsuffix, hheld⟩, hentries⟩
    · exact ⟨trivial, hentries⟩
    · rw [List.append_assoc] at hsuffix
      unfold push
      split_ifs
      · refine ⟨?_, hentries⟩
        rw [Place, hscan]
        exact ⟨raw ++ [byte], hsuffix, fun htruncated => congrArg (· ++ [byte]) (hheld htruncated)⟩
      · refine ⟨?_, hentries⟩
        rw [Place, hscan]
        exact ⟨raw ++ [byte], hsuffix, fun htruncated => absurd htruncated Bool.noConfusion⟩
  | bodyEscape =>
    rw [hscan] at hplace
    obtain ⟨raw, hsuffix, hheld⟩ := hplace
    dsimp only
    split_ifs with hclose hesc
    · subst hclose
      refine .finish hentries (.inr rfl) ?_ hheld
      have hend : [escByte, 0x5d] ++ raw ++ [escByte] ++ [0x5c] <:+ seen ++ [0x5c] := List.suffix_append_self_iff.mpr hsuffix
      rwa [List.append_assoc] at hend
    · exact absurd hesc (hescape hscan)
    · exact ⟨trivial, hentries⟩

theorem step_bodyEscape {byte : UInt8} (h : (d.step byte).scan = .bodyEscape) : byte = escByte := by
  by_contra hesc
  have hfinish : d.finish.scan ≠ .bodyEscape := by
    rw [d.finish_spec.1]
    exact Osc.noConfusion
  have hpush : (d.push byte).scan = d.scan := by
    unfold push
    split_ifs <;> rfl
  unfold DeferredOsc.step at h
  cases hscan : d.scan <;> rw [hscan] at h <;> simp only [hesc, if_false] at h
  · exact Osc.noConfusion (hscan.symm.trans h)
  · split_ifs at h
  · split_ifs at h
    · exact hfinish h
    · exact nomatch (h : Osc.ground = .bodyEscape)
    · exact Osc.noConfusion (hscan.symm.trans (hpush.symm.trans h))
  · split_ifs at h
    · exact hfinish h
    · exact nomatch (h : Osc.ground = .bodyEscape)

theorem foldl_skip (hground : d.scan = .ground) {bytes : List UInt8} (h : ∀ byte ∈ bytes, byte ≠ escByte) :
    bytes.foldl DeferredOsc.step d = d := by
  induction bytes with
  | nil => rfl
  | cons byte bytes ih =>
    rw [List.forall_mem_cons] at h
    have hstep : d.step byte = d := by
      unfold DeferredOsc.step
      rw [hground]
      exact if_neg h.1
    rw [List.foldl_cons, hstep]
    exact ih h.2

theorem feedRounds_eq_foldl {rounds : ℕ} {bytes : List UInt8} (h : bytes.length ≤ rounds) (d : DeferredOsc) :
    feedRounds rounds d bytes = bytes.foldl DeferredOsc.step d := by
  induction rounds generalizing bytes d with
  | zero =>
    rw [List.length_eq_zero_iff.mp (Nat.le_zero.mp h)]
    rfl
  | succ rounds ih =>
    cases bytes with
    | nil => rfl
    | cons byte rest =>
      rw [feedRounds]
      split_ifs with hground
      · -- the bytes up to the next escape change nothing
        have hskip : ∀ b ∈ (byte :: rest).takeWhile (· ≠ escByte), b ≠ escByte := fun b hb => by
          simpa using List.mem_takeWhile_imp hb
        have hfold : (byte :: rest).foldl DeferredOsc.step d =
            ((byte :: rest).dropWhile (· ≠ escByte)).foldl DeferredOsc.step d := by
          conv_lhs => rw [← List.takeWhile_append_dropWhile (p := (· ≠ escByte)) (l := byte :: rest), List.foldl_append,
            foldl_skip hground hskip]
        rw [hfold]
        have hlength := (List.dropWhile_suffix (l := byte :: rest) (· ≠ escByte)).length_le
        split <;> rename_i hdrop
        · rw [hdrop]
          rfl
        · rename_i first behind
          have hfirst : first = escByte := by
            have := List.head?_dropWhile_not (· ≠ escByte) (byte :: rest)
            rw [hdrop] at this
            simpa using this
          rw [hdrop] at hlength ⊢
          have hstep : d.step first = { d with scan := .escape } := by
            unfold DeferredOsc.step
            rw [hground]
            exact if_pos hfirst
          rw [List.foldl_cons, hstep]
          exact ih (by simp only [List.length_cons] at hlength h; omega) _
      · exact ih (by simpa using h) _

theorem feed_eq_foldl (d : DeferredOsc) (bytes : List UInt8) : d.feed bytes = bytes.foldl DeferredOsc.step d :=
  feedRounds_eq_foldl le_rfl d

theorem later_feed (bytes : List UInt8) : d.Later (d.feed bytes) := by
  rw [feed_eq_foldl]
  induction bytes generalizing d with
  | nil => exact .refl d
  | cons byte bytes ih => exact (later_step byte).trans ih

theorem later_forgetBefore (mark : ℕ) : d.Later (d.forgetBefore mark) :=
  .of_sublist rfl (List.dropWhile_suffix _).sublist

/-- The output has no two escapes in a row, counting one that the scanner has just read inside a body. -/
def SingleEscapes (d : DeferredOsc) (bytes : List UInt8) : Prop :=
  bytes.IsChain (fun a b => ¬(a = escByte ∧ b = escByte)) ∧ (d.scan = .bodyEscape → bytes.head? ≠ some escByte)

instance (d : DeferredOsc) (bytes : List UInt8) : Decidable (d.SingleEscapes bytes) :=
  inferInstanceAs (Decidable (_ ∧ _))

theorem Scans.feed {bytes : List UInt8} (h : d.Scans seen) (hsingle : d.SingleEscapes bytes) :
    (d.feed bytes).Scans (seen ++ bytes) := by
  rw [feed_eq_foldl]
  induction bytes generalizing d seen with
  | nil => rwa [List.append_nil]
  | cons byte bytes ih =>
    obtain ⟨hchain, hhead⟩ := hsingle
    rw [List.append_cons]
    refine ih (h.step fun hscan heq => hhead hscan (by rw [heq]; rfl)) ⟨hchain.tail, fun hscan heq => ?_⟩
    obtain ⟨rest, hrest⟩ : ∃ rest, bytes = escByte :: rest := by
      cases bytes with
      | nil => cases heq
      | cons b rest => exact ⟨rest, by rw [Option.some.inj heq]⟩
    rw [hrest, List.isChain_cons_cons] at hchain
    exact hchain.1 ⟨step_bodyEscape hscan, rfl⟩

theorem Scans.forgetBefore (h : d.Scans seen) (mark : ℕ) : (d.forgetBefore mark).Scans seen :=
  ⟨h.place, fun entry hentry => h.entries entry ((List.dropWhile_suffix _).subset hentry)⟩

theorem mem_carry {start budget : ℕ} {entry : ℕ × Text} (h : entry ∈ d.carry start budget) : entry ∈ d.entries :=
  List.mem_of_mem_filter (List.mem_of_mem_drop h)

end DeferredOsc

end Braid.Session
