import Braid.Daemon.QueryCut

/-! When the query filter changes nothing, and when it cuts exactly what the
emulator answered. Both hold but for strings that do not fit the buffer together
with an ESC that breaks them off: the filter sends such a string however it was
answered, and if that ESC ended a chunk it is sent a second time. -/

namespace Braid.Daemon

open Foundation

variable {σ ε : Type*}

/-- Two ways to expand a list agree exactly if they agree on each of its elements,
where they differ only by the first being longer. -/
theorem flatMap_eq_iff {α β : Type*} {f g : α → List β} {l : List α}
    (h : ∀ x ∈ l, f x = g x ∨ (g x).length < (f x).length) : l.flatMap f = l.flatMap g ↔ ∀ x ∈ l, f x = g x := by
  have hle : ∀ l : List α, (∀ x ∈ l, f x = g x ∨ (g x).length < (f x).length) →
      (l.flatMap g).length ≤ (l.flatMap f).length := by
    intro l h
    induction l with
    | nil => exact le_rfl
    | cons x l ih =>
      have hx : (g x).length ≤ (f x).length := (h x List.mem_cons_self).elim (fun heq => heq ▸ le_rfl) Nat.le_of_lt
      have hl := ih fun y hy => h y (List.mem_cons_of_mem _ hy)
      simp only [List.flatMap_cons, List.length_append]
      omega
  induction l with
  | nil => simp
  | cons x l ih =>
    have hl : ∀ y ∈ l, f y = g y ∨ (g y).length < (f y).length := fun y hy => h y (List.mem_cons_of_mem _ hy)
    rw [List.flatMap_cons, List.flatMap_cons, List.forall_mem_cons]
    refine ⟨fun heq => ?_, fun ⟨hx, hrest⟩ => by rw [hx, (ih hl).mpr hrest]⟩
    obtain hx | hlt := h x List.mem_cons_self
    · rw [hx] at heq
      exact ⟨hx, (ih hl).mp (List.append_cancel_left heq)⟩
    · have hlen := congrArg List.length heq
      have := hle l hl
      rw [List.length_append, List.length_append] at hlen
      omega

namespace QueryFilter

theorem take_append_slice {S : List UInt8} {n m : ℕ} (h : n ≤ m) : S.take n ++ slice S n m = S.take m := by
  rw [slice, ← Nat.min_eq_left h, ← List.take_take, Nat.min_eq_left h, List.take_append_drop]

/-! ### Silent emulators -/

/-- An emulator that also keeps the spans it is handed. -/
def recording (E : Emulator σ ε) : Emulator (List (List UInt8) × σ) ε :=
  ⟨fun (spans, s) bytes => (E.consume s bytes).map fun (answer, s) => (answer, spans ++ [bytes], s)⟩

theorem observed_recording {E : Emulator σ ε} (S : List UInt8)
    (hmute : ∀ s bytes answer s', E.consume s bytes = .ok (answer, s') → answer = .silent) :
    Observed (recording E) S (fun _ => false) fun n state => state.1.flatten = S.take n := by
  rintro n m ⟨spans, s⟩ answer ⟨spans', s'⟩ hnm - hspans hok
  obtain ⟨⟨answer', s₁⟩, hconsume, heq⟩ := exists_of_map_ok hok
  obtain ⟨rfl, rfl, rfl⟩ := heq
  refine ⟨?_, by simp [hmute _ _ _ _ hconsume]⟩
  dsimp only at hspans ⊢
  rw [List.flatten_append, hspans, List.flatten_singleton, take_append_slice hnm]

/-- A string that does not fit the buffer together with the ESC that breaks it off,
where that ESC is the last byte of a chunk. -/
def Reopened (chunks : List (List UInt8)) : Prop :=
  ∃ x ∈ (delimit chunks.flatten).done, x.broken = true ∧ scanLimit ≤ x.bytes.length ∧ x.stop ∈ chunkStarts 0 chunks

instance (chunks : List (List UInt8)) : Decidable (Reopened chunks) := inferInstanceAs (Decidable (∃ x ∈ _, _))

theorem sent_silent (cut : ℕ → Bool) (x : Stretch) : x.sent (fun _ => false) cut =
    x.bytes ++ if x.broken = true ∧ scanLimit ≤ x.bytes.length ∧ cut x.stop = true then [ESC] else [] := by
  have hanswered : x.answered (fun _ => false) = false := by simp [Stretch.answered]
  rw [Stretch.sent, hanswered, if_neg Bool.false_ne_true, Stretch.held]
  cases hbroken : x.broken with
  | false => simp
  | true =>
    by_cases hover : scanLimit ≤ x.bytes.length
    · simp [hover, Nat.lt_succ_of_le hover]
    · simp [hover, Nat.not_lt.mpr (Nat.succ_le_of_lt (Nat.not_le.mp hover))]

/-- The emulator that never replies is handed the stream, the client gets the stream
and no more than the limit is held, exactly if no ESC that ended a chunk is taken back
from a string that overran. The filter fails only if the emulator does. -/
theorem filter_neutral_iff (E : Emulator σ ε)
    (hmute : ∀ s bytes answer s', E.consume s bytes = .ok (answer, s') → answer = .silent)
    (s : σ) (chunks : List (List UInt8 × List UInt8)) :
    (∃ e, filterAll (recording E) new ([], s) chunks = .error e ∧ ∃ s span, E.consume s span = .error e) ∨
      ∃ f out spans s', filterAll (recording E) new ([], s) chunks = .ok (f, out, spans, s') ∧
        (spans.flatten = (chunks.map Prod.fst).flatten ∧ out ++ f.pending = (chunks.map Prod.fst).flatten ∧
          f.pending.length ≤ scanLimit ↔ ¬ Reopened (chunks.map Prod.fst)) := by
  have hsafe : Safe (recording E) (fun _ => True) (fun r => r.2.2) (filterAll (recording E) new ([], s) chunks) :=
    safe_filterAll (fun _ _ _ _ _ _ => trivial) trivial chunks
  cases hrun : filterAll (recording E) new ([], s) chunks with
  | error e =>
    rw [hrun] at hsafe
    obtain ⟨⟨spans, s'⟩, span, -, hfails⟩ := hsafe
    exact .inl ⟨e, rfl, s', span, error_of_map_error hfails⟩
  | ok result =>
    obtain ⟨f, out, spans, s'⟩ := result
    refine .inr ⟨f, out, spans, s', rfl, ?_⟩
    obtain ⟨htext, hheld, hspans⟩ := filterAll_spec rfl (observed_recording _ hmute) (fun _ _ _ _ _ => rfl) rfl hrun
    generalize (chunks.map Prod.fst) = cs at *
    rw [List.take_length] at hspans
    have hwhole := (sane_delimit cs.flatten).whole
    rw [and_iff_right hspans, and_iff_left hheld, htext]
    nth_rewrite 3 [← hwhole]
    rw [List.append_cancel_right_eq, flatMap_eq_iff]
    · simp [sent_silent, Reopened]
    · intro x _
      rw [sent_silent]
      split_ifs <;> simp

def mute : Emulator Unit Empty := ⟨fun s _ => .ok (.silent, s)⟩

theorem mute_silent (s : Unit) (bytes : List UInt8) (answer : Answer) (s' : Unit)
    (h : mute.consume s bytes = .ok (answer, s')) : answer = .silent :=
  (Prod.mk.inj (Except.ok.inj h)).1.symm

/-- An escape sequence cut between two chunks comes through. -/
theorem filter_neutral_iff_split : ∃ f out spans,
    filterAll (recording mute) new ([], ()) [([ESC], []), ([0x63], [])] = .ok (f, out, spans, ()) ∧
      spans.flatten = [ESC, 0x63] ∧ out ++ f.pending = [ESC, 0x63] ∧ f.pending.length ≤ scanLimit := by
  obtain ⟨e, -⟩ | ⟨f, out, spans, s', hrun, hiff⟩ := filter_neutral_iff mute mute_silent () [([ESC], []), ([0x63], [])]
  · exact e.elim
  · exact ⟨f, out, spans, hrun, hiff.mpr (by decide)⟩

/-- A device control string of `n` bytes that an ESC breaks off. -/
def brokenString (n : ℕ) : List UInt8 := [ESC, 0x50] ++ List.replicate n 0x61

theorem read_replicate (done : List Stretch) (current : List UInt8) (since count n : ℕ) :
    (List.replicate n 0x61).foldl Delimiter.read ⟨done, .string, current, since, count⟩ =
      ⟨done, .string, current ++ List.replicate n 0x61, since, count + n⟩ := by
  induction n generalizing current count with
  | zero => simp
  | succ n ih =>
    have hread : (⟨done, .string, current, since, count⟩ : Delimiter).read 0x61 =
        ⟨done, .string, current ++ [0x61], since, count + 1⟩ := rfl
    rw [List.replicate_succ, List.foldl_cons, hread, ih, List.append_assoc, List.singleton_append, Nat.add_assoc,
      Nat.add_comm 1 n]

theorem delimit_brokenString (n : ℕ) : delimit (brokenString n ++ [ESC, 0x63]) =
    ⟨[⟨brokenString n, 0, 2 + n + 1, true⟩, ⟨[ESC, 0x63], 2 + n + 1, 2 + n + 2, false⟩], .ground, [], 2 + n + 2, 2 + n + 2⟩ := by
  have hopen : delimit [ESC, 0x50] = ⟨[], .string, [ESC, 0x50], 0, 2⟩ := rfl
  have hbreak : ∀ current count, [ESC, 0x63].foldl Delimiter.read ⟨[], .string, current, 0, count⟩ =
      ⟨[⟨(current ++ [ESC]).dropLast, 0, count + 1, true⟩, ⟨[ESC, 0x63], count + 1, count + 2, false⟩], .ground, [],
        count + 2, count + 2⟩ := fun _ _ => rfl
  rw [brokenString, delimit_append, delimit_append, hopen, read_replicate, hbreak, List.dropLast_concat]

/-- A string of the limit's length and the ESC that breaks it off in one chunk, and
what follows in the next. -/
def splitChunks : List (List UInt8 × List UInt8) := [(brokenString 4094 ++ [ESC], []), ([0x63], [])]

theorem input_splitChunks : (splitChunks.map Prod.fst).flatten = brokenString 4094 ++ [ESC, 0x63] := by
  simp [splitChunks]

theorem length_brokenString (n : ℕ) : (brokenString n).length = 2 + n := by
  rw [brokenString, List.length_append, List.length_replicate]
  rfl

theorem sent_splitChunks : (delimit (splitChunks.map Prod.fst).flatten).done.flatMap
      (Stretch.sent (fun _ => false) (· ∈ chunkStarts 0 (splitChunks.map Prod.fst))) ++
        (delimit (splitChunks.map Prod.fst).flatten).current = brokenString 4094 ++ [ESC, ESC, 0x63] := by
  rw [input_splitChunks, delimit_brokenString]
  simp [sent_silent, length_brokenString, splitChunks, chunkStarts, scanLimit]

/-- The ESC is sent twice though nothing was replied to. -/
theorem split_escape_sent_twice : ∃ f out spans,
    filterAll (recording mute) new ([], ()) splitChunks = .ok (f, out, spans, ()) ∧
      (splitChunks.map Prod.fst).flatten = brokenString 4094 ++ [ESC, 0x63] ∧
      out ++ f.pending = brokenString 4094 ++ [ESC, ESC, 0x63] := by
  cases hrun : filterAll (recording mute) new ([], ()) splitChunks with
  | error e => exact e.elim
  | ok result =>
    obtain ⟨f, out, spans, s'⟩ := result
    refine ⟨f, out, spans, rfl, input_splitChunks, ?_⟩
    obtain ⟨htext, -, -⟩ := filterAll_spec rfl (observed_recording _ mute_silent) (fun _ _ _ _ _ => rfl) rfl hrun
    exact htext.trans sent_splitChunks

/-! ### Emulators that reply -/

/-- The states the emulator can be in once it was given a stream, span by span. -/
inductive Reaches (E : Emulator σ ε) (s₀ : σ) : List UInt8 → σ → Prop where
  | start : Reaches E s₀ [] s₀
  | consume {given span : List UInt8} {s s' : σ} {answer : Answer} :
      Reaches E s₀ given s → E.consume s span = .ok (answer, s') → Reaches E s₀ (given ++ span) s'

/-- Started in `s₀` the emulator takes every span, and replies within it exactly if
`replies` holds of the stream up to one of its bytes. -/
def RepliesAs (E : Emulator σ ε) (s₀ : σ) (replies : List UInt8 → Bool) : Prop :=
  ∀ given s span, Reaches E s₀ given s → ∃ answer s', E.consume s span = .ok (answer, s') ∧
    (answer = .replied ↔ ∃ part, part ≠ [] ∧ part <+: span ∧ replies (given ++ part) = true)

variable (replies : List UInt8 → Bool)

/-- The reply at a position of the stream. -/
def replyAt (S : List UInt8) (i : ℕ) : Bool := replies (S.take (i + 1))

theorem observed_repliesAs {E : Emulator σ ε} {s₀ : σ} {replies : List UInt8 → Bool} (h : RepliesAs E s₀ replies)
    (S : List UInt8) : Observed E S (replyAt replies S) fun n s => Reaches E s₀ (S.take n) s := by
  intro n m s answer s' hnm hm hreaches hok
  obtain ⟨answer', s₁, hok', hreplied⟩ := h _ _ (slice S n m) hreaches
  obtain ⟨rfl, rfl⟩ := Prod.mk.inj (Except.ok.inj (hok'.symm.trans hok))
  refine ⟨?_, hreplied.trans ⟨?_, ?_⟩⟩
  · have hreaches' := hreaches.consume hok
    rwa [take_append_slice hnm] at hreaches'
  · rintro ⟨part, hne, hpart, hreply⟩
    have hlen := List.length_pos_of_ne_nil hne
    have hle := hpart.length_le
    have hat : At S n part := ⟨hnm.trans hm, hpart.trans (by rw [slice, List.drop_take]; exact List.take_prefix _ _)⟩
    rw [hat.take_append] at hreply
    rw [slice, List.length_drop, List.length_take] at hle
    refine ⟨n + part.length - 1, by omega, by omega, ?_⟩
    rw [replyAt, Nat.sub_add_cancel (by omega)]
    exact hreply
  · rintro ⟨i, hfrom, hto, hreply⟩
    refine ⟨slice S n (i + 1), ?_, ?_, ?_⟩
    · refine List.ne_nil_of_length_pos ?_
      rw [slice, List.length_drop, List.length_take]
      omega
    · rw [slice, slice, List.drop_take, List.drop_take]
      exact List.take_prefix_take_left (by omega)
    · rw [take_append_slice (by omega)]
      exact hreply

/-- A string that fills the buffer is broken off, and it was answered or the ESC that
broke it off is the last byte of a chunk. -/
def Spoiled (reply cut : ℕ → Bool) (x : Stretch) : Prop :=
  x.broken = true ∧ x.bytes.length = scanLimit ∧ (x.answered reply = true ∨ cut x.stop = true)

instance (reply cut : ℕ → Bool) (x : Stretch) : Decidable (Spoiled reply cut x) :=
  inferInstanceAs (Decidable (_ ∧ _ ∧ (_ ∨ _)))

/-- Of a stretch within the limit the client is sent what it is to have, or more. -/
theorem sent_cases (reply cut : ℕ → Bool) {x : Stretch} (hle : x.bytes.length ≤ scanLimit) :
    Spoiled reply cut x ∧ (if x.answered reply then [] else x.bytes).length < (x.sent reply cut).length ∨
      ¬ Spoiled reply cut x ∧ x.sent reply cut = if x.answered reply then [] else x.bytes := by
  by_cases hfull : x.broken = true ∧ x.bytes.length = scanLimit
  · obtain ⟨hbroken, hlen⟩ := hfull
    have hpos : 0 < scanLimit := by decide
    have hsent : x.sent reply cut = x.bytes ++ if cut x.stop = true then [ESC] else [] := by
      rw [Stretch.sent, Stretch.held, hbroken, hlen, if_pos (by simp)]
      simp
    rw [hsent]
    cases hanswered : x.answered reply <;> cases hcut : cut x.stop <;>
      simp [Spoiled, hbroken, hlen, hanswered, hcut, hpos]
  · refine .inr ⟨fun hspoiled => hfull ⟨hspoiled.1, hspoiled.2.1⟩, ?_⟩
    rw [Stretch.sent, if_neg]
    rw [Stretch.held]
    split_ifs with hbroken
    · have : x.bytes.length ≠ scanLimit := fun hlen => hfull ⟨hbroken, hlen⟩
      omega
    · omega

/-- Over a stream none of whose sequences exceeds the limit, and with an emulator that
replies as a function of the stream and to sequences only, the client's output and what
is held are the stream without the sequences replied to, exactly if no string is spoiled. -/
theorem filter_exact_iff {E : Emulator σ ε} {s₀ : σ} {replies : List UInt8 → Bool} (hE : RepliesAs E s₀ replies)
    (chunks : List (List UInt8 × List UInt8)) {S : List UInt8} (hS : S = (chunks.map Prod.fst).flatten)
    (hquiet : ∀ given b, given ++ [b] <+: S → (delimit given).scan = .ground → opens b = false →
      replies (given ++ [b]) = false)
    (hlimit : ∀ x ∈ (delimit S).done, x.bytes.length ≤ scanLimit) :
    ∃ f out s, filterAll E new s₀ chunks = .ok (f, out, s) ∧
      (out ++ f.pending = spared (replyAt replies S) S ↔
        ∀ x ∈ (delimit S).done, ¬ Spoiled (replyAt replies S) (· ∈ chunkStarts 0 (chunks.map Prod.fst)) x) := by
  have hsafe : Safe E (fun s => ∃ given, Reaches E s₀ given s) (fun r => r.2.2) (filterAll E new s₀ chunks) :=
    safe_filterAll (fun _ _ _ _ ⟨given, h⟩ hok => ⟨_, h.consume hok⟩) ⟨[], .start⟩ chunks
  cases hrun : filterAll E new s₀ chunks with
  | error e =>
    rw [hrun] at hsafe
    obtain ⟨s, span, ⟨given, hreaches⟩, hfails⟩ := hsafe
    obtain ⟨answer, s', hok, -⟩ := hE given s span hreaches
    rw [hfails] at hok
    cases hok
  | ok result =>
    obtain ⟨f, out, s⟩ := result
    refine ⟨f, out, s, rfl, ?_⟩
    have hsilent : Quiet S (replyAt replies S) := by
      intro i b hb hscan hopens
      have htake : S.take (i + 1) = S.take i ++ [b] := by rw [List.take_add_one, hb, Option.toList_some]
      rw [replyAt, htake]
      exact hquiet _ _ (htake ▸ List.take_prefix _ _) hscan hopens
    obtain ⟨htext, -, -⟩ := filterAll_spec hS (observed_repliesAs hE S) hsilent .start hrun
    rw [htext, spared, List.append_cancel_right_eq, flatMap_eq_iff]
    · refine forall₂_congr fun x hx => ?_
      obtain ⟨hspoiled, hlt⟩ | ⟨hspoiled, heq⟩ := sent_cases _ _ (hlimit x hx)
      · exact iff_of_false (fun heq => absurd (congrArg List.length heq) (Nat.ne_of_gt hlt)) (not_not_intro hspoiled)
      · exact iff_of_true heq hspoiled
    · intro x hx
      obtain ⟨-, hlt⟩ | ⟨-, heq⟩ := sent_cases _ _ (hlimit x hx)
      · exact .inr hlt
      · exact .inl heq

/-- The emulator that replies as it is told, keeping the stream it was given. -/
def scripted : Emulator (List UInt8) Empty :=
  ⟨fun given span => .ok (if (List.range span.length).any fun i => replies (given ++ span.take (i + 1)) then .replied
    else .silent, given ++ span)⟩

theorem repliesAs_scripted : RepliesAs (scripted replies) [] replies := by
  have hstate : ∀ given s, Reaches (scripted replies) [] given s → s = given := by
    intro given s hreaches
    induction hreaches with
    | start => rfl
    | consume _ hok ih =>
      rw [← (Prod.mk.inj (Except.ok.inj hok)).2, ih]
  intro given s span hreaches
  obtain rfl := hstate given s hreaches
  refine ⟨_, _, rfl, ?_⟩
  simp only [ite_eq_left_iff, reduceCtorEq, imp_false, not_not, List.any_eq_true, List.mem_range]
  constructor
  · rintro ⟨i, hi, hreply⟩
    refine ⟨span.take (i + 1), List.ne_nil_of_length_pos ?_, List.take_prefix _ _, hreply⟩
    rw [List.length_take]
    omega
  · rintro ⟨part, hne, hpart, hreply⟩
    have hpos := List.length_pos_of_ne_nil hne
    have hle := hpart.length_le
    refine ⟨part.length - 1, by omega, ?_⟩
    rwa [Nat.sub_add_cancel (by omega), ← List.prefix_iff_eq_take.mp hpart]

/-- A query of the device attributes that two chunks share is cut, the text behind it is not. -/
theorem filter_exact_iff_report : ∃ f out s,
    filterAll (scripted (· = [ESC, 0x5b, 0x63])) new [] [([ESC, 0x5b], []), ([0x63, 0x78], [])] = .ok (f, out, s) ∧
      out ++ f.pending = [0x78] := by
  have hquiet : ∀ given b, given ++ [b] <+: [ESC, 0x5b, 0x63, 0x78] → (delimit given).scan = .ground → opens b = false →
      decide (given ++ [b] = [ESC, 0x5b, 0x63]) = false := by
    intro given b _ hscan _
    refine decide_eq_false fun heq => ?_
    obtain ⟨rfl, -⟩ := List.append_inj' (heq.trans (rfl : _ = [ESC, 0x5b] ++ [0x63])) rfl
    exact absurd hscan (by decide)
  obtain ⟨f, out, s, hrun, hiff⟩ := filter_exact_iff (repliesAs_scripted (· = [ESC, 0x5b, 0x63]))
    [([ESC, 0x5b], []), ([0x63, 0x78], [])] rfl hquiet (by decide)
  exact ⟨f, out, s, hrun, (hiff.mpr (by decide)).trans (by decide)⟩

/-- A string of the limit's length, no reply, and a chunk that ends with the ESC that
breaks the string off: the client's output depends on the chunks. -/
theorem exact_cut_depends_on_chunks :
    (∀ x ∈ (delimit (brokenString 4094 ++ [ESC, 0x63])).done, x.bytes.length ≤ scanLimit) ∧
      spared (fun _ => false) (brokenString 4094 ++ [ESC, 0x63]) = brokenString 4094 ++ [ESC, 0x63] ∧
      (∃ f out s, filterAll mute new () [(brokenString 4094 ++ [ESC, 0x63], [])] = .ok (f, out, s) ∧
        out ++ f.pending = brokenString 4094 ++ [ESC, 0x63]) ∧
      ∃ f out s, filterAll mute new () splitChunks = .ok (f, out, s) ∧
        out ++ f.pending = brokenString 4094 ++ [ESC, ESC, 0x63] := by
  have hmute : ∀ S, Observed mute S (fun _ => false) fun _ _ => True := by
    rintro S n m s answer s' - - - hok
    exact ⟨trivial, by simp [mute_silent _ _ _ _ hok]⟩
  refine ⟨?_, ?_, ?_, ?_⟩
  · rw [delimit_brokenString]
    simp only [List.forall_mem_cons, length_brokenString]
    decide
  · rw [spared, delimit_brokenString]
    simp [Stretch.answered]
  · cases hrun : filterAll mute new () [(brokenString 4094 ++ [ESC, 0x63], [])] with
    | error e => exact e.elim
    | ok result =>
      obtain ⟨f, out, s⟩ := result
      obtain ⟨htext, -, -⟩ := filterAll_spec rfl (hmute _) (fun _ _ _ _ _ => rfl) trivial hrun
      refine ⟨f, out, s, rfl, htext.trans ?_⟩
      simp only [List.map_cons, List.map_nil, List.flatten_cons, List.flatten_nil, List.append_nil, delimit_brokenString]
      simp [sent_silent, chunkStarts]
  · cases hrun : filterAll mute new () splitChunks with
    | error e => exact e.elim
    | ok result =>
      obtain ⟨f, out, s⟩ := result
      obtain ⟨htext, -, -⟩ := filterAll_spec rfl (hmute _) (fun _ _ _ _ _ => rfl) trivial hrun
      exact ⟨f, out, s, rfl, htext.trans sent_splitChunks⟩

end QueryFilter

end Braid.Daemon
