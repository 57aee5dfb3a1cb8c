import Braid.Daemon.QueryHold

/-! The query filter against the stretches of the stream: byte by byte, turn by
turn and call by call the filter scans as the stream is delimited. So what the
client is sent is known for every stream, every chunking and every emulator, and
with it when the filter is neutral and when its cut is exact. -/

namespace Braid.Daemon

open Foundation

variable {σ ε : Type*}

namespace QueryFilter

section

variable {E : Emulator σ ε} {S bytes sent : List UInt8} {reply cut : ℕ → Bool} {Fed : ℕ → σ → Prop} {base : ℕ}
  {w w' : Walk σ} {d : Delimiter} {b : UInt8}

/-- The filter scans as the delimiter does. Right after a string was broken off the
delimiter has not read on yet. -/
structure Follows (S : List UInt8) (reply cut : ℕ → Bool) (Fed : ℕ → σ → Prop) (sent : List UInt8) (base : ℕ)
    (bytes : List UInt8) (w : Walk σ) (d : Delimiter) : Prop extends Tracks reply cut Fed sent base bytes w d where
  scan : w.filter.scan = d.scan
  reads : d = delimit (S.take (base + w.index)) ∨ d.scan = .escape ∧
    ∃ b, bytes[w.index]? = some b ∧ d.readEscape b = (delimit (S.take (base + w.index))).read b
  start : w.index = 0 → d.scan = .stringEscape → w.out.copying = true ∧ w.out.finish = []

structure Chunk (S : List UInt8) (cut : ℕ → Bool) (base : ℕ) (bytes : List UInt8) : Prop where
  inside : base + bytes.length ≤ S.length
  eq : bytes = slice S base (base + bytes.length)
  starts : ∀ i < bytes.length, cut (base + i) = decide (i = 0)

theorem Chunk.getElem? (h : Chunk S cut base bytes) {i : ℕ} (hb : bytes[i]? = some b) : S[base + i]? = some b := by
  obtain ⟨hi, -⟩ := List.getElem?_eq_some_iff.mp hb
  rwa [h.eq, slice, List.getElem?_drop, List.getElem?_take_of_lt (by omega)] at hb

theorem Chunk.take_succ (h : Chunk S cut base bytes) {i : ℕ} (hb : bytes[i]? = some b) :
    S.take (base + (i + 1)) = S.take (base + i) ++ [b] := by
  rw [← Nat.add_assoc, List.take_add_one, h.getElem? hb, Option.toList_some]

variable {f : QueryFilter}

theorem place_consumed {out : Out} (hstep : w.filter.step b w.out = (f, out, .consumed))
    (hb : bytes[w.index]? = some b) (hok : place bytes E w = .ok w') :
    w' = { w with filter := f, out := out, index := w.index + 1 } := by
  rw [place, List.getD_eq_getElem?_getD, hb, Option.getD_some, hstep] at hok
  exact (Except.ok.inj hok).symm

theorem place_boundary {out : Out} (hstep : w.filter.step b w.out = (f, out, .boundary))
    (hb : bytes[w.index]? = some b) (hok : place bytes E w = .ok w') (hE : Observed E S reply Fed)
    (hchunk : Chunk S cut base bytes)
    (h : Tracks reply cut Fed sent base bytes { w with filter := f, out := out, index := w.index + 1 } d) :
    w'.index = w.index + 1 ∧ w'.filter.scan = .ground ∧ Tracks reply cut Fed sent base bytes w' d.close := by
  rw [place, List.getD_eq_getElem?_getD, hb, Option.getD_some, hstep] at hok
  obtain ⟨⟨f', out', s⟩, hsettle, rfl⟩ := exists_of_map_ok hok
  obtain ⟨rfl, htracks⟩ := h.settle hE hchunk.eq hchunk.inside hsettle
  exact ⟨rfl, rfl, htracks⟩

theorem Follows.delimited (h : Follows S reply cut Fed sent base bytes w d) (hscan : d.scan ≠ .escape) :
    d = delimit (S.take (base + w.index)) :=
  h.reads.resolve_right fun hother => hscan hother.1

theorem Follows.at_ground (h : Follows S reply cut Fed sent base bytes w d) (hscan : d.scan = .ground) :
    d = delimit (S.take (base + w.index)) ∧ d.current = [] ∧ d.since = d.count ∧ w.filter.pending = [] := by
  have hd := h.delimited (by rw [hscan]; nofun)
  obtain ⟨hcurrent, hsince⟩ := (sane_delimit (S.take (base + w.index))).ground (hd ▸ hscan)
  rw [← hd] at hcurrent hsince
  exact ⟨hd, hcurrent, hsince, by rw [h.pending, hcurrent, ite_self]⟩

theorem follows_of_read (hchunk : Chunk S cut base bytes) (hb : bytes[w.index]? = some b)
    (hindex : w'.index = w.index + 1) (h : Tracks reply cut Fed sent base bytes w' d) (hscan : w'.filter.scan = d.scan)
    (hread : (delimit (S.take (base + w.index))).read b = d) : ∃ d, Follows S reply cut Fed sent base bytes w' d := by
  refine ⟨d, h, hscan, .inl ?_, fun hzero => by omega⟩
  rw [hindex, hchunk.take_succ hb, delimit_concat, hread]

section

variable (h : Follows S reply cut Fed sent base bytes w d) (hE : Observed E S reply Fed) (hchunk : Chunk S cut base bytes)
  (hb : bytes[w.index]? = some b) (hok : place bytes E w = .ok w')

include h hE hchunk hb hok

theorem Follows.place_ground (hscan : d.scan = .ground) (hopens : opens b = true) :
    ∃ d, Follows S reply cut Fed sent base bytes w' d := by
  obtain ⟨hd, hcurrent, hsince, -⟩ := h.at_ground hscan
  have hread : (delimit (S.take (base + w.index))).read b = d.readGround b := by rw [← hd, Delimiter.read, hscan]
  obtain rfl | rfl : b = ESC ∨ b = ENQ := by simpa [opens] using hopens
  · have hstep : w.filter.step ESC w.out = (w.filter.opened, w.out, .consumed) := by
      rw [step, h.scan, hscan]
      rfl
    obtain rfl := place_consumed hstep hb hok
    refine follows_of_read hchunk hb rfl ((h.toTracks.begin hb hcurrent hsince .escape).rescan .escape .escape) rfl ?_
    rw [hread]
    rfl
  · have hstep : w.filter.step ENQ w.out = (w.filter.begin ENQ, w.out, .boundary) := by
      rw [step, h.scan, hscan]
      rfl
    obtain ⟨hindex, hground, htracks⟩ := place_boundary hstep hb hok hE hchunk (h.toTracks.begin hb hcurrent hsince _)
    exact follows_of_read hchunk hb hindex htracks hground hread

theorem Follows.place_escape (hscan : d.scan = .escape) : ∃ d, Follows S reply cut Fed sent base bytes w' d := by
  have hread : (delimit (S.take (base + w.index))).read b = d.readEscape b := by
    obtain hd | ⟨-, b', hb', hread⟩ := h.reads
    · rw [← hd, Delimiter.read, hscan]
    · obtain rfl := Option.some.inj (hb.symm.trans hb')
      exact hread.symm
  have hhold := h.toTracks.hold hb
  by_cases hesc : b = ESC
  · subst hesc
    have hstep : w.filter.step ESC w.out = (w.filter, w.out, .openerHere) := by
      rw [step, h.scan, hscan]
      rfl
    rw [place, List.getD_eq_getElem?_getD, hb, Option.getD_some, hstep] at hok
    obtain ⟨⟨f, out, s⟩, hsettle, rfl⟩ := exists_of_map_ok hok
    obtain ⟨rfl, htracks⟩ := h.toTracks.settle hE hchunk.eq hchunk.inside hsettle
    refine follows_of_read hchunk hb rfl ((htracks.begin hb rfl rfl .escape).rescan .escape .escape) rfl ?_
    rw [hread]
    rfl
  · have hstep : w.filter.step b w.out = if b = 0x5b then
          ({ (w.filter.hold b w.out).1 with scan := .csi }, (w.filter.hold b w.out).2, .consumed)
        else if opensString b then
          ({ (w.filter.hold b w.out).1 with scan := .string }, (w.filter.hold b w.out).2, .consumed)
        else ((w.filter.hold b w.out).1, (w.filter.hold b w.out).2, .boundary) := by
      rw [step, h.scan, hscan]
      exact if_neg hesc
    rw [Delimiter.readEscape, if_neg hesc] at hread
    split_ifs at hstep hread with hcsi hstring
    · obtain rfl := place_consumed hstep hb hok
      exact follows_of_read hchunk hb rfl (hhold.rescan .csi .csi) rfl hread
    · obtain rfl := place_consumed hstep hb hok
      exact follows_of_read hchunk hb rfl (hhold.rescan .string .string) rfl hread
    · obtain ⟨hindex, hground, htracks⟩ := place_boundary hstep hb hok hE hchunk hhold
      exact follows_of_read hchunk hb hindex htracks hground hread

omit hE in
theorem Follows.held (hstep : w.filter.step b w.out = ((w.filter.hold b w.out).1, (w.filter.hold b w.out).2, .consumed))
    (hread : (delimit (S.take (base + w.index))).read b = d.extend b) :
    ∃ d, Follows S reply cut Fed sent base bytes w' d := by
  obtain rfl := place_consumed hstep hb hok
  exact follows_of_read hchunk hb rfl (h.toTracks.hold hb) ((hold_scan _ _ _).trans h.scan) hread

theorem Follows.ended (hstep : w.filter.step b w.out = ((w.filter.hold b w.out).1, (w.filter.hold b w.out).2, .boundary))
    (hread : (delimit (S.take (base + w.index))).read b = (d.extend b).close) :
    ∃ d, Follows S reply cut Fed sent base bytes w' d := by
  obtain ⟨hindex, hground, htracks⟩ := place_boundary hstep hb hok hE hchunk (h.toTracks.hold hb)
  exact follows_of_read hchunk hb hindex htracks hground hread

theorem Follows.place_csi (hscan : d.scan = .csi) : ∃ d, Follows S reply cut Fed sent base bytes w' d := by
  have hd := h.delimited (by rw [hscan]; nofun)
  have hread : (delimit (S.take (base + w.index))).read b =
      if 0x40 ≤ b ∧ b ≤ 0x7e then (d.extend b).close else d.extend b := by rw [← hd, Delimiter.read, hscan]
  have hstep : w.filter.step b w.out = if 0x40 ≤ b ∧ b ≤ 0x7e
      then ((w.filter.hold b w.out).1, (w.filter.hold b w.out).2, .boundary)
      else ((w.filter.hold b w.out).1, (w.filter.hold b w.out).2, .consumed) := by rw [step, h.scan, hscan]
  split_ifs at hstep hread
  · exact h.ended hE hchunk hb hok hstep hread
  · exact h.held hchunk hb hok hstep hread

theorem Follows.place_string (hscan : d.scan = .string) : ∃ d, Follows S reply cut Fed sent base bytes w' d := by
  have hd := h.delimited (by rw [hscan]; nofun)
  have hread : (delimit (S.take (base + w.index))).read b =
      if b = ESC then { d.extend b with scan := .stringEscape }
      else if b ≤ 0x1f then (d.extend b).close else d.extend b := by rw [← hd, Delimiter.read, hscan]
  have hstep : w.filter.step b w.out = if b = ESC
      then ({ (w.filter.hold b w.out).1 with scan := .stringEscape }, (w.filter.hold b w.out).2, .consumed)
      else if b ≤ 0x1f then ((w.filter.hold b w.out).1, (w.filter.hold b w.out).2, .boundary)
      else ((w.filter.hold b w.out).1, (w.filter.hold b w.out).2, .consumed) := by rw [step, h.scan, hscan]
  split_ifs at hstep hread
  · obtain rfl := place_consumed hstep hb hok
    exact follows_of_read hchunk hb rfl ((h.toTracks.hold hb).rescan .stringEscape .stringEscape) rfl hread
  · exact h.ended hE hchunk hb hok hstep hread
  · exact h.held hchunk hb hok hstep hread

theorem Follows.place_stringEscape (hscan : d.scan = .stringEscape) : ∃ d, Follows S reply cut Fed sent base bytes w' d := by
  have hd := h.delimited (by rw [hscan]; rintro ⟨⟩)
  have hread : (delimit (S.take (base + w.index))).read b =
      if b = 0x5c then (d.extend b).close else d.breakOff.readEscape b := by rw [← hd, Delimiter.read, hscan]
  have hstep : w.filter.step b w.out = if b = 0x5c
      then ((w.filter.hold b w.out).1, (w.filter.hold b w.out).2, .boundary)
      else (w.filter, w.out, .openerHeld) := by rw [step, h.scan, hscan]
  split_ifs at hstep hread with hst
  · exact h.ended hE hchunk hb hok hstep hread
  · obtain ⟨body, hcurrent⟩ := (sane_delimit (S.take (base + w.index))).escaped (hd ▸ hscan)
    rw [← hd] at hcurrent
    obtain ⟨hindex, -⟩ := List.getElem?_eq_some_iff.mp hb
    rw [place, List.getD_eq_getElem?_getD, hb, Option.getD_some, hstep] at hok
    obtain ⟨⟨f, out, s⟩, hsettle, rfl⟩ := exists_of_map_ok hok
    refine ⟨d.breakOff, h.toTracks.breakOff hE hchunk.eq hchunk.inside hcurrent (hchunk.starts _ hindex)
      (fun hzero => h.start hzero hscan) hsettle, rfl, .inr ⟨rfl, b, hb, hread.symm⟩, by rintro - ⟨⟩⟩

/-- The filter and the delimiter go on together over a byte that is not ordinary text. -/
theorem Follows.place (hopens : d.scan = .ground → opens b = true) : ∃ d, Follows S reply cut Fed sent base bytes w' d := by
  cases hscan : d.scan with
  | ground => exact h.place_ground hE hchunk hb hok hscan (hopens hscan)
  | escape => exact h.place_escape hE hchunk hb hok hscan
  | csi => exact h.place_csi hE hchunk hb hok hscan
  | string => exact h.place_string hE hchunk hb hok hscan
  | stringEscape => exact h.place_stringEscape hE hchunk hb hok hscan

end

/-! ### Ordinary text -/

def Quiet (S : List UInt8) (reply : ℕ → Bool) : Prop :=
  ∀ i b, S[i]? = some b → (delimit (S.take i)).scan = .ground → opens b = false → reply i = false

section

variable (h : Follows S reply cut Fed sent base bytes w d) (hchunk : Chunk S cut base bytes) (hquiet : Quiet S reply)

include h hchunk hquiet

theorem Follows.text_byte (hb : bytes[w.index]? = some b) (hscan : d.scan = .ground) (hopens : opens b = false) :
    ∃ d', d'.scan = .ground ∧
      Follows S reply cut Fed sent base bytes { w with out := w.out.pass [b], index := w.index + 1 } d' := by
  obtain ⟨hd, hcurrent, hsince, hpending⟩ := h.at_ground hscan
  have hread : (delimit (S.take (base + w.index))).read b =
      { d with done := d.done ++ [⟨[b], d.count, d.count, false⟩], since := d.count + 1, count := d.count + 1 } := by
    have hne : ¬ b = ENQ ∧ ¬ b = ESC := by simpa [opens, not_or, and_comm] using hopens
    rw [← hd, Delimiter.read, hscan, Delimiter.readGround, if_neg hne.1, if_neg hne.2, hscan]
  obtain ⟨hindex, -⟩ := List.getElem?_eq_some_iff.mp hb
  have htext := h.text
  rw [hcurrent, ite_self] at htext
  have hnames := h.names hb
  rw [hpending, List.nil_append] at hnames
  have hcount := h.count
  have hunfed := h.unfed_le
  have hfed : base + w.unfed ≤ d.since := by omega
  have hsilent : reply d.count = false := by
    rw [hcount]
    exact hquiet _ _ (hchunk.getElem? hb) (hd ▸ hscan) hopens
  obtain ⟨hanswered, hnone⟩ := h.noted.quiet hfed
  have hsent : (⟨[b], d.count, d.count, false⟩ : Stretch).sent reply cut = [b] := by
    have hempty : (⟨[b], d.count, d.count, false⟩ : Stretch).answered reply = false := by simp [Stretch.answered]
    have hfits : ¬ scanLimit < (⟨[b], d.count, d.count, false⟩ : Stretch).held := Nat.not_lt.mpr (by decide : 1 ≤ scanLimit)
    rw [Stretch.sent, if_neg hfits, hempty, if_neg Bool.false_ne_true]
  refine ⟨{ d with
    done := d.done ++ [⟨[b], d.count, d.count, false⟩], since := d.count + 1, count := d.count + 1 }, hscan,
    ⟨⟨Nat.le_succ_of_le h.unfed_le, hindex, congrArg (· + 1) hcount, (Out.chunk_pass _ _).trans h.chunk, h.overrun,
      h.pending, ?_, fun hcopying => ?_, h.fed, ?_, le_rfl, fun hover => ?_⟩, h.scan, .inl ?_,
      fun hzero => absurd hzero (Nat.succ_ne_zero _)⟩⟩
  · rw [Out.finish_pass (h.chunk ▸ hnames), ← List.append_assoc, htext, List.append_nil, hcurrent, ite_self,
      List.append_nil, List.flatMap_append, List.flatMap_singleton, hsent]
  · rw [Out.copying_pass] at hcopying
    have hkept := (h.borrowed hcopying).1
    rw [hpending] at hkept ⊢
    rw [Out.kept_pass hcopying]
    exact ⟨congrArg (· + 1) hkept, At.nil (by rw [← hkept] at hindex; exact hindex)⟩
  · refine .inl ⟨Nat.le_succ_of_le (hsince ▸ hfed), hanswered, fun i hfrom hto => ?_⟩
    obtain hlt | rfl := Nat.lt_succ_iff_lt_or_eq.mp hto
    · exact hnone i hfrom (hsince ▸ hlt)
    · exact hsilent
  · rw [hcurrent] at hover
    cases hover
  · rw [hchunk.take_succ hb, delimit_concat, hread]

/-- The filter skips ordinary text as one run. -/
theorem Follows.run (hscan : d.scan = .ground) {k : ℕ} (hk : w.index + k ≤ bytes.length)
    (hplain : ∀ i < k, ∀ b, bytes[w.index + i]? = some b → opens b = false) :
    ∃ d', d'.scan = .ground ∧ Follows S reply cut Fed sent base bytes
      { w with out := w.out.run w.index (w.index + k), index := w.index + k } d' := by
  have hcopied : w.out.copying = false → w.out.kept = w.index := fun hcopying => by
    have hkept := (h.borrowed hcopying).1
    rwa [(h.at_ground hscan).2.2.2] at hkept
  rw [w.out.run_eq hcopied (Nat.le_add_right _ _) (h.chunk ▸ hk), h.chunk]
  induction k with
  | zero =>
    refine ⟨d, hscan, ?_⟩
    have hnil : slice bytes w.index (w.index + 0) = [] := by simp [slice]
    rw [hnil, Out.pass_nil]
    exact h
  | succ k ih =>
    obtain ⟨d', hscan', h'⟩ := ih (by omega) fun i hi => hplain i (by omega)
    obtain ⟨b, hb⟩ : ∃ b, bytes[w.index + k]? = some b := ⟨_, List.getElem?_eq_getElem (by omega)⟩
    obtain ⟨d'', hscan'', h''⟩ := h'.text_byte hchunk hquiet hb hscan' (hplain k (by omega) b hb)
    refine ⟨d'', hscan'', ?_⟩
    have hslice : slice bytes w.index (w.index + (k + 1)) = slice bytes w.index (w.index + k) ++ [b] := by
      unfold slice
      rw [← Nat.add_assoc, List.take_add_one, hb, Option.toList_some, List.drop_append_of_le_length]
      rw [List.length_take]
      omega
    rw [hslice, ← Out.pass_pass]
    exact h''

end

/-! ### Chunks -/

section

variable (h : Follows S reply cut Fed sent base bytes w d) (hE : Observed E S reply Fed)
  (hchunk : Chunk S cut base bytes) (hquiet : Quiet S reply)

include h hE hchunk hquiet

theorem Follows.turn (hindex : w.index < bytes.length)
    (hok : turn bytes E w = .ok w') : ∃ d, Follows S reply cut Fed sent base bytes w' d := by
  unfold QueryFilter.turn at hok
  split_ifs at hok with hground
  · have hscan : d.scan = .ground := h.scan ▸ hground
    split at hok
    · rename_i hnone
      obtain rfl := Except.ok.inj hok
      rw [findOpener_eq, List.findIdx?_eq_none_iff] at hnone
      obtain ⟨d', -, h'⟩ := h.run hchunk hquiet hscan (k := bytes.length - w.index) (by omega) fun i hi b hb => by
        refine hnone b (List.mem_of_getElem? (i := i) ?_)
        rw [List.getElem?_drop, hb]
      rw [Nat.add_sub_cancel' hindex.le] at h'
      exact ⟨d', h'⟩
    · rename_i opener hopener
      rw [findOpener_eq] at hopener
      obtain ⟨hlt, hopens, hplain⟩ := List.findIdx?_eq_some_iff_getElem.mp hopener
      rw [List.length_drop] at hlt
      rw [List.getElem_drop] at hopens
      obtain ⟨d', hscan', h'⟩ := h.run hchunk hquiet hscan (k := opener) (by omega) fun i hi b hb => by
        have := hplain i hi
        rw [List.getElem_drop] at this
        rw [List.getElem?_eq_getElem (by omega), Option.some.injEq] at hb
        rw [← hb]
        exact Bool.eq_false_iff.mpr this
      have hb : bytes[w.index + opener]? = some bytes[w.index + opener] := List.getElem?_eq_getElem _
      exact h'.place hE hchunk hb hok fun _ => hopens
  · refine h.place hE hchunk (List.getElem?_eq_getElem hindex) hok fun hscan => ?_
    exact absurd (h.scan.trans hscan) hground

theorem Follows.loop (hok : loop bytes E w = .ok w') :
    ∃ d, Follows S reply cut Fed sent base bytes w' d ∧ w'.index = bytes.length := by
  induction w using loop.induct bytes E generalizing d with
  | case1 w hindex e hturn =>
    rw [loop_eq, if_pos hindex, hturn] at hok
    cases hok
  | case2 w hindex w₁ hturn ih =>
    rw [loop_eq, if_pos hindex, hturn] at hok
    obtain ⟨d', h'⟩ := h.turn hE hchunk hquiet hindex hturn
    exact ih h' hok
  | case3 w hindex =>
    rw [loop_eq, if_neg hindex] at hok
    obtain rfl := Except.ok.inj hok
    exact ⟨d, h, Nat.le_antisymm h.index_le (Nat.not_lt.mp hindex)⟩

end

/-- The filter between two chunks, `base` bytes of the stream behind it. -/
structure Between (S : List UInt8) (reply cut : ℕ → Bool) (Fed : ℕ → σ → Prop) (f : QueryFilter) (s : σ)
    (sent : List UInt8) (base : ℕ) (d : Delimiter) : Prop where
  scan : f.scan = d.scan
  overrun : f.overrun = decide (scanLimit < d.current.length)
  pending : f.pending = if scanLimit < d.current.length then [] else d.current
  text : sent = d.done.flatMap (Stretch.sent reply cut) ++ if scanLimit < d.current.length then d.current else []
  fed : Fed base s
  noted : Noted reply f.answered d.since base
  reads : d = delimit (S.take base)

theorem between_new {s : σ} (hfed : Fed 0 s) : Between S reply cut Fed new s [] 0 .new :=
  ⟨rfl, rfl, rfl, rfl, hfed, Noted.here reply 0, rfl⟩

section

variable (h : Follows S reply cut Fed sent base bytes w d)

include h

theorem Follows.reads_all (hindex : w.index = bytes.length) :
    d = delimit (S.take (base + bytes.length)) := by
  rw [← hindex]
  refine h.reads.resolve_right ?_
  rintro ⟨-, b, hb, -⟩
  obtain ⟨hlt, -⟩ := List.getElem?_eq_some_iff.mp hb
  omega

theorem Follows.finish (hE : Observed E S reply Fed)
    (hchunk : Chunk S cut base bytes) (hindex : w.index = bytes.length) {answer : Answer} {s : σ}
    (hok : E.consume w.emulator (slice bytes w.unfed bytes.length) = .ok (answer, s)) :
    Between S reply cut Fed { w.filter with answered := w.filter.answered || answer = .replied } s (sent ++ w.out.finish)
      (base + bytes.length) d := by
  obtain ⟨hfed, hanswered⟩ := h.consume hE hchunk.eq hchunk.inside (hindex ▸ h.unfed_le) le_rfl hok
  have hcount := h.count
  have hsince := h.since_le
  refine ⟨h.scan, h.overrun, h.pending, h.text, hfed, .inr ⟨by omega, ?_⟩, h.reads_all hindex⟩
  rw [Bool.or_comm]
  exact hanswered

theorem Follows.finish_fed (hindex : w.index = bytes.length)
    (hunfed : ¬ w.unfed < bytes.length) :
    Between S reply cut Fed w.filter w.emulator (sent ++ w.out.finish) (base + bytes.length) d := by
  have hall : w.unfed = bytes.length := by have := h.unfed_le; omega
  have hfed := h.fed
  have hnoted := h.noted
  rw [hall] at hfed hnoted
  exact ⟨h.scan, h.overrun, h.pending, h.text, hfed, hnoted, h.reads_all hindex⟩

end

theorem Between.follows {s : σ} (h : Between S reply cut Fed f s sent base d) (hS : base ≤ S.length)
    {out : Out} (hout : out.chunk = bytes) (hempty : out.finish = [])
    (hmode : out.copying = false → d.scan = .ground ∧ out.kept = 0) :
    Follows S reply cut Fed sent base bytes ⟨f, out, s, 0, 0⟩ d := by
  have hsane := sane_delimit (S.take base)
  rw [← h.reads] at hsane
  refine ⟨⟨le_rfl, Nat.zero_le _, ?_, hout, h.overrun, h.pending, ?_, fun hcopying => ?_, h.fed, h.noted, hsane.since_le,
    fun _ hpos => absurd hpos (Nat.lt_irrefl 0)⟩, h.scan, .inl h.reads, fun _ hscan => ⟨?_, hempty⟩⟩
  · rw [hsane.count, List.length_take, Nat.min_eq_left hS]
    rfl
  · rw [hempty, List.append_nil]
    exact h.text
  · obtain ⟨hground, hkept⟩ := hmode hcopying
    have hpending := h.pending
    rw [(hsane.ground hground).1, ite_self] at hpending
    rw [hkept, hpending]
    exact ⟨rfl, At.nil (Nat.zero_le _)⟩
  · refine Bool.eq_true_of_not_eq_false fun hcopying => ?_
    rw [(hmode hcopying).1] at hscan
    cases hscan

theorem Follows.handOver (h : Follows S reply cut Fed sent base bytes w d) (hE : Observed E S reply Fed)
    (hchunk : Chunk S cut base bytes) (hindex : w.index = bytes.length) {out : List UInt8} {s : σ}
    (hok : QueryFilter.handOver bytes E w = .ok (f, out, s)) :
    Between S reply cut Fed f s (sent ++ out) (base + bytes.length) d := by
  unfold QueryFilter.handOver at hok
  split_ifs at hok with hunfed
  · obtain ⟨⟨answer, s'⟩, hconsume, heq⟩ := exists_of_map_ok hok
    obtain ⟨rfl, rfl, rfl⟩ := heq
    refine h.finish hE hchunk hindex ?_
    rw [slice, List.take_length]
    exact hconsume
  · rw [Except.ok.injEq, Prod.mk.injEq, Prod.mk.injEq] at hok
    obtain ⟨rfl, rfl, rfl⟩ := hok
    exact h.finish_fed hindex hunfed

theorem exists_of_bind_ok {α β : Type*} {f : α → Except ε β} {x : Except ε α} {y : β} (h : x.bind f = .ok y) :
    ∃ a, x = .ok a ∧ f a = .ok y := by
  cases x with
  | error e => cases h
  | ok a => exact ⟨a, rfl, h⟩

/-- What one call does. -/
theorem Between.filter {f f' : QueryFilter} {s s' : σ} {out buffer : List UInt8}
    (h : Between S reply cut Fed f s sent base d) (hE : Observed E S reply Fed) (hchunk : Chunk S cut base bytes)
    (hquiet : Quiet S reply) (hok : f.filter bytes buffer E s = .ok (f', out, s')) :
    ∃ d, Between S reply cut Fed f' s' (sent ++ out) (base + bytes.length) d := by
  have hS : base ≤ S.length := by have := hchunk.inside; omega
  unfold QueryFilter.filter at hok
  split_ifs at hok with hground
  · have hscan : d.scan = .ground := h.scan ▸ hground
    have hfollows : Follows S reply cut Fed sent base bytes ⟨f, .borrowed bytes buffer 0, s, 0, 0⟩ d :=
      h.follows hS rfl (by simp [Out.finish, Out.borrowed]) fun _ => ⟨hscan, rfl⟩
    split at hok
    · rename_i hnone
      rw [findOpener_eq, List.findIdx?_eq_none_iff] at hnone
      obtain ⟨⟨answer, s₁⟩, hconsume, heq⟩ := exists_of_map_ok hok
      obtain ⟨rfl, rfl, rfl⟩ := heq
      obtain ⟨d', hscan', h'⟩ := hfollows.run hchunk hquiet hscan (k := bytes.length) (by simp) fun i _ b hb =>
        hnone b (List.mem_of_getElem? hb)
      rw [Nat.zero_add] at h'
      have hbetween := h'.finish hE hchunk rfl (by rw [slice, List.take_length]; exact hconsume)
      -- Nothing was noted of ordinary text, so there is nothing to carry.
      obtain ⟨-, -, hsince, -⟩ := h'.at_ground hscan'
      obtain ⟨hanswered, -⟩ := hbetween.noted.quiet (by rw [hsince, h'.count])
      have hnoted := hbetween.noted
      have htext := hbetween.text
      rw [hanswered, ← (Bool.or_eq_false_iff.mp hanswered).1] at hnoted
      simp only [Out.finish, Out.run, Out.borrowed, if_neg Bool.false_ne_true, List.take_length] at htext
      exact ⟨d', hbetween.scan, hbetween.overrun, hbetween.pending, htext, hbetween.fed, hnoted, hbetween.reads⟩
    · rename_i opener hopener
      rw [findOpener_eq] at hopener
      obtain ⟨hlt, -, hplain⟩ := List.findIdx?_eq_some_iff_getElem.mp hopener
      obtain ⟨w, hloop, hfinish⟩ := exists_of_bind_ok hok
      obtain ⟨d', -, h'⟩ := hfollows.run hchunk hquiet hscan (k := opener) (by dsimp only; omega) fun i hi b hb => by
        rw [Nat.zero_add, List.getElem?_eq_getElem (by omega), Option.some.injEq] at hb
        exact hb ▸ Bool.eq_false_iff.mpr (hplain i hi)
      rw [Nat.zero_add] at h'
      obtain ⟨d'', h'', hindex⟩ := h'.loop hE hchunk hquiet hloop
      exact ⟨d'', h''.handOver hE hchunk hindex hfinish⟩
  · obtain ⟨w, hloop, hfinish⟩ := exists_of_bind_ok hok
    have hfollows : Follows S reply cut Fed sent base bytes ⟨f, .copied bytes, s, 0, 0⟩ d :=
      h.follows hS rfl rfl (by rintro ⟨⟩)
    obtain ⟨d', h', hindex⟩ := hfollows.loop hE hchunk hquiet hloop
    exact ⟨d', h'.handOver hE hchunk hindex hfinish⟩

/-- Where the chunks of a stream start, the first at `base`. -/
def chunkStarts (base : ℕ) : List (List UInt8) → List ℕ
  | [] => []
  | bytes :: rest => base :: chunkStarts (base + bytes.length) rest

theorem le_of_mem_chunkStarts {chunks : List (List UInt8)} {n : ℕ} (h : n ∈ chunkStarts base chunks) : base ≤ n := by
  induction chunks generalizing base with
  | nil => cases h
  | cons bytes rest ih =>
    obtain rfl | h := List.mem_cons.mp h
    · exact le_rfl
    · exact (Nat.le_add_right _ _).trans (ih h)

theorem Between.filterAll {chunks : List (List UInt8 × List UInt8)} {f f' : QueryFilter} {s s' : σ} {outs : List UInt8}
    (h : Between S reply cut Fed f s sent base d) (hE : Observed E S reply Fed) (hquiet : Quiet S reply)
    (hS : base ≤ S.length) (hrest : S.drop base = (chunks.map Prod.fst).flatten)
    (hcut : ∀ n, base < n → (cut n = true ↔ n ∈ chunkStarts base (chunks.map Prod.fst)))
    (hbase : chunks ≠ [] → cut base = true) (hok : filterAll E f s chunks = .ok (f', outs, s')) :
    ∃ d, Between S reply cut Fed f' s' (sent ++ outs) S.length d := by
  induction chunks generalizing f s sent base d outs with
  | nil =>
    obtain ⟨rfl, rfl, rfl⟩ := hok
    obtain rfl : base = S.length := Nat.le_antisymm hS (List.drop_eq_nil_iff.mp hrest)
    exact ⟨d, by rw [List.append_nil]; exact h⟩
  | cons chunk rest ih =>
    obtain ⟨bytes, buffer⟩ := chunk
    obtain ⟨⟨f₁, out, s₁⟩, hfilter, hok⟩ := exists_of_bind_ok hok
    obtain ⟨⟨f₂, outs', s₂⟩, hall, heq⟩ := exists_of_map_ok hok
    obtain ⟨rfl, rfl, rfl⟩ := heq
    simp only [List.map_cons, List.flatten_cons] at hrest
    simp only [List.map_cons, chunkStarts, List.mem_cons] at hcut
    have hlen := congrArg List.length hrest
    rw [List.length_drop, List.length_append] at hlen
    have hchunk : Chunk S cut base bytes := by
      refine ⟨by omega, ?_, fun i hi => ?_⟩
      · rw [slice, List.drop_take, Nat.add_sub_cancel_left, hrest, List.take_left]
      · obtain rfl | hpos := Nat.eq_zero_or_pos i
        · exact hbase nofun
        · rw [decide_eq_false (by omega), Bool.eq_false_iff, Ne, hcut _ (by omega), not_or]
          exact ⟨by omega, fun hmem => by have := le_of_mem_chunkStarts hmem; omega⟩
    obtain ⟨d', h'⟩ := h.filter hE hchunk hquiet hfilter
    rw [← List.append_assoc]
    refine ih h' (by omega) ?_ (fun n hn => ?_) (fun hne => ?_) hall
    · rw [← List.drop_drop, hrest, List.drop_left]
    · rw [hcut n (by omega), or_iff_right (by omega)]
    · obtain hzero | hpos := Nat.eq_zero_or_pos bytes.length
      · rw [hzero]
        exact hbase nofun
      · rw [hcut _ (by omega)]
        cases rest with
        | nil => exact absurd rfl hne
        | cons chunk rest => exact .inr List.mem_cons_self

theorem filterAll_spec {chunks : List (List UInt8 × List UInt8)} {s s' : σ} {out : List UInt8}
    (hS : S = (chunks.map Prod.fst).flatten) (hE : Observed E S reply Fed) (hquiet : Quiet S reply) (hfed : Fed 0 s)
    (hok : filterAll E new s chunks = .ok (f, out, s')) :
    out ++ f.pending = (delimit S).done.flatMap (Stretch.sent reply (· ∈ chunkStarts 0 (chunks.map Prod.fst))) ++
        (delimit S).current ∧ f.pending.length ≤ scanLimit ∧ Fed S.length s' := by
  have hbase : chunks ≠ [] → decide (0 ∈ chunkStarts 0 (chunks.map Prod.fst)) = true := fun hne => by
    cases chunks with
    | nil => exact absurd rfl hne
    | cons chunk rest => exact decide_eq_true List.mem_cons_self
  obtain ⟨d, h⟩ := (between_new hfed).filterAll hE hquiet (Nat.zero_le _) hS (fun n _ => decide_eq_true_iff) hbase hok
  have hd := h.reads
  subst hd
  have htext := h.text
  rw [List.nil_append] at htext
  refine ⟨?_, ?_, h.fed⟩
  · rw [htext, h.pending]
    split_ifs <;> simp
  · rw [h.pending]
    split_ifs with hover
    · exact Nat.zero_le _
    · exact Nat.not_lt.mp hover

end

end QueryFilter

end Braid.Daemon
