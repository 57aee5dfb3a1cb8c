import Braid.Foundation.Bytes
import Braid.Proto.Wire
import Mathlib.Data.List.Basic

/-! What was packed behind a prefix is unpacked as it was, within any limit that admits it,
whatever the buffers held before; and no bytes at all are unpacked to more than the limit. -/

namespace Braid.Proto.Wire

variable {z : Codec} {pending : z.State → List UInt8 → List UInt8 → List UInt8 → Prop} {payload out bytes : List UInt8}
  {at_ n len : ℕ}

/-! ### The buffer -/

theorem length_roomFor (out : List UInt8) (len : ℕ) : (roomFor out len).length = max out.length len := by
  unfold roomFor
  split_ifs with h
  · rw [List.length_append, List.length_replicate]
    omega
  · omega

theorem take_roomFor (h : n ≤ out.length) : (roomFor out len).take n = out.take n := by
  unfold roomFor
  split_ifs
  · exact List.take_append_of_le_length h
  · rfl

theorem take_overwrite (bytes : List UInt8) (h : at_ ≤ out.length) :
    (overwrite out at_ bytes).take (at_ + bytes.length) = out.take at_ ++ bytes := by
  have hlen : (out.take at_ ++ bytes).length = at_ + bytes.length := by
    rw [List.length_append, List.length_take_of_le h]
  rw [overwrite, ← hlen, List.take_left]

theorem take_overwrite_of_le (bytes : List UInt8) (h : at_ ≤ out.length) : (overwrite out at_ bytes).take at_ = out.take at_ := by
  rw [overwrite, List.append_assoc, List.take_append_of_le_length (List.length_take_of_le h).ge, List.take_take, min_self]

theorem length_overwrite (h : at_ + bytes.length ≤ out.length) : (overwrite out at_ bytes).length = out.length := by
  rw [overwrite, List.length_append, List.length_append, List.length_take_of_le (by omega), List.length_drop]
  omega

/-! ### Packing -/

/-- The prefix stays whether or not the codec wins; where it does, its bytes are behind the tag. -/
theorem deflateInto_eq (hz : z.Lawful pending) (hpos : 0 < payload.length) (h : at_ ≤ out.length) :
    (deflateInto z payload out at_).1.take at_ = out.take at_ ∧
    ((deflateInto z payload out at_).2 = true → ∃ body, (deflateInto z payload out at_).1 = out.take at_ ++ tagDeflate :: body ∧
      body.length + 1 ≤ payload.length ∧ z.compress payload (payload.length - 1) = (.done, payload.length, body)) := by
  have hgrown : at_ + payload.length ≤ (roomFor out (at_ + payload.length)).length := by
    rw [length_roomFor]
    exact le_max_right _ _
  have htagged : (overwrite (roomFor out (at_ + payload.length)) at_ [tagDeflate]).take (at_ + 1) =
      out.take at_ ++ [tagDeflate] := by
    rw [← take_roomFor h]
    exact take_overwrite [tagDeflate] (Nat.le_of_add_right_le hgrown)
  have hlen : (overwrite (roomFor out (at_ + payload.length)) at_ [tagDeflate]).length =
      (roomFor out (at_ + payload.length)).length :=
    length_overwrite (by rw [List.length_singleton]; omega)
  have hfits := hz.compress_fits payload (payload.length - 1)
  unfold deflateInto
  generalize z.compress payload (payload.length - 1) = result at hfits ⊢
  obtain ⟨status, read, written⟩ := result
  dsimp only at hfits ⊢
  generalize overwrite (roomFor out (at_ + payload.length)) at_ [tagDeflate] = tagged at htagged hlen ⊢
  have hroom : at_ + 1 ≤ tagged.length := by omega
  have hwritten := take_overwrite written hroom
  have hfront : (overwrite tagged (at_ + 1) written).take at_ = out.take at_ := by
    have htake := congrArg (List.take at_) (take_overwrite_of_le written hroom)
    rw [List.take_take, min_eq_left (Nat.le_succ _), htagged] at htake
    rw [htake, List.take_append_of_le_length (List.length_take_of_le h).ge, List.take_take, min_self]
  split_ifs with hdone
  · refine ⟨?_, fun _ => ⟨written, ?_, by omega, ?_⟩⟩
    · rw [List.take_take, min_eq_left (by omega), hfront]
    · rw [hwritten, htagged, List.append_assoc, List.singleton_append]
    · rw [hdone.1, hdone.2]
  · exact ⟨hfront, nofun⟩

theorem packFrom_eq (hz : z.Lawful pending) (payload : List UInt8) (h : at_ ≤ out.length) : ∃ packed,
    packFrom z payload out at_ = out.take at_ ++ packed ∧ packed.length ≤ payload.length + 1 ∧
    (packed = tagStored :: payload ∨
      ∃ body room, packed = tagDeflate :: body ∧ z.compress payload room = (.done, payload.length, body)) := by
  have hstored : ∀ out', out'.take at_ = out.take at_ → storeFrom payload out' at_ = out.take at_ ++ tagStored :: payload :=
    fun out' hsame => by rw [storeFrom, hsame, List.append_assoc, List.singleton_append]
  unfold packFrom
  split_ifs with hfloor
  · obtain ⟨hfront, hwon⟩ := deflateInto_eq (z := z) hz (Nat.lt_of_lt_of_le (by decide) hfloor) h
    generalize deflateInto z payload out at_ = result at hfront hwon
    obtain ⟨out', won⟩ := result
    cases won with
    | true =>
      obtain ⟨body, heq, hlen, hcompress⟩ := hwon rfl
      exact ⟨_, heq, by rw [List.length_cons]; omega, .inr ⟨body, _, rfl, hcompress⟩⟩
    | false => exact ⟨_, hstored out' hfront, Nat.le_refl _, .inl rfl⟩
  · exact ⟨_, hstored out rfl, Nat.le_refl _, .inl rfl⟩

/-! ### Unpacking -/

variable {limit : UInt64}

theorem inflateLoop_bounded (hz : z.Lawful pending) (state : z.State) (input out : List UInt8) (filled room : ℕ)
    (hroom : room < limit.toNat → 0 < room) (hfilled : filled ≤ room) (hout : room ≤ out.length)
    (hlimit : room ≤ limit.toNat) (hok : (inflateLoop z limit state input out filled room hroom).2 = .ok n) :
    n ≤ limit.toNat := by
  induction hmeasure : limit.toNat - room using Nat.strong_induction_on generalizing state input out filled room with
  | _ measure ih =>
    have hfits := hz.decompress_fits state input (out.take filled) room
    rw [List.length_take_of_le (by omega)] at hfits
    have hfits := hfits hfilled
    rw [inflateLoop] at hok
    generalize z.decompress state input (out.take filled) room = result at hfits hok
    obtain ⟨state', status, read, written⟩ := result
    dsimp only at hfits hok
    cases status with
    | done =>
      dsimp only at hok
      split_ifs at hok
      obtain rfl := Except.ok.inj hok
      omega
    | hasMoreOutput =>
      dsimp only at hok
      split_ifs at hok with hmore
      have hlt := lt_grown hmore.2 (hroom hmore.2)
      refine ih _ ?_ state' _ _ _ (grown limit room) _ (hfits.trans hlt.le) ?_ (min_le_right _ _) hok rfl
      · omega
      · rw [length_roomFor]
        exact le_max_right _ _
    | _ => cases hok

/-- A stream that stands for `rest` is inflated to it if there is room for it within the limit. -/
theorem inflateLoop_pending (hz : z.Lawful pending) (state : z.State) (input out rest : List UInt8) (filled room : ℕ)
    (hroom : room < limit.toNat → 0 < room) (hfilled : filled ≤ room) (hout : room ≤ out.length)
    (hlimit : room ≤ limit.toNat) (hpending : pending state input (out.take filled) rest) :
    if filled + rest.length ≤ limit.toNat then ∃ out', inflateLoop z limit state input out filled room hroom =
        (out', .ok (filled + rest.length)) ∧ out'.take (filled + rest.length) = out.take filled ++ rest
    else (inflateLoop z limit state input out filled room hroom).2 = .error .invalidField := by
  induction hmeasure : limit.toNat - room using Nat.strong_induction_on generalizing state input out filled room rest with
  | _ measure ih =>
    have hlen : (out.take filled).length = filled := List.length_take_of_le (by omega)
    by_cases hall : filled + rest.length ≤ room
    · obtain ⟨state', hlast⟩ := hz.last state input (out.take filled) rest room hpending (by rw [hlen]; exact hall)
      rw [if_pos (hall.trans hlimit), inflateLoop, hlast]
      dsimp only
      rw [if_pos rfl]
      exact ⟨_, rfl, take_overwrite rest (by omega)⟩
    · obtain ⟨state', read, written, rest', hmore, hread, rfl, hpending'⟩ :=
        hz.more state input (out.take filled) rest room hpending (by rw [hlen]; exact hfilled) (by rw [hlen]; omega)
      have hfits := hz.decompress_fits state input (out.take filled) room (by rw [hlen]; exact hfilled)
      rw [hmore, hlen] at hfits
      rw [inflateLoop, hmore]
      dsimp only at hfits ⊢
      by_cases hlt : room < limit.toNat
      · have hgrown := lt_grown hlt (hroom hlt)
        have hbefore : (roomFor (overwrite out filled written) (grown limit room)).take (filled + written.length) =
            out.take filled ++ written := by
          rw [take_roomFor (by rw [length_overwrite (by omega)]; omega), take_overwrite written (by omega)]
        have hrest := ih (limit.toNat - grown limit room) (by omega) state' (input.drop read)
          (roomFor (overwrite out filled written) (grown limit room)) rest' (filled + written.length) (grown limit room)
          (fun _ => (hroom hlt).trans hgrown) (hfits.trans hgrown.le) (by rw [length_roomFor]; exact le_max_right _ _)
          (min_le_right _ _) (by rw [hbefore]; exact hpending') rfl
        rw [hbefore, List.append_assoc, Nat.add_assoc, ← List.length_append] at hrest
        rw [dif_pos ⟨hread, hlt⟩]
        exact hrest
      · rw [dif_neg fun h => hlt h.2, if_neg (by omega)]

theorem firstRoom_le (limit : UInt64) (len : ℕ) : firstRoom limit len ≤ limit.toNat := min_le_right _ _

theorem unpack_bounded (hz : z.Lawful pending) {datagram : List UInt8} (hok : (unpack z datagram limit out).2 = .ok bytes) :
    bytes.length ≤ limit.toNat := by
  unfold unpack at hok
  split at hok
  · cases hok
  rename_i tag body
  split_ifs at hok with hstored hlong hdeflated
  · obtain rfl := Except.ok.inj hok
    exact not_lt.mp hlong
  · have hbound : ∀ n, (inflateInto z body limit out).2 = .ok n → n ≤ limit.toNat := fun n hn => by
      unfold inflateInto at hn
      refine inflateLoop_bounded hz z.init body (roomFor out (firstRoom limit body.length)) 0 (firstRoom limit body.length)
        firstRoom_pos (Nat.zero_le _) (by rw [length_roomFor]; exact le_max_right _ _) (firstRoom_le _ _) ?_
      dsimp only at hn
      split at hn
      · rename_i out' filled hloop
        rw [hloop]
        exact hn
      · cases hn
    generalize inflateInto z body limit out = result at hok hbound
    obtain ⟨out', filled | filled⟩ := result
    · cases hok
    · obtain rfl := Except.ok.inj hok
      exact (List.length_take_le _ _).trans (hbound filled rfl)

theorem unpack_deflated (hz : z.Lawful pending) {body : List UInt8} {room : ℕ}
    (hcompress : z.compress payload room = (.done, payload.length, body)) :
    (unpack z (tagDeflate :: body) limit out).2 =
      if payload.length ≤ limit.toNat then .ok payload else .error .invalidField := by
  have hloop := inflateLoop_pending hz z.init body (roomFor out (firstRoom limit body.length)) payload 0
    (firstRoom limit body.length) firstRoom_pos (Nat.zero_le _) (by rw [length_roomFor]; exact le_max_right _ _)
    (firstRoom_le _ _) (hz.start _ _ _ hcompress)
  rw [Nat.zero_add, List.take_zero, List.nil_append] at hloop
  have htag : ¬ tagDeflate = tagStored := by decide
  unfold unpack inflateInto
  dsimp only
  rw [if_neg htag, if_pos rfl]
  split_ifs at hloop ⊢ with hlimit
  · obtain ⟨out', heq, htake⟩ := hloop
    rw [heq]
    dsimp only
    split_ifs with hretain
    · rw [List.take_take, min_eq_left hretain.1, htake]
    · rw [htake]
  · generalize inflateLoop z limit z.init body _ 0 _ _ = result at hloop
    obtain ⟨out', filled | filled⟩ := result
    · obtain rfl := Except.error.inj hloop
      rfl
    · cases hloop

theorem unpack_stored (payload out : List UInt8) : (unpack z (tagStored :: payload) limit out).2 =
    if payload.length ≤ limit.toNat then .ok payload else .error .invalidField := by
  unfold unpack
  dsimp only
  rw [if_pos rfl]
  split_ifs <;> first | rfl | omega

/-- Packing at an offset within the buffer leaves what is before the offset, and writes at most
one byte more than the payload has. What was written is unpacked, with any buffer, as the
payload if the limit admits it and refused otherwise. Whatever is unpacked ends within the
limit or is refused. -/
theorem packing_lossless (hz : z.Lawful pending) (payload out : List UInt8) (at_ : ℕ) (limit : UInt64)
    (hat : at_ ≤ out.length) :
    (packFrom z payload out at_).take at_ = out.take at_ ∧
    (packFrom z payload out at_).length ≤ at_ + (payload.length + 1) ∧
    (∀ scratch, (unpack z ((packFrom z payload out at_).drop at_) limit scratch).2 =
      if payload.length ≤ limit.toNat then .ok payload else .error .invalidField) ∧
    ∀ datagram scratch bytes, (unpack z datagram limit scratch).2 = .ok bytes → bytes.length ≤ limit.toNat := by
  obtain ⟨packed, heq, hlen, hpacked⟩ := packFrom_eq hz payload hat
  have hfront : (out.take at_).length = at_ := List.length_take_of_le hat
  rw [heq]
  refine ⟨?_, ?_, fun scratch => ?_, fun datagram scratch bytes hok => unpack_bounded hz hok⟩
  · rw [List.take_append_of_le_length hfront.ge, List.take_take, min_self]
  · rw [List.length_append, hfront]
    exact Nat.add_le_add_left hlen _
  · rw [List.drop_left' hfront]
    obtain rfl | ⟨body, room, rfl, hcompress⟩ := hpacked
    · exact unpack_stored payload scratch
    · exact unpack_deflated hz hcompress

/-- A codec of runs of one byte, each written as the byte and how often it comes. -/
def runs : Codec where
  State := Option (UInt8 × ℕ)
  init := none
  compress payload room :=
    let body := payload.headD 0 :: Foundation.beBytes 4 payload.length
    if payload = List.replicate payload.length (payload.headD 0) ∧ payload.length < 2 ^ 32 ∧ 5 ≤ room then
      (.done, payload.length, body)
    else (.okay, 0, [])
  decompress state input filled room :=
    match state with
    | some (byte, count) => pour byte count 0 filled.length room
    | none => pour (input.headD 0) (Foundation.ofBeBytes (input.drop 1)) input.length filled.length room
where
  pour (byte : UInt8) (count read filled room : ℕ) : Option (UInt8 × ℕ) × InflateStatus × ℕ × List UInt8 :=
    if filled + count ≤ room then (some (byte, 0), .done, read, List.replicate count byte)
    else (some (byte, count - (room - filled)), .hasMoreOutput, read, List.replicate (room - filled) byte)

/-- The run is still to be read, or so much of it is still to be poured. -/
def runs.Due (state : Option (UInt8 × ℕ)) (input _filled rest : List UInt8) : Prop :=
  ∃ byte, rest = List.replicate rest.length byte ∧ match state with
    | none => input = byte :: Foundation.beBytes 4 rest.length ∧ rest.length < 2 ^ 32
    | some run => run = (byte, rest.length) ∧ input = []

theorem runs.decompress_eq {state : Option (UInt8 × ℕ)} {input filled rest : List UInt8} (room : ℕ)
    (h : runs.Due state input filled rest) : ∃ byte, rest = List.replicate rest.length byte ∧
      runs.decompress state input filled room = runs.pour byte rest.length input.length filled.length room := by
  obtain ⟨byte, hrest, hstate⟩ := h
  refine ⟨byte, hrest, ?_⟩
  cases state with
  | none =>
    obtain ⟨rfl, hlen⟩ := hstate
    change runs.pour byte (Foundation.ofBeBytes (Foundation.beBytes 4 rest.length)) _ _ _ = _
    rw [Foundation.ofBeBytes_beBytes hlen]
  | some run =>
    obtain ⟨rfl, rfl⟩ := hstate
    rfl

theorem runs.lawful : runs.Lawful runs.Due where
  compress_fits payload room := by
    dsimp only [runs]
    split_ifs with h
    · exact h.2.2
    · exact Nat.zero_le _
  decompress_fits state input filled room h := by
    have hpour : ∀ byte count read, filled.length + (runs.pour byte count read filled.length room).2.2.2.length ≤ room := by
      intro byte count read
      unfold pour
      split_ifs with hfits
      · simpa using hfits
      · simp; omega
    dsimp only [runs]
    split <;> exact hpour _ _ _
  start payload room body h := by
    dsimp only [runs] at h
    split_ifs at h with hrun
    · obtain ⟨-, -, rfl⟩ := h
      exact ⟨_, hrun.1, rfl, hrun.2.1⟩
    · cases h
  last state input filled rest room h hroom := by
    obtain ⟨byte, hrest, heq⟩ := runs.decompress_eq room h
    rw [heq, pour, if_pos hroom, ← hrest]
    exact ⟨_, rfl⟩
  more state input filled rest room h hfilled hroom := by
    obtain ⟨byte, hrest, heq⟩ := runs.decompress_eq room h
    rw [heq, pour, if_neg (not_le.mpr hroom)]
    refine ⟨_, _, _, List.replicate (rest.length - (room - filled.length)) byte, rfl, Nat.le_refl _, ?_, byte, ?_, ?_, ?_⟩
    · rw [← List.replicate_add, Nat.add_sub_cancel' (by omega)]
      exact hrest
    · rw [List.length_replicate]
    · rw [List.length_replicate]
    · exact List.drop_length

/-- A run of three hundred bytes, packed behind two bytes of a buffer of three. -/
theorem packing_lossless_run : packFrom runs (List.replicate 300 7) [1, 2, 3] 2 = [1, 2, 1, 7, 0, 0, 1, 44] ∧
    (packFrom runs (List.replicate 300 7) [1, 2, 3] 2).take 2 = [1, 2] ∧
    (∀ scratch, (unpack runs ((packFrom runs (List.replicate 300 7) [1, 2, 3] 2).drop 2) 300 scratch).2 =
      .ok (List.replicate 300 7)) ∧
    ∀ scratch, (unpack runs ((packFrom runs (List.replicate 300 7) [1, 2, 3] 2).drop 2) 299 scratch).2 =
      .error .invalidField := by
  obtain ⟨hfront, -, hwithin, -⟩ :=
    packing_lossless runs.lawful (List.replicate 300 7) [1, 2, 3] 2 300 (by decide)
  obtain ⟨-, -, hbeyond, -⟩ := packing_lossless runs.lawful (List.replicate 300 7) [1, 2, 3] 2 299 (by decide)
  refine ⟨by decide +kernel, hfront, fun scratch => ?_, fun scratch => ?_⟩
  · rw [hwithin scratch, if_pos (by rw [List.length_replicate]; decide)]
  · rw [hbeyond scratch, if_neg (by rw [List.length_replicate]; decide)]

/-- At an offset past the end of the buffer a short payload is stored where the buffer ends,
before the offset, and what is behind the offset is not what was packed. -/
theorem packing_past_the_buffer : packFrom runs [7] [] 1 = [0, 7] ∧
    (packFrom runs [7] [] 1).take 1 ≠ ([] : List UInt8).take 1 ∧
    (unpack runs ((packFrom runs [7] [] 1).drop 1) 1 []).2 = .error .invalidField := by
  decide

end Braid.Proto.Wire
