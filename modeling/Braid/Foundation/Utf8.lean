import Braid.Foundation.Text

/-! Text as bytes. The encoding is the one of Lean's own strings and so is the
validating decoder; what is added here is the view of both on lists, on which
they are inverse to each other and a text of ASCII is its bytes. -/

namespace Braid.Foundation

def Text.utf8 (t : Text) : List UInt8 := t.flatMap String.utf8EncodeChar

/-- The text the bytes encode, when they encode one. -/
def fromUtf8 (bytes : List UInt8) : Option Text := bytes.toByteArray.utf8Decode?.map Array.toList

namespace Text

@[simp] theorem utf8_cons (c : Char) (t : Text) : utf8 (c :: t) = String.utf8EncodeChar c ++ utf8 t := rfl

end Text

theorem fromUtf8_utf8 (t : Text) : fromUtf8 t.utf8 = some t := by
  have h : t.utf8.toByteArray = t.utf8Encode := rfl
  rw [fromUtf8, h, List.utf8Decode?_utf8Encode]
  rfl

theorem utf8_of_fromUtf8 {bytes : List UInt8} {t : Text} (h : fromUtf8 bytes = some t) : t.utf8 = bytes := by
  obtain ⟨chars, hdecode, rfl⟩ := Option.map_eq_some_iff.mp h
  have hsome : bytes.toByteArray.utf8Decode?.isSome := by rw [hdecode]; rfl
  have hencode := ByteArray.utf8Encode_get_utf8Decode? (h := hsome)
  rw [Option.get_of_eq_some hsome hdecode] at hencode
  exact List.toByteArray_inj.mp hencode

theorem fromUtf8_eq_some {bytes : List UInt8} {t : Text} : fromUtf8 bytes = some t ↔ bytes = t.utf8 :=
  ⟨fun h => (utf8_of_fromUtf8 h).symm, fun h => h ▸ fromUtf8_utf8 t⟩

theorem utf8EncodeChar_ofUInt8 {byte : UInt8} (h : byte < 128) :
    String.utf8EncodeChar (Char.ofUInt8 byte) = [byte] := by
  have hsize : (Char.ofUInt8 byte).utf8Size = 1 := by
    rw [Char.utf8Size_eq_one_iff]
    have := UInt8.lt_iff_toNat_lt.mp h
    change byte.toUInt32.toNat ≤ 127
    exact Nat.le_of_lt_succ this
  rw [String.utf8EncodeChar_eq_singleton hsize]
  exact congrArg (fun b => [b]) (UInt8.toUInt8_toUInt32 byte)

theorem fromUtf8_ascii {bytes : List UInt8} (h : ∀ byte ∈ bytes, byte < 128) :
    fromUtf8 bytes = some (bytes.map Char.ofUInt8) := by
  rw [fromUtf8_eq_some]
  induction bytes with
  | nil => rfl
  | cons byte bytes ih =>
    rw [List.forall_mem_cons] at h
    rw [List.map_cons, Text.utf8_cons, utf8EncodeChar_ofUInt8 h.1, ← ih h.2]
    rfl

end Braid.Foundation
