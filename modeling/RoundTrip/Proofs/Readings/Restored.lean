import RoundTrip.Proofs.Cbor.Readings
import RoundTrip.Proofs.Json.Readings
import RoundTrip.Proofs.Msgpack.Readings

/-!
# Readings in three formats

Every reading is written in every format. Whether it is read back is up to the reader of the format:
the one of CBOR has a limit to the items of a list, lengths in MessagePack have 32 bits, and strings
of JSON are characters.

Main statement: `Reading.restored_iff`.
-/

set_option autoImplicit false

namespace RoundTrip

/-- What is written for the value is read as that value. -/
def Codec.Restores {α : Type} (c : Codec α) (v : α) : Prop := c.decode (c.encode v).bytes = .ok v

/-- **Readings are written in all three formats, and read back up to the limits of their readers.**
A reading of UTF-8 comes back from CBOR when it has no more tags than a list may have items, and from
JSON always. In MessagePack its texts may be any bytes, and only its lengths have to fit. -/
theorem Reading.restored_iff (r : Reading) (hvalue : FitsWord r.value) :
    ((Cbor.readingCodec.encode r).failure = none ∧ (Msgpack.readingCodec.encode r).failure = none
      ∧ (Json.readingCodec.encode r).failure = none)
    ∧ (r.IsUtf8 → (Cbor.readingCodec.encode r).bytes.length < wordHalf →
      (Cbor.readingCodec.Restores r ↔ r.tagCount ≤ Cbor.maxCount))
    ∧ (Msgpack.readingCodec.Restores r ↔
      (∀ t ∈ r.texts, t.length < 2 ^ 32) ∧ r.tagCount < 2 ^ 32)
    ∧ (Json.readingCodec.Restores r ↔ r.IsUtf8) := by
  refine ⟨⟨?_, rfl, rfl⟩, ?_, ?_, ?_⟩
  · rw [Cbor.readingCodec_encode_eq]
    rfl
  · exact Cbor.readingCodec_restores_iff hvalue
  · refine (Msgpack.readingCodec_restores_iff hvalue).trans ?_
    exact ⟨fun h => ⟨h.texts, h.count⟩, fun h => ⟨h.1, h.2⟩⟩
  · exact Json.readingCodec_restores_iff hvalue

/-- The least value, a text that has to be escaped, and tags that are there but empty. -/
def Reading.least : Reading := ⟨[0x22, 0xc3, 0xa9], -0x8000000000000000, some []⟩

theorem Reading.least_restored :
    Cbor.readingCodec.Restores least ∧ Msgpack.readingCodec.Restores least
      ∧ Json.readingCodec.Restores least := by
  obtain ⟨-, hcbor, hmsgpack, hjson⟩ := restored_iff least (by decide)
  have hlength : (Cbor.readingCodec.encode least).bytes.length < wordHalf := by
    rw [Cbor.readingCodec_encode_eq, Emission.bytes_once]
    decide
  exact ⟨(hcbor (by decide) hlength).2 (by decide), hmsgpack.2 ⟨by decide, by decide⟩,
    hjson.2 (by decide)⟩

/-- A reading with one tag more than a list may have items. -/
def Reading.crowded : Reading := ⟨[], 0, some (List.replicate 131073 [])⟩

/-- A reading with a name whose length takes 33 bits. -/
def Reading.lengthy : Reading := ⟨List.replicate (2 ^ 32) 0x61, 0, none⟩

/-- Both are written, but they are not read back. -/
theorem Reading.lost_beyond_limits :
    (crowded.IsUtf8 ∧ (Cbor.readingCodec.encode crowded).failure = none
      ∧ Cbor.readingCodec.decode (Cbor.readingCodec.encode crowded).bytes
        = .error (.plain "cbor: exceeded max number of elements 131072 for CBOR array"))
    ∧ (Msgpack.readingCodec.encode lengthy).failure = none
      ∧ ¬ Msgpack.readingCodec.Restores lengthy := by
  have hcount : crowded.tagCount = 131073 := List.length_replicate
  refine ⟨⟨?_, ?_, ?_⟩, rfl, ?_⟩
  · intro t ht
    rcases List.mem_cons.1 ht with rfl | ht
    · rfl
    · rw [List.eq_of_mem_replicate ht]
      rfl
  · rw [Cbor.readingCodec_encode_eq]
    rfl
  · have hread : Cbor.Item.read (Cbor.readingBytes crowded) = .error .arrayCount :=
      Cbor.read_readingBytes_of_lt (by rw [hcount]; decide) (by rw [hcount]; decide)
    rw [Cbor.readingCodec_encode_eq, Emission.bytes_once, Cbor.readingCodec_decode_of_error hread]
    cbv
  · intro h
    have hfits := (Msgpack.readingCodec_restores_iff (by decide)).1 h
    have hlength := hfits.texts _ List.mem_cons_self
    rw [lengthy, List.length_replicate] at hlength
    exact absurd hlength (by decide)

end RoundTrip
