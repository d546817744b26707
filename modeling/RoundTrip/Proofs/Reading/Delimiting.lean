import RoundTrip.Proofs.Cbor.Locality
import RoundTrip.Proofs.Frame.Encoding
import RoundTrip.Proofs.Msgpack.Locality

/-!
# Self-delimiting formats

Frames, CBOR and MessagePack say where their values end. So no accepted input is the beginning of
another one: bytes behind it are refused as trailing bytes, with the place at which they start, and
an input that is cut off is refused for what is missing.

Main statement: `codecs_selfDelimiting`.
-/

set_option autoImplicit false

namespace RoundTrip

/-- A reader whose errors are turned into failures. -/
theorem selfDelimiting_of_local {ε α : Type} {read : Step ε α} {f : ε → Failure}
    (hlocal : ∀ {bs rest : Bytes} {v : α}, read bs = .ok (v, rest) →
      ∃ used, bs = used ++ rest ∧ ∀ s, read (used ++ s) = .ok (v, s))
    (hcause : ∀ e, (f e).cause? ≠ some .trailingBytes) :
    SelfDelimiting (exact (PrefixReader.ofRest fun bs => (read bs).mapError f)) := by
  apply exact_selfDelimiting
  · intro bs v rest h
    obtain ⟨used, hbs, hagain⟩ := hlocal (Step.mapError_eq_ok.1 h)
    exact ⟨used, hbs, fun s => Step.mapError_eq_ok.2 (hagain s)⟩
  · intro bs e h
    obtain ⟨e', -, rfl⟩ := Step.mapError_eq_error.1 h
    exact hcause e'

/-- The encoding of a frame is all that its reader looks at. -/
theorem Frame.read_local {bs rest : Bytes} {f : Frame} (h : Frame.read bs = .ok (f, rest)) :
    ∃ used, bs = used ++ rest ∧ ∀ s, Frame.read (used ++ s) = .ok (f, s) := by
  obtain ⟨hencodable, hnormal, hbs⟩ := Frame.read_eq_ok_iff.1 h
  exact ⟨f.encode, hbs, fun s => Frame.read_eq_ok_iff.2 ⟨hencodable, hnormal, rfl⟩⟩

theorem Frame.Corruption.cause?_toFailure_ne (c : Frame.Corruption) :
    c.toFailure.cause? ≠ some .trailingBytes := by
  simp [toFailure, Failure.cause?]

/-! ## Main statement -/

/-- **Frames, CBOR and MessagePack are self-delimiting.** An accepted input with anything behind it
is refused for trailing bytes that start where the accepted input ends, and every shorter beginning
of it is refused for another reason. -/
theorem codecs_selfDelimiting :
    SelfDelimiting Frame.codec.decode ∧ (∀ order, SelfDelimiting (Cbor.codec order).decode)
      ∧ SelfDelimiting Msgpack.codec.decode := by
  refine ⟨?_, ?_, ?_⟩
  · exact selfDelimiting_of_local Frame.read_local Frame.Corruption.cause?_toFailure_ne
  · intro order
    exact selfDelimiting_of_local Cbor.read_local Cbor.Error.cause?_toFailure_ne
  · exact selfDelimiting_of_local Msgpack.read_local Msgpack.Error.cause?_toFailure_ne

/-- A frame and a CBOR array without a stated length, each with one byte behind it, and a
MessagePack array that ends before its last string. -/
theorem codecs_selfDelimiting_samples :
    Frame.codec.decode [1, 0, 0, 0, 1, 7, 0] = .error (.trailing 6 7)
      ∧ (Cbor.codec .canonical).decode [0x9f, 0x01, 0xc6, 0x41, 0x61, 0xff, 0xff]
        = .error (.trailing 6 7)
      ∧ ∃ e, Msgpack.codec.decode [0x92, 0xc0, 0xa1] = .error e ∧ e.trailing? = none
          ∧ Cause.trailingBytes ∉ e.causes := by
  obtain ⟨hframe, hcbor, hmsgpack⟩ := codecs_selfDelimiting
  refine ⟨?_, ?_, ?_⟩
  · exact (hframe.extended [1, 0, 0, 0, 1, 7] ⟨.single, some [7], none⟩ [0] rfl (by decide)).1
  · exact ((hcbor .canonical).extended [0x9f, 0x01, 0xc6, 0x41, 0x61, 0xff]
      (.list [.unsigned 1, .tag 6 (.bytes [0x61])]) [0xff] rfl (by decide)).1
  · exact hmsgpack.cut [0x92, 0xc0, 0xa1, 0x61] (.list [.nil, .text [0x61]]) [0x92, 0xc0, 0xa1]
      [0x61] rfl rfl (by decide)

end RoundTrip
