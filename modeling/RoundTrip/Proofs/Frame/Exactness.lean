import RoundTrip.Proofs.Frame.Grammar
import RoundTrip.Proofs.Run.Integrity

/-!
# The harness of frames

A run with the codec of frames and without faults is a check of its input against the grammar: a
word is copied to the output, and everything else is refused before the output is touched.

Main statement: `run_copies_iff_word`.
-/

set_option autoImplicit false

namespace RoundTrip.Frame

open RoundTrip.Run RoundTrip.Store

/-- The codec hands over the encoding of a frame in one block. -/
theorem Encodable.codec_encode {f : Frame} (h : f.Encodable) :
    codec.encode f = .once f.encode := by
  have happend : append [] f = .ok f.encode := append_eq_ok_iff.2 ⟨h, rfl⟩
  simp only [codec, happend]
  rfl

/-- A value that has been decoded is encoded as the input that it was decoded from. -/
theorem codec_encode_of_decode {bs : Bytes} {f : Frame} (h : codec.decode bs = .ok f) :
    codec.encode f = .once bs := by
  obtain ⟨hencodable, -, rfl⟩ := decode_eq_ok_iff.1 h
  exact hencodable.codec_encode

/-- **The harness of frames copies the words of the grammar and nothing else.** Its status is 0 when
the whole input is a word, and the output is then the input, byte for byte. Else its status is 1 and
no file has changed. -/
theorem run_copies_iff_word (files : Files) (o : Options) (program : String)
    {input output : String} (extra : List String) {bs : Bytes}
    (hinput : input ≠ "") (houtput : output ≠ "") (hin : files.get? input = some bs) :
    let report :=
      run (some codec) o (files.storage .none) (program :: input :: output :: extra)
    (exitStatus report.failure = 0 ↔ Word bs)
      ∧ (Word bs → (files.after report).get? output = some bs
          ∧ ∀ path, path ≠ output → (files.after report).get? path = files.get? path)
      ∧ (¬ Word bs → exitStatus report.failure = 1 ∧ files.after report = files) := by
  intro report
  have hargs := Arguments.parse_paths program extra hinput houtput
  have hfailure : report.failure = _ := run_failure hargs
  have hstored : report.stored = _ := run_stored hargs
  rw [← decode_ok_iff_word]
  rcases faultless_cases (process_ending codec o (files.storage .none) ⟨input, output, extra⟩) hin
    with ⟨e, hdecode, hfailed, hnothing⟩ | ⟨f, hdecode, hsuccess⟩
  · rw [hfailed] at hfailure
    rw [hnothing] at hstored
    have hrefused : ¬ ∃ f, codec.decode bs = .ok f := by
      rintro ⟨f, hf⟩
      rw [hdecode] at hf
      cases hf
    have hstatus : exitStatus report.failure = 1 := by
      rw [hfailure]
      rfl
    refine ⟨?_, fun hword => absurd hword hrefused, fun _ => ?_⟩
    · simp [hstatus, hrefused]
    · exact ⟨hstatus, Files.after_eq_self hstored⟩
  · have hemission := codec_encode_of_decode hdecode
    rw [hemission, Emission.bytes_once] at hsuccess
    obtain ⟨hnone, hbytes⟩ := hsuccess rfl
    rw [hnone] at hfailure
    rw [hbytes] at hstored
    have hword : ∃ f, codec.decode bs = .ok f := ⟨f, hdecode⟩
    have hstatus : exitStatus report.failure = 0 := by
      rw [hfailure]
      rfl
    refine ⟨iff_of_true hstatus hword, fun _ => ?_, fun hrefused => absurd hword hrefused⟩
    rw [Files.after_eq_insert hstored]
    exact ⟨Files.get?_insert_self files output bs,
      fun path hpath => Files.get?_insert_of_ne files bs hpath⟩

/-- A batch of one item in place of a longer output, through a buffer of one byte. -/
theorem run_copies_iff_word_batch :
    Word [2, 0, 0, 0, 1, 0, 1, 0x6b, 0, 0, 0, 1, 7]
      ∧ (Files.after
          [("in", [2, 0, 0, 0, 1, 0, 1, 0x6b, 0, 0, 0, 1, 7]), ("out", List.replicate 20 0)]
          (run (some codec) ⟨0, 1⟩
            (Files.storage [("in", [2, 0, 0, 0, 1, 0, 1, 0x6b, 0, 0, 0, 1, 7]),
              ("out", List.replicate 20 0)] .none)
            ["frames", "in", "out"])).get? "out"
        = some [2, 0, 0, 0, 1, 0, 1, 0x6b, 0, 0, 0, 1, 7] := by
  obtain ⟨hstatus, hcopied, -⟩ := run_copies_iff_word
    [("in", [2, 0, 0, 0, 1, 0, 1, 0x6b, 0, 0, 0, 1, 7]), ("out", List.replicate 20 0)]
    ⟨0, 1⟩ "frames" [] (by decide : "in" ≠ "") (by decide : "out" ≠ "") rfl
  have hword := hstatus.1 (by decide)
  exact ⟨hword, (hcopied hword).1⟩

end RoundTrip.Frame
