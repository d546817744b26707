import RoundTrip.Proofs.Frame.Encoding

/-!
# Frames that can be written

The check before writing and the reader are made apart from each other and describe the same
frames: a frame can be written exactly when some input is read as its normal form. A frame that
cannot be written leaves no trace, and when an item is at fault, the failure names the first one.

Main statement: `extend_accepts_iff_read`.
-/

set_option autoImplicit false

namespace RoundTrip.Frame

/-! ## Frames that can be read -/

/-- Taking the normal form decides nothing about whether a frame has an encoding. -/
theorem encodable_of_normalized {f : Frame} (h : f.normalized.Encodable) : f.Encodable := by
  rcases f with ⟨kind, payload, items⟩
  by_cases hsingle : kind = Kind.single
  · subst hsingle
    have hnormal : normalized ⟨.single, payload, items⟩
        = ⟨.single, some (contents payload), items⟩ := rfl
    rw [hnormal] at h
    cases h with
    | single hlength => exact .single hlength
  · by_cases hbatch : kind = Kind.batch
    · subst hbatch
      have hnormal : normalized ⟨.batch, payload, items⟩
          = ⟨.batch, payload, some ((items.getD []).map Item.normalized)⟩ := rfl
      rw [hnormal] at h
      cases h with
      | batch hcount hits =>
          rw [Option.getD_some] at hcount hits
          rw [List.length_map] at hcount
          refine .batch hcount fun it hit => ?_
          obtain ⟨hpos, hkey, hpayload⟩ := hits it.normalized (List.mem_map_of_mem hit)
          exact ⟨hpos, hkey, hpayload⟩
    · -- a frame of another kind is its own normal form
      have hnormal : normalized ⟨kind, payload, items⟩ = ⟨kind, payload, items⟩ := by
        simp [normalized, hsingle, hbatch]
      rwa [hnormal] at h

/-- The frames with an encoding are those that are read, up to their normal form. -/
theorem encodable_iff_read {f : Frame} :
    f.Encodable ↔ ∃ bs : Bytes, readPrefix bs = .ok (f.normalized, (bs.length : Int)) := by
  constructor
  · intro h
    obtain ⟨hencodable, hnormal, -⟩ := h.normalized
    refine ⟨f.normalized.encode, readPrefix_eq_ok_iff.2 ⟨hencodable, hnormal, ?_, [], ?_⟩⟩
    · rw [hencodable.length_encode]
    · rw [List.append_nil]
  · rintro ⟨bs, hread⟩
    exact encodable_of_normalized (readPrefix_eq_ok_iff.1 hread).1

/-! ## Items at fault -/

/-- A batch whose own parts are in order, so that only an item can be at fault. -/
structure BatchHead (f : Frame) : Prop where
  kind_eq : f.kind = .batch
  payload_eq : f.payload = none
  count_le : (f.items.getD []).length ≤ maxLength

/-- The words about an item at fault: its position, and the length of its key or, if there is nothing
wrong with that, of its payload. -/
def Item.complaint (it : Item) (index : Nat) : String :=
  if it.key.length = 0 ∨ maxKeyLength < it.key.length then
    "item " ++ toString index ++ " key length " ++ toString it.key.length
  else
    "item " ++ toString index ++ " payload of " ++ toString (contents it.payload).length
      ++ " bytes"

/-- The check of items stops at the first one that does not fit. -/
theorem checkItems_eq_some {index : Nat} {its : List Item} {m : Misfit}
    (h : checkItems index its = some m) :
    ∃ before it after, its = before ++ it :: after ∧ (∀ earlier ∈ before, earlier.Fits)
      ∧ ¬ it.Fits ∧ m.message = it.complaint (index + before.length) := by
  -- the position grows with the items that have passed
  induction its generalizing index with
  | nil => cases h
  | cons it its ih =>
      rw [checkItems] at h
      split at h
      · -- the key of the first item
        rename_i hkey
        obtain rfl := Option.some.inj h
        refine ⟨[], it, its, rfl, by simp, fun hfits => ?_, ?_⟩
        · have hpos := hfits.key_pos
          have hle := hfits.key_le
          omega
        · exact (if_pos hkey).symm
      · rename_i hkey
        split at h
        · -- its payload
          rename_i hpayload
          obtain rfl := Option.some.inj h
          refine ⟨[], it, its, rfl, by simp, fun hfits => ?_, ?_⟩
          · exact absurd hfits.payload_le (Nat.not_le.2 hpayload)
          · exact (if_neg hkey).symm
        · -- a later item
          rename_i hpayload
          obtain ⟨before, bad, after, rfl, hbefore, hbad, hmessage⟩ := ih h
          have hfits : it.Fits := ⟨by omega, by omega, by omega⟩
          refine ⟨it :: before, bad, after, rfl, ?_, hbad, ?_⟩
          · exact List.forall_mem_cons.2 ⟨hfits, hbefore⟩
          · rw [hmessage, List.length_cons]
            congr 1
            omega

/-- A batch that has no encoding although its own parts are in order has an item at fault, and the
check reports the first one. -/
theorem BatchHead.check_eq_some {f : Frame} (h : f.BatchHead) {m : Misfit}
    (hcheck : f.check = some m) :
    ∃ before it after, f.items = some (before ++ it :: after) ∧ (∀ earlier ∈ before, earlier.Fits)
      ∧ ¬ it.Fits ∧ m.message = it.complaint before.length := by
  rcases f with ⟨kind, payload, items⟩
  obtain ⟨rfl, rfl, hcount⟩ := h
  have hitems : checkItems 0 (items.getD []) = some m := by
    simpa [check, batch_ne_single, Nat.not_lt.2 hcount] using hcheck
  obtain ⟨before, it, after, hsplit, hbefore, hbad, hmessage⟩ := checkItems_eq_some hitems
  rw [Nat.zero_add] at hmessage
  refine ⟨before, it, after, ?_, hbefore, hbad, hmessage⟩
  cases items with
  | none => simp at hsplit
  | some its => exact congrArg some hsplit

/-! ## Main statement -/

theorem extend_of_encodable (front : Bytes) {f : Frame} (h : f.Encodable) :
    f.extend front = (front ++ f.encode, none) := by
  rw [extend, append_eq_ok_iff.2 ⟨h, rfl⟩]

theorem extend_of_check {f : Frame} {m : Misfit} (front : Bytes) (h : f.check = some m) :
    f.extend front = (front, some m) := by
  simp only [extend, append, h]

/-- A frame that has no encoding makes the codec fail before it writes anything. -/
theorem codec_encode_of_check {f : Frame} {m : Misfit} (h : f.check = some m) :
    codec.encode f = .fail m.toFailure := by
  simp only [codec, append, h]
  rfl

/-- **Writing accepts exactly what reading can produce, and fails without a trace.** A frame is
written behind other bytes exactly when some input is read as its normal form and used up. Every
other frame leaves these bytes as they are and fails as an invalid frame; when only its items can be
at fault, the failure names the first one that does not fit. The codec then writes nothing. -/
theorem extend_accepts_iff_read (front : Bytes) (f : Frame) :
    ((∃ out, f.extend front = (out, none)) ↔
      ∃ bs : Bytes, readPrefix bs = .ok (f.normalized, (bs.length : Int)))
    ∧ ((¬ ∃ bs : Bytes, readPrefix bs = .ok (f.normalized, (bs.length : Int))) →
        ∃ m, f.extend front = (front, some m) ∧ m.toFailure.causes = [.invalidFrame]
          ∧ (f.BatchHead →
              ∃ before it after, f.items = some (before ++ it :: after)
                ∧ (∀ earlier ∈ before, earlier.Fits) ∧ ¬ it.Fits
                ∧ m.message = it.complaint before.length)
          ∧ (codec.encode f).writes = [] ∧ (codec.encode f).failure = some m.toFailure) := by
  -- both sides say that the check finds nothing
  rw [← encodable_iff_read, ← check_eq_none_iff]
  cases hcheck : f.check with
  | none =>
      refine ⟨?_, fun h => absurd rfl h⟩
      exact iff_of_true ⟨_, extend_of_encodable front ((check_eq_none_iff f).1 hcheck)⟩ rfl
  | some m =>
      have hextend := extend_of_check front hcheck
      refine ⟨?_, fun _ => ⟨m, hextend, rfl, fun hhead => hhead.check_eq_some hcheck, ?_⟩⟩
      · rw [hextend]
        simp
      · rw [codec_encode_of_check hcheck]
        exact ⟨rfl, rfl⟩

/-- A batch in which the second and the third item have no key: nothing is read as its normal form,
the byte before it stays alone, and the failure names the second item. -/
theorem extend_accepts_iff_read_empty_keys :
    let f : Frame := ⟨.batch, none, some [⟨[0x6b], none⟩, ⟨[], some [1]⟩, ⟨[], none⟩]⟩
    (¬ ∃ bs : Bytes, readPrefix bs = .ok (f.normalized, (bs.length : Int)))
      ∧ f.extend [9] = ([9], some (.keyLength 1 0))
      ∧ (∃ before it after, f.items = some (before ++ it :: after)
          ∧ (∀ earlier ∈ before, earlier.Fits) ∧ ¬ it.Fits
          ∧ (Misfit.keyLength 1 0).message = it.complaint before.length)
      ∧ (codec.encode f).writes = [] := by
  intro f
  obtain ⟨haccepts, hfails⟩ := extend_accepts_iff_read [9] f
  have hunread : ¬ ∃ bs : Bytes, readPrefix bs = .ok (f.normalized, (bs.length : Int)) := by
    rw [← haccepts]
    rintro ⟨out, hout⟩
    exact absurd (congrArg Prod.snd hout) (Option.some_ne_none _)
  obtain ⟨m, hextend, -, hitem, hwrites, -⟩ := hfails hunread
  obtain rfl : Misfit.keyLength 1 0 = m := Option.some.inj (congrArg Prod.snd hextend)
  exact ⟨hunread, hextend, hitem ⟨rfl, rfl, by decide⟩, hwrites⟩

end RoundTrip.Frame
