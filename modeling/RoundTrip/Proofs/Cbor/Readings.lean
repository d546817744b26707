import RoundTrip.Cbor.Reading
import RoundTrip.Proofs.Cbor.Stability
import RoundTrip.Proofs.Readings.Fields

/-!
# Readings in CBOR

A reading is written as a map with its fields in the order of the bytes of their names: the tags come
first, then the value and the sensor. The map is read back field by field, unless the list of tags is
longer than a list may be. Such a list is written all the same, and what is written is refused.

Main statement: `readingCodec_restores_iff`.
-/

set_option autoImplicit false

namespace RoundTrip.Step

variable {ε α β : Type} {step : Step ε α}

/-- The bytes `w` are refused with the error `e`, whatever follows them. -/
def Fails (step : Step ε α) (w : Bytes) (e : ε) : Prop := ∀ s, step (w ++ s) = .error e

theorem Fails.bind {w : Bytes} {e : ε} (h : Fails step w e)
    (next : α × Bytes → Except ε (β × Bytes)) : Fails (fun bs => step bs >>= next) w e := by
  intro s
  change (step (w ++ s) >>= next) = .error e
  rw [h s]
  rfl

/-- A failure behind a word. -/
theorem Reads.bind_fails {w w' : Bytes} {a : α} {e : ε} {next : α × Bytes → Except ε (β × Bytes)}
    (h : Reads step w a) (hnext : Fails (fun bs => next (a, bs)) w' e) :
    Fails (fun bs => step bs >>= next) (w ++ w') e := by
  intro s
  rw [List.append_assoc]
  change (step (w ++ (w' ++ s)) >>= next) = .error e
  rw [h (w' ++ s)]
  exact hnext s

end RoundTrip.Step

namespace RoundTrip.Cbor

open Step

/-! ## Writing -/

/-- The value that stands for tags. -/
def tagsValue : Option (List Bytes) → Value
  | none => .nil
  | some tags => .list (tags.map .text)

/-- The bytes of tags. -/
def tagsBytes : Option (List Bytes) → Bytes
  | none => nilBytes
  | some tags => shortHead .array tags.length ++ tags.flatMap (shortString .text)

theorem encode_tagsValue (tags : Option (List Bytes)) :
    (tagsValue tags).encode .canonical = .ok (tagsBytes tags) := by
  cases tags with
  | none => rw [tagsValue, Value.encode, tagsBytes]
  | some tags =>
      have htexts : List.Forall₂ (fun v w => v.encode .canonical = .ok w)
          (tags.map Value.text) (tags.map (shortString .text)) := by
        refine List.forall₂_map_left_iff.2 (List.forall₂_map_right_iff.2 ?_)
        exact List.forall₂_same.2 fun t _ => by rw [Value.encode]
      rw [tagsValue, encode_list htexts, List.length_map, tagsBytes, List.flatMap_def]

/-- The value that stands for a field. -/
def fieldValue (r : Reading) : Reading.Field → Value
  | .sensor => .text r.sensor
  | .value => .signed r.value
  | .tags => tagsValue r.tags

/-- The bytes of a field. -/
def fieldBytes (r : Reading) : Reading.Field → Bytes
  | .sensor => shortString .text r.sensor
  | .value => integer r.value
  | .tags => tagsBytes r.tags

theorem encode_fieldValue (r : Reading) (f : Reading.Field) :
    (fieldValue r f).encode .canonical = .ok (fieldBytes r f) := by
  cases f with
  | sensor => rw [fieldValue, Value.encode, fieldBytes]
  | value => rw [fieldValue, Value.encode, fieldBytes]
  | tags => exact encode_tagsValue r.tags

theorem ofReading_eq (r : Reading) :
    ofReading r = .map (Reading.Field.all.map fun f => (.text f.key, fieldValue r f)) := by
  cases htags : r.tags with
  | none => simp [ofReading, htags, Reading.Field.all, fieldValue, tagsValue]
  | some tags => simp [ofReading, htags, Reading.Field.all, fieldValue, tagsValue]

/-- The fields in the order of the bytes of their names. -/
def writtenFields : List Reading.Field := [.tags, .value, .sensor]

/-- The bytes of a reading. -/
def readingBytes (r : Reading) : Bytes :=
  shortHead .map 3 ++ writtenFields.flatMap fun f => shortString .text f.key ++ fieldBytes r f

theorem encode_ofReading (r : Reading) : (ofReading r).encode .canonical = .ok (readingBytes r) := by
  have hentries : List.Forall₂ EntryBytes
      (Reading.Field.all.map fun f => (Value.text f.key, fieldValue r f))
      (Reading.Field.all.map fun f => (shortString .text f.key, fieldBytes r f)) := by
    refine List.forall₂_map_left_iff.2 (List.forall₂_map_right_iff.2 ?_)
    exact List.forall₂_same.2 fun f _ => ⟨by rw [Value.encode], encode_fieldValue r f⟩
  -- shorter names come first, because the head of a text holds its length
  have hperm : (Reading.Field.all.map fun f => (shortString .text f.key, fieldBytes r f)).Perm
      (writtenFields.map fun f => (shortString .text f.key, fieldBytes r f)) :=
    List.Perm.map _ (by decide)
  have hincreasing : Entries.Increasing
      (writtenFields.map fun f => (shortString .text f.key, fieldBytes r f)) := by
    rw [Entries.increasing_iff, List.map_map]
    change (writtenFields.map fun f => shortString .text f.key).Pairwise (· < ·)
    decide
  rw [ofReading_eq, encode_map hentries, Entries.sort_eq_of_perm hperm hincreasing,
    List.flatMap_map]
  rfl

/-! ## Reading fields -/

/-- A text in the shortest form. -/
def textItem (t : Bytes) : Item := .string .text (shortArgument t.length) t

theorem textField_textItem {t : Bytes} (h : Utf8.isValid t = true) :
    textField (textItem t) = .ok (some t) := by
  have htext : (textItem t).textContents = .ok t := if_pos h
  exact bind_eq_ok.2 ⟨t, htext, rfl⟩

theorem textFields_map {tags : List Bytes} (h : ∀ t ∈ tags, Utf8.isValid t = true)
    (done : List Bytes) : textFields (tags.map textItem) done = .ok (done.reverse ++ tags) := by
  induction tags generalizing done with
  | nil => simp [textFields]
  | cons t tags ih =>
      rw [List.forall_mem_cons] at h
      rw [List.map_cons, textFields, textField_textItem h.1]
      simp [ih h.2]

/-- An integer in the shortest form. -/
def integerItem : Int → Item
  | .ofNat n => .unsigned (shortArgument n)
  | .negSucc n => .negative (shortArgument n)

theorem integerField_integerItem {n : Int} (h : FitsWord n) :
    integerField (integerItem n) = .ok (some n) := by
  have hword : wordField n = .ok (some n) := if_pos h
  cases n with
  | ofNat n => exact hword
  | negSucc n =>
      have hneg : (-1 - (n : Int)) = Int.negSucc n := by omega
      exact (congrArg wordField hneg).trans hword

/-- Tags in the shortest form. -/
def tagsItem : Option (List Bytes) → Item
  | none => .primitive (shortArgument 22)
  | some tags => .array (some (shortArgument tags.length)) (tags.map textItem)

theorem tagsField_tagsItem {tags : Option (List Bytes)}
    (h : ∀ t ∈ tags.getD [], Utf8.isValid t = true) : tagsField (tagsItem tags) = .ok tags := by
  cases tags with
  | none => rfl
  | some tags => exact bind_eq_ok.2 ⟨tags, textFields_map h [], rfl⟩

/-- The item that stands for a field. -/
def fieldItem (r : Reading) : Reading.Field → Item
  | .sensor => textItem r.sensor
  | .value => integerItem r.value
  | .tags => tagsItem r.tags

theorem setField_fieldItem {r : Reading} (hvalue : FitsWord r.value) (hr : r.IsUtf8) (a : Reading)
    (f : Reading.Field) : setField a f (fieldItem r f) = .ok (r.put a f) := by
  obtain ⟨hsensor, htags⟩ := List.forall_mem_cons.1 hr
  cases f with
  | sensor => exact bind_eq_ok.2 ⟨some r.sensor, textField_textItem hsensor, rfl⟩
  | value => exact bind_eq_ok.2 ⟨some r.value, integerField_integerItem hvalue, rfl⟩
  | tags => exact bind_eq_ok.2 ⟨r.tags, tagsField_tagsItem htags, rfl⟩

theorem canonical_textItem {t : Bytes} (h : t.length < wordHalf) (depth : Nat) :
    Canonical false depth (textItem t) (shortString .text t) := .string .text h

theorem canonical_integerItem {n : Int} (h : FitsWord n) (depth : Nat) :
    Canonical false depth (integerItem n) (integer n) := by
  obtain ⟨hlow, hhigh⟩ := h
  cases n with
  | ofNat n =>
      have hn : n < wordCount := Nat.lt_trans (Int.ofNat_lt.1 hhigh) (by decide)
      rw [integer, if_pos hn]
      exact .unsigned hn
  | negSucc n =>
      have hn : n < wordCount := by
        simp only [wordHalf, wordCount] at hlow ⊢
        omega
      rw [integer, if_pos hn]
      exact .negative hn

theorem canonical_tagsItem {tags : Option (List Bytes)}
    (htexts : ∀ t ∈ tags.getD [], t.length < wordHalf) (hcount : (tags.getD []).length ≤ maxCount)
    (depth : Nat) : Canonical false (depth + 1) (tagsItem tags) (tagsBytes tags) := by
  cases tags with
  | none => exact .simple (n := 22) (by decide)
  | some tags =>
      have hparts : ∀ p ∈ tags.map fun t => (textItem t, shortString .text t),
          Canonical false depth p.1 p.2 := by
        intro p hp
        obtain ⟨t, ht, rfl⟩ := List.mem_map.1 hp
        exact canonical_textItem (htexts t ht) depth
      have hlist := @Canonical.array false depth _ (by rwa [List.length_map]) hparts
      rw [List.length_map, List.map_map, List.map_map] at hlist
      rw [tagsBytes, List.flatMap_def]
      exact hlist

theorem canonical_fieldItem {r : Reading} (hvalue : FitsWord r.value)
    (htexts : ∀ t ∈ r.texts, t.length < wordHalf) (hcount : r.tagCount ≤ maxCount) (depth : Nat)
    (f : Reading.Field) : Canonical false (depth + 1) (fieldItem r f) (fieldBytes r f) := by
  obtain ⟨hsensor, htags⟩ := List.forall_mem_cons.1 htexts
  cases f with
  | sensor => exact canonical_textItem hsensor _
  | value => exact canonical_integerItem hvalue _
  | tags => exact canonical_tagsItem htags hcount depth

/-! ## Reading records -/

/-- The name of a field, read as the key of a record. -/
theorem recordKey_textItem (f : Reading.Field) : recordKey (textItem f.key) = .field f f.key := by
  have htext : (textItem f.key).textContents = .ok f.key := if_pos f.isValid_key
  rw [textItem] at htext ⊢
  simp only [recordKey, htext, textKey, f.find?_key]

/-- Fields that are all different are read one after the other. -/
theorem readPairs_map {r : Reading} (hvalue : FitsWord r.value) (hr : r.IsUtf8)
    {fs : List Reading.Field} (hfs : fs.Nodup) {d : Draft} (herror : d.others.error = none)
    (hfound : ∀ f ∈ fs, f ∉ d.found) :
    readPairs (fs.map fun f => (textItem f.key, fieldItem r f)) d = .ok (r.fill fs d.reading) := by
  induction fs generalizing d with
  | nil => simp [readPairs, herror, Reading.fill]
  | cons f fs ih =>
      rw [List.nodup_cons] at hfs
      rw [List.forall_mem_cons] at hfound
      have hnew : d.found.contains f = false := by
        rw [List.contains_eq_mem]
        exact decide_eq_false hfound.1
      -- the field is filled in and counts as found from here on
      have hset := setField_fieldItem hvalue hr d.reading f
      rw [List.map_cons, readPairs, recordKey_textItem]
      simp only [hnew, hset, Bool.false_eq_true, if_false]
      refine ih hfs.2 herror ?_
      intro f' hf' hmem
      rcases List.mem_cons.1 hmem with rfl | hmem
      · exact hfs.1 hf'
      · exact hfound.2 f' hf' hmem

theorem readingCodec_decode_eq_ok_iff {bs : Bytes} {r : Reading} :
    readingCodec.decode bs = .ok r ↔ ∃ it, Item.read bs = .ok (it, []) ∧ it.reading = .ok r := by
  refine (exact_ofRest_eq_ok_iff.trans mapError_eq_ok).trans ?_
  constructor
  · intro h
    obtain ⟨⟨it, rest⟩, hread, h⟩ := bind_eq_ok.1 h
    obtain ⟨r', hr', hresult⟩ := bind_eq_ok.1 h
    cases hresult
    exact ⟨it, mapError_eq_ok.1 hread, hr'⟩
  · rintro ⟨it, hread, hr⟩
    exact bind_eq_ok.2 ⟨(it, []), mapError_eq_ok.2 hread, bind_eq_ok.2 ⟨r, hr, rfl⟩⟩

theorem decode_readingBytes {r : Reading} (hvalue : FitsWord r.value) (hr : r.IsUtf8)
    (htexts : ∀ t ∈ r.texts, t.length < wordHalf) (hcount : r.tagCount ≤ maxCount) :
    readingCodec.decode (readingBytes r) = .ok r := by
  have hkey : ∀ f : Reading.Field, f.key.length < wordHalf := fun f =>
    Nat.lt_trans f.length_key_lt (by decide)
  have hparts : ∀ p ∈ writtenFields.map fun f =>
      ((textItem f.key, shortString .text f.key), fieldItem r f, fieldBytes r f),
      Canonical false 31 p.1.1 p.1.2 ∧ Canonical false 31 p.2.1 p.2.2 := by
    intro p hp
    obtain ⟨f, -, rfl⟩ := List.mem_map.1 hp
    exact ⟨canonical_textItem (hkey f) 31, canonical_fieldItem hvalue htexts hcount 30 f⟩
  have hcanonical := @Canonical.map false 31 _ (by rw [List.length_map]; decide)
    (fun p hp => (hparts p hp).1) fun p hp => (hparts p hp).2
  rw [List.map_map, List.flatMap_map, List.length_map] at hcanonical
  refine readingCodec_decode_eq_ok_iff.2 ⟨_, hcanonical.read_eq, ?_⟩
  have hdraft : ∀ f ∈ writtenFields, f ∉ ({} : Draft).found := fun _ _ => List.not_mem_nil
  exact readPairs_map hvalue hr (by decide) rfl hdraft

/-! ## Too many tags -/

theorem fails_untagged {size n : Nat} {major : Major} {arg : Argument} {hd w : Bytes}
    {e : SyntaxError} (hhead : Reads head hd (major, some arg)) (hmajor : major ≠ .tag)
    (hbody : Fails (untagged size (levelBelow size n) major (some arg)) w e) :
    Fails (level size n).item (hd ++ w) e := by
  rw [level_eq]
  refine hhead.bind_fails ?_
  intro s
  dsimp only
  split
  · exact absurd rfl hmajor
  · exact hbody s

/-- An array with too many items is refused at its head. -/
theorem fails_array {size depth n : Nat} (hcount : maxCount < n) (hn : n < wordHalf) :
    Fails (level size (depth + 1)).item (shortHead .array n) .arrayCount := by
  have hhead := reads_plainHead .array (by decide) (Nat.lt_trans hn (by decide))
  have hbody : Fails (arrayItem size (level size depth).item (some (shortArgument n))) []
      .arrayCount := by
    intro s
    have hbound : ¬ lengthBound ≤ (shortArgument n).value := Nat.not_le.2 hn
    have hlimit : maxCount < (shortArgument n).value := hcount
    simp only [arrayItem, if_neg hbound, if_pos hlimit]
  have hfails := fails_untagged (n := depth + 1) hhead (by decide) hbody
  rwa [List.append_nil] at hfails

/-- The tags are the first thing that is read. -/
theorem read_readingBytes_of_lt {r : Reading} (hcount : maxCount < r.tagCount)
    (hbound : r.tagCount < wordHalf) : Item.read (readingBytes r) = .error .arrayCount := by
  obtain ⟨tags, htags⟩ : ∃ tags, r.tags = some tags := by
    cases h : r.tags with
    | none =>
        rw [Reading.tagCount, h] at hcount
        cases hcount
    | some tags => exact ⟨tags, rfl⟩
  rw [Reading.tagCount, htags] at hcount hbound
  have hfails : Fails (level (readingBytes r).length maxLevels).item (shortHead .map 3
      ++ (shortString .text Reading.Field.tags.key ++ shortHead .array tags.length)) .arrayCount := by
    have hkey := (canonical_textItem (t := Reading.Field.tags.key) (by decide) 31).reads
      (readingBytes r).length
    have hpair : Fails (pairStep (level (readingBytes r).length 31).item)
        (shortString .text Reading.Field.tags.key ++ shortHead .array tags.length) .arrayCount :=
      hkey.bind_fails ((fails_array hcount hbound).bind _)
    refine fails_untagged (reads_plainHead .map (by decide) (by decide)) (by decide) ?_
    intro s
    -- the first of the three pairs has the tags
    change (times (pairStep (level (readingBytes r).length 31).item) 3 _ >>= _) = _
    rw [times_succ, hpair s]
    rfl
  have hbytes : ∃ s, readingBytes r = shortHead .map 3
      ++ (shortString .text Reading.Field.tags.key ++ shortHead .array tags.length) ++ s := by
    refine ⟨tags.flatMap (shortString .text) ++ [Reading.Field.value, .sensor].flatMap fun f =>
      shortString .text f.key ++ fieldBytes r f, ?_⟩
    rw [readingBytes, writtenFields, List.flatMap_cons, fieldBytes, htags, tagsBytes]
    simp only [List.append_assoc]
  obtain ⟨s, hs⟩ := hbytes
  have hnonempty : (readingBytes r).isEmpty = false := rfl
  rw [Item.read, hnonempty, if_neg Bool.false_ne_true]
  exact (congrArg (level (readingBytes r).length maxLevels).item hs).trans (hfails s)

/-! ## Whole inputs -/

theorem readingCodec_encode_eq (r : Reading) : readingCodec.encode r = .once (readingBytes r) := by
  change Emission.ofExcept (((ofReading r).encode .canonical).mapError Error.toFailure) = _
  rw [encode_ofReading]
  rfl

theorem readingCodec_decode_of_error {bs : Bytes} {e : SyntaxError} (h : Item.read bs = .error e) :
    readingCodec.decode bs = .error e.toFailure := by
  simp only [readingCodec, exact, readingPrefix, PrefixReader.ofRest, h]
  rfl

theorem length_fieldBytes_le (r : Reading) (f : Reading.Field) :
    (fieldBytes r f).length ≤ (readingBytes r).length := by
  have hf : f ∈ writtenFields := by cases f <;> decide
  have hfield := length_le_flatMap (f := fun f => shortString .text f.key ++ fieldBytes r f) hf
  rw [List.length_append] at hfield
  rw [readingBytes, List.length_append]
  omega

theorem length_lt_shortString (kind : StringKind) (t : Bytes) :
    t.length < (shortString kind t).length := by
  have hhead : 0 < (shortHead kind.major t.length).length := by
    unfold shortHead
    dsimp only
    repeat' split
    all_goals exact Nat.succ_pos _
  rw [shortString, List.length_append]
  omega

theorem length_tags_le (tags : List Bytes) :
    tags.length ≤ (tags.flatMap (shortString .text)).length := by
  induction tags with
  | nil => exact Nat.le_refl 0
  | cons t tags ih =>
      have ht := length_lt_shortString .text t
      rw [List.flatMap_cons, List.length_append, List.length_cons]
      omega

/-- Nothing in a reading is longer than what is written for it. -/
theorem lengths_le (r : Reading) :
    (∀ t ∈ r.texts, t.length ≤ (readingBytes r).length) ∧ r.tagCount ≤ (readingBytes r).length := by
  have hsensor := length_fieldBytes_le r .sensor
  have htags := length_fieldBytes_le r .tags
  have hname := length_lt_shortString .text r.sensor
  dsimp only [fieldBytes] at hsensor htags
  rw [Reading.tagCount, Reading.texts, List.forall_mem_cons]
  cases h : r.tags with
  | none => exact ⟨⟨by omega, by simp⟩, Nat.zero_le _⟩
  | some tags =>
      rw [h, tagsBytes, List.length_append] at htags
      have hcount := length_tags_le tags
      refine ⟨⟨by omega, ?_⟩, ?_⟩
      · intro t ht
        have ht' := length_lt_shortString .text t
        have hle : (shortString .text t).length ≤ (tags.flatMap (shortString .text)).length :=
          length_le_flatMap ht
        omega
      · change tags.length ≤ _
        omega

/-- **A reading of UTF-8 is read back exactly when it has no more tags than a list may have.** -/
theorem readingCodec_restores_iff {r : Reading} (hvalue : FitsWord r.value) (hr : r.IsUtf8)
    (hlength : (readingCodec.encode r).bytes.length < wordHalf) :
    readingCodec.decode (readingCodec.encode r).bytes = .ok r ↔ r.tagCount ≤ maxCount := by
  rw [readingCodec_encode_eq, Emission.bytes_once] at hlength ⊢
  have htexts : ∀ t ∈ r.texts, t.length < wordHalf := fun t ht =>
    Nat.lt_of_le_of_lt ((lengths_le r).1 t ht) hlength
  have hbound : r.tagCount < wordHalf := Nat.lt_of_le_of_lt (lengths_le r).2 hlength
  constructor
  · intro h
    by_contra hcount
    obtain ⟨it, hread, -⟩ := readingCodec_decode_eq_ok_iff.1 h
    rw [read_readingBytes_of_lt (Nat.lt_of_not_le hcount) hbound] at hread
    cases hread
  · exact decode_readingBytes hvalue hr htexts

end RoundTrip.Cbor
