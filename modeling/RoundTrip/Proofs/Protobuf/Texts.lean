import RoundTrip.Proofs.Protobuf.Stability

/-!
# Texts have one encoding

An input may spell a message in many ways: tags and lengths may be padded, fields may be repeated, and
an empty text may be written out. The codec of texts compares nothing but lengths. That is enough,
because every other way to spell a text is longer than the one that is written: `Shortens` says so of
numbers, then of tags, fields and rows of fields.

Main statement: `Text.decode_eq_ok_iff_encode`.
-/

set_option autoImplicit false

namespace RoundTrip.Protobuf

open Step

/-! ## Shorter spellings -/

/-- Of two spellings of one thing the first is the same as the second, or shorter. -/
def Shortens (short w : Bytes) : Prop := short = w ∨ short.length < w.length

theorem Shortens.length_le {short w : Bytes} (h : Shortens short w) : short.length ≤ w.length := by
  rcases h with rfl | hlt
  · exact Nat.le_refl _
  · exact Nat.le_of_lt hlt

theorem Shortens.append {a b c d : Bytes} (hab : Shortens a b) (hcd : Shortens c d) :
    Shortens (a ++ c) (b ++ d) := by
  have hle := hab.length_le
  have hle' := hcd.length_le
  rcases hab with rfl | hlt
  · rcases hcd with rfl | hlt
    · exact .inl rfl
    · right
      simp only [List.length_append]
      omega
  · right
    simp only [List.length_append]
    omega

/-- A spelling that is not longer than a shorter one is that one. -/
theorem Shortens.eq {short w : Bytes} (h : Shortens short w) (hlength : short.length = w.length) :
    short = w := by
  rcases h with heq | hlt
  · exact heq
  · omega

/-! ## Numbers and tags -/

/-- A number is the sum of its groups of seven bits. What was read for it, behind the bytes read
before, is a spelling that the writer does not lengthen. -/
theorem of_varintLoop {left weight value k : Nat} {raw raw' bs rest : Bytes}
    (h : varintLoop left weight value raw bs = .ok ((k, raw'), rest)) :
    ∃ j w, k = value + j * weight ∧ raw' = raw.reverse ++ w ∧ w ≠ []
      ∧ Shortens (varintBytesLoop left j) w := by
  induction left generalizing weight value raw bs with
  | zero => cases h
  | succ left ih =>
      cases bs with
      | nil => cases h
      | cons b bs =>
          rw [varintLoop] at h
          split at h
          · rename_i hlow
            split at h
            · cases h
            · cases h
              have hlt : b.toNat < 128 := UInt8.lt_iff_toNat_lt.1 hlow
              refine ⟨b.toNat, [b], rfl, by simp, List.cons_ne_nil b [], .inl ?_⟩
              rw [varintBytesLoop, if_pos hlt, UInt8.ofNat_toNat]
          · rename_i hhigh
            have hle : 128 ≤ b.toNat :=
              Nat.le_of_not_lt fun hlt => hhigh (UInt8.lt_iff_toNat_lt.2 hlt)
            have hbyte := b.toNat_lt
            obtain ⟨j, w, rfl, rfl, hw, hshort⟩ := ih h
            refine ⟨b.toNat - 128 + 128 * j, b :: w, ?_, by simp, List.cons_ne_nil b w, ?_⟩
            · rw [Nat.add_mul, Nat.mul_right_comm, Nat.mul_comm 128 weight, Nat.mul_assoc,
                Nat.mul_comm 128 j, Nat.add_assoc, Nat.mul_left_comm]
            · rw [varintBytesLoop]
              split
              · -- one byte would do, and there are at least two
                have hpos := List.length_pos_iff.2 hw
                right
                simp only [List.length_cons, List.length_nil]
                omega
              · have hmod : (b.toNat - 128 + 128 * j) % 128 + 128 = b.toNat := by omega
                have hdiv : (b.toNat - 128 + 128 * j) / 128 = j := by omega
                rw [hmod, hdiv, UInt8.ofNat_toNat]
                exact Shortens.append (.inl rfl : Shortens [b] [b]) hshort

theorem shortens_of_varint {k : Nat} {raw bs rest : Bytes} (h : varint bs = .ok ((k, raw), rest)) :
    Shortens (varintBytes k) raw := by
  obtain ⟨j, w, rfl, rfl, -, hshort⟩ := of_varintLoop h
  simpa [varintBytes] using hshort

theorem shortens_of_tagStep {largest number code : Nat} {mark bs rest : Bytes}
    (h : tagStep largest bs = .ok (((number, code), mark), rest)) :
    Shortens (tag number code) mark := by
  obtain ⟨⟨⟨k, raw⟩, tail⟩, hvarint, hresult⟩ := bind_eq_ok.1 h
  dsimp only at hresult
  split at hresult
  · cases hresult
  · cases hresult
    have hsplit : k / 8 * 8 + k % 8 = k := by omega
    rw [tag, hsplit]
    exact shortens_of_varint hvarint

/-! ## Rows of fields -/

theorem shortens_of_fieldsLoop {size fuel : Nat} {done fs : List Field} {bs : Bytes}
    (h : fieldsLoop size fuel done bs = .ok fs) :
    ∃ new, fs = done.reverse ++ new ∧ Shortens (new.flatMap Field.bytes) bs := by
  induction fuel generalizing done bs with
  | zero =>
      cases bs with
      | nil =>
          cases h
          exact ⟨[], by simp, .inl rfl⟩
      | cons b bs => cases h
  | succ fuel ih =>
      cases bs with
      | nil =>
          cases h
          exact ⟨[], by simp, .inl rfl⟩
      | cons b bs =>
          rw [fieldsLoop] at h
          split at h
          · rename_i f tail hfield
            obtain ⟨new, rfl, hnew⟩ := ih h
            obtain ⟨⟨⟨⟨number, code⟩, mark⟩, afterTag⟩, htag, hrest⟩ := bind_eq_ok.1 hfield
            obtain ⟨⟨⟨p, raw⟩, tail'⟩, hpayload, hresult⟩ := bind_eq_ok.1 hrest
            cases hresult
            obtain ⟨hinput, -, -⟩ := of_tagStep htag
            obtain ⟨rfl, rfl⟩ := of_payloadStep hpayload
            refine ⟨⟨number, p, raw⟩ :: new, by simp, ?_⟩
            rw [hinput, ← List.append_assoc, List.flatMap_cons]
            exact ((shortens_of_tagStep htag).append (.inl rfl)).append hnew
          · cases h

/-- The fields of an input with their tags in the shortest form. -/
theorem shortens_of_fields {bs : Bytes} {fs : List Field} (h : fields bs = .ok fs) :
    Shortens (fs.flatMap Field.bytes) bs := by
  obtain ⟨new, rfl, hshort⟩ := shortens_of_fieldsLoop h
  simpa using hshort

/-- A field of bytes is as the writer spells it, or it is longer. -/
theorem Legible.eq_bytesField_or_lt {f : Field} (h : Legible f) {contents : Bytes}
    (hpayload : f.payload = .bytes contents) :
    f = bytesField f.number contents
      ∨ (bytesField f.number contents).bytes.length < f.bytes.length := by
  have hread := (h.reads _ (Nat.le_refl _)).eq_ok
  rw [hpayload] at hread
  obtain ⟨⟨⟨k, mark⟩, tail⟩, hvarint, hrest⟩ := bind_eq_ok.1 hread
  obtain ⟨⟨part, tail'⟩, htake, hresult⟩ := bind_eq_ok.1 hrest
  obtain ⟨hpair, rfl⟩ := Prod.mk.inj (Except.ok.inj hresult)
  obtain ⟨hcontents, hraw⟩ := Prod.mk.inj hpair
  cases hcontents
  obtain ⟨-, rfl⟩ := of_take htake
  obtain ⟨number, payload, raw⟩ := f
  cases hpayload
  obtain rfl : mark ++ contents = raw := hraw
  rcases shortens_of_varint hvarint with hshort | hlt
  · left
    rw [bytesField, hshort]
  · right
    rw [bytes_bytesField]
    simp only [Field.bytes, lengthPrefixed, Payload.code, List.length_append]
    omega

/-- Unknown fields that were found are not forgotten. -/
theorem length_le_of_absorb {σ : Type} {known : σ → Field → Except Error (Option σ)}
    {unknown : List Bytes} {m m' : σ} {fs : List Field} {bs : Bytes}
    (h : absorb known unknown m fs = .ok (m', bs)) : unknown.reverse.flatten.length ≤ bs.length := by
  induction fs generalizing unknown m with
  | nil =>
      cases h
      exact Nat.le_refl _
  | cons f fs ih =>
      rw [absorb] at h
      split at h
      · cases h
      · exact ih h
      · have hle := ih h
        rw [List.reverse_cons, List.flatten_append, List.length_append] at hle
        omega

/-! ## Texts -/

/-- A field that a text knows holds bytes that are UTF-8 under the number 1. -/
theorem of_textField {t t' : Bytes} {f : Field} (h : textField t f = .ok (some t')) :
    f.number = 1 ∧ f.payload = .bytes t' ∧ Utf8.isValid t' = true := by
  unfold textField at h
  split at h
  · rename_i bs hnumber hpayload
    obtain ⟨bs', htext, hresult⟩ := bind_eq_ok.1 h
    cases hresult
    have hvalid := of_checkedText htext
    rw [checkedText] at htext
    split at htext
    · cases htext
      exact ⟨hnumber, hpayload, hvalid⟩
    · cases htext
  · cases h

/-- A row in which every field is known says what the text is. It is the one field that the writer
would write, or it is longer. -/
theorem of_absorb_textField {t t' : Bytes} {fs : List Field} (hfs : ∀ f ∈ fs, Legible f)
    (h : absorb textField [] t fs = .ok (t', [])) :
    fs = [] ∧ t' = t ∨
      Utf8.isValid t' = true ∧ (fs = [bytesField 1 t']
        ∨ (bytesField 1 t').bytes.length < (fs.flatMap Field.bytes).length) := by
  induction fs generalizing t with
  | nil =>
      cases h
      exact .inl ⟨rfl, rfl⟩
  | cons f fs ih =>
      rw [List.forall_mem_cons] at hfs
      have hpos := List.length_pos_iff.2 f.bytes_ne_nil
      rw [absorb] at h
      split at h
      · cases h
      · rename_i contents hknown
        obtain ⟨hnumber, hpayload, hvalid⟩ := of_textField hknown
        right
        rw [List.flatMap_cons, List.length_append]
        rcases ih hfs.2 h with ⟨rfl, rfl⟩ | ⟨hvalid', hrow⟩
        · have hfield := hfs.1.eq_bytesField_or_lt hpayload
          rw [hnumber] at hfield
          refine ⟨hvalid, ?_⟩
          rcases hfield with hfield | hlt
          · exact .inl (by rw [hfield])
          · exact .inr (by simpa using hlt)
        · -- the fields before the last one only add to the length
          refine ⟨hvalid', .inr ?_⟩
          rcases hrow with rfl | hlt
          · simp only [List.flatMap_cons, List.flatMap_nil, List.append_nil]
            omega
          · omega
      · -- a field that is not known would have been kept
        have hle := length_le_of_absorb h
        simp only [List.reverse_cons, List.reverse_nil, List.nil_append, List.flatten_singleton,
          List.length_nil] at hle
        omega

/-- The field of a text; an empty one has none. -/
def Text.row (t : Text) : List Field := if t.value = [] then [] else [bytesField 1 t.value]

theorem Text.row_eq (t : Text) :
    t.row = [] ∨ t.value ≠ [] ∧ t.row = [bytesField 1 t.value] := by
  by_cases hvalue : t.value = []
  · exact .inl (if_pos hvalue)
  · exact .inr ⟨hvalue, if_neg hvalue⟩

theorem Text.encode_eq {t : Text} (h : t.unknown = []) : t.encode = t.row.flatMap Field.bytes := by
  unfold Text.encode Text.row
  rw [h, List.append_nil]
  by_cases hvalue : t.value = []
  · simp [hvalue]
  · simp [hvalue, bytes_bytesField]

theorem Text.decode_eq_ok_iff {bs : Bytes} {t : Text} :
    Text.codec.decode bs = .ok t
      ↔ Text.read bs = .ok t ∧ t.unknown = [] ∧ t.encode.length = bs.length := by
  constructor
  · intro h
    obtain ⟨m, hread, haccept⟩ := bind_eq_ok.1 h
    obtain ⟨rfl, hunknown, hlength⟩ := accept_eq_ok_iff.1 haccept
    exact ⟨mapError_eq_ok.1 hread, hunknown, hlength⟩
  · rintro ⟨hread, hunknown, hlength⟩
    exact bind_eq_ok.2 ⟨t, mapError_eq_ok.2 hread, accept_eq_ok_iff.2 ⟨rfl, hunknown, hlength⟩⟩

/-- The fields of an accepted input are those of its text, and its bytes are the text's encoding. -/
theorem Text.of_decode {bs : Bytes} {t : Text} (h : Text.codec.decode bs = .ok t) :
    t.unknown = [] ∧ Utf8.isValid t.value = true ∧ fields bs = .ok t.row ∧ bs = t.encode := by
  obtain ⟨hread, hunknown, hlength⟩ := Text.decode_eq_ok_iff.1 h
  obtain ⟨fs, hfields, hrest⟩ := bind_eq_ok.1 hread
  obtain ⟨⟨value, unknown⟩, habsorb, hresult⟩ := bind_eq_ok.1 hrest
  cases hresult
  cases hunknown
  have hinput := shortens_of_fields hfields
  have hle := hinput.length_le
  rcases of_absorb_textField (legible_of_fields hfields) habsorb with ⟨rfl, rfl⟩ | ⟨hvalid, hrow⟩
  · exact ⟨rfl, rfl, hfields, (hinput.eq hlength).symm⟩
  · have hwritten : (Text.mk value []).encode.length ≤ (bytesField 1 value).bytes.length := by
      rw [Text.encode_eq rfl, Text.row]
      split <;> simp
    rcases hrow with rfl | hlt
    · have hpos := List.length_pos_iff.2 (bytesField 1 value).bytes_ne_nil
      have hvalue : value ≠ [] := by
        rintro rfl
        simp only [List.flatMap_cons, List.flatMap_nil, List.append_nil] at hle
        simp [Text.encode] at hlength
        omega
      have hfs : (Text.mk value []).row = [bytesField 1 value] := if_neg hvalue
      refine ⟨rfl, hvalid, by rw [hfs, hfields], ?_⟩
      rw [Text.encode_eq rfl, hfs] at hlength ⊢
      exact (hinput.eq hlength).symm
    · omega

/-- The encoding of a text that is UTF-8 is read as that text. -/
theorem Text.decode_encode {t : Text} (hlength : t.value.length < wordCount)
    (hunknown : t.unknown = []) (hvalid : Utf8.isValid t.value = true) :
    Text.codec.decode t.encode = .ok t := by
  refine Text.decode_eq_ok_iff.2 ⟨?_, hunknown, rfl⟩
  have hlegible : ∀ f ∈ t.row, Legible f := by
    intro f hf
    rw [Text.row] at hf
    split at hf
    · cases hf
    · cases List.mem_singleton.1 hf
      exact legible_bytesField (by decide) (by decide) hlength
  rw [Text.encode_eq hunknown]
  refine bind_eq_ok.2 ⟨t.row, fields_flatMap hlegible, ?_⟩
  obtain ⟨value, unknown⟩ := t
  cases hunknown
  rw [Text.row]
  split
  · rename_i hvalue
    cases hvalue
    rfl
  · have hknown : textField [] (bytesField 1 value) = .ok (some value) :=
      bind_eq_ok.2 ⟨value, checkedText_eq hvalid, rfl⟩
    rw [absorb_cons_of_known hknown]
    rfl

theorem Text.length_value_le (t : Text) : t.value.length ≤ t.encode.length := by
  unfold Text.encode
  split
  · simp_all
  · simp only [lengthPrefixed, List.length_append]
    omega

/-! ## The one encoding -/

/-- The ways in which an input with these fields can be something else than the encoding of a text. -/
inductive Deviates (bs : Bytes) (fs : List Field) : Prop where
  | paddedTag (h : bs ≠ fs.flatMap Field.bytes)
  | paddedLength {f : Field} {contents : Bytes} (hf : f ∈ fs) (hpayload : f.payload = .bytes contents)
      (h : f.raw ≠ varintBytes contents.length ++ contents)
  | repeated (h : 2 ≤ fs.length)
  | empty {f : Field} (hf : f ∈ fs) (h : f.payload = .bytes [])
  | unknown {f : Field} (hf : f ∈ fs) (h : f.number ≠ 1 ∨ f.payload.code ≠ 2)

theorem Text.not_deviates {t : Text} (h : t.unknown = []) : ¬ Deviates t.encode t.row := by
  have hrow := t.row_eq
  intro hdeviates
  cases hdeviates with
  | paddedTag hne => exact hne (Text.encode_eq h)
  | paddedLength hf hpayload hne =>
      rcases hrow with hrow | ⟨-, hrow⟩
      · simp [hrow] at hf
      · cases List.mem_singleton.1 (hrow ▸ hf)
        cases hpayload
        exact hne rfl
  | repeated hle =>
      rcases hrow with hrow | ⟨-, hrow⟩ <;> simp [hrow] at hle
  | empty hf hpayload =>
      rcases hrow with hrow | ⟨hvalue, hrow⟩
      · simp [hrow] at hf
      · cases List.mem_singleton.1 (hrow ▸ hf)
        exact hvalue (Payload.bytes.inj hpayload)
  | unknown hf hne =>
      rcases hrow with hrow | ⟨-, hrow⟩
      · simp [hrow] at hf
      · cases List.mem_singleton.1 (hrow ▸ hf)
        rcases hne with hne | hne <;> exact hne rfl

theorem Text.toExcept_encode {t : Text} (hvalid : Utf8.isValid t.value = true) :
    (Text.codec.encode t).toExcept = .ok t.encode := by
  have hencode : Text.codec.encode t = Emission.once t.encode := if_pos hvalid
  rw [hencode]
  exact congrArg Except.ok (Emission.bytes_once _)

/-- Behind the encoding of a text that is not empty there is no other encoding to be found. -/
theorem Text.eq_nil_of_encode_append {t t' : Text} {s : Bytes} (h : t.unknown = [])
    (h' : t'.unknown = []) (hlegible : ∀ f ∈ t.row, Legible f) (hlegible' : ∀ f ∈ t'.row, Legible f)
    (hne : t.encode ≠ []) (heq : t.encode ++ s = t'.encode) : s = [] := by
  rw [Text.encode_eq h] at hne heq
  rw [Text.encode_eq h'] at heq
  rcases t.row_eq with hrow | ⟨-, hrow⟩
  · exact absurd (by rw [hrow, List.flatMap_nil]) hne
  rcases t'.row_eq with hrow' | ⟨-, hrow'⟩
  · rw [hrow', List.flatMap_nil] at heq
    exact (List.append_eq_nil_iff.1 heq).2
  rw [hrow, List.forall_mem_singleton] at hlegible
  rw [hrow', List.forall_mem_singleton] at hlegible'
  rw [hrow, hrow'] at heq
  simp only [List.flatMap_cons, List.flatMap_nil, List.append_nil] at heq
  -- a step that reads fields of either size finds the end of the field once
  have hread := hlegible.reads_field (Nat.le_add_right _ (bytesField 1 t'.value).raw.length) s
  have hread' := (hlegible'.reads_field (Nat.le_add_left _ (bytesField 1 t.value).raw.length)).eq_ok
  rw [heq, hread'] at hread
  exact (Prod.mk.inj (Except.ok.inj hread)).2.symm

/-- The codec of texts accepts the encodings of texts that are UTF-8, and nothing else: nothing that
is padded, repeated, empty or unknown, and nothing behind an encoding. -/
theorem Text.decode_eq_ok_iff_encode {bs : Bytes} (hbs : bs.length < wordCount) :
    (∀ t, Text.codec.decode bs = .ok t
      ↔ t.unknown = [] ∧ Utf8.isValid t.value = true ∧ (Text.codec.encode t).toExcept = .ok bs)
    ∧ (∀ fs, fields bs = .ok fs → Deviates bs fs → ∃ e, Text.codec.decode bs = .error e)
    ∧ ∀ t s, Text.codec.decode bs = .ok t → bs ≠ [] → s ≠ [] →
        ∃ e, Text.codec.decode (bs ++ s) = .error e := by
  refine ⟨fun t => ⟨?_, ?_⟩, ?_, ?_⟩
  · intro h
    obtain ⟨hunknown, hvalid, -, rfl⟩ := Text.of_decode h
    exact ⟨hunknown, hvalid, Text.toExcept_encode hvalid⟩
  · rintro ⟨hunknown, hvalid, hencode⟩
    rw [Text.toExcept_encode hvalid] at hencode
    obtain rfl := Except.ok.inj hencode
    exact Text.decode_encode (Nat.lt_of_le_of_lt t.length_value_le hbs) hunknown hvalid
  · intro fs hfields hdeviates
    cases h : Text.codec.decode bs with
    | error e => exact ⟨e, rfl⟩
    | ok t =>
        obtain ⟨hunknown, -, hrow, rfl⟩ := Text.of_decode h
        rw [hrow] at hfields
        obtain rfl := Except.ok.inj hfields
        exact absurd hdeviates (Text.not_deviates hunknown)
  · intro t s h hne hs
    cases h' : Text.codec.decode (bs ++ s) with
    | error e => exact ⟨e, rfl⟩
    | ok t' =>
        obtain ⟨hunknown, -, hrow, rfl⟩ := Text.of_decode h
        obtain ⟨hunknown', -, hrow', heq⟩ := Text.of_decode h'
        have hnil := Text.eq_nil_of_encode_append hunknown hunknown' (legible_of_fields hrow)
          (legible_of_fields hrow') hne heq
        exact absurd hnil hs

/-- The text `hi`, with a byte too many and with its length padded. -/
theorem Text.decode_hi :
    Text.codec.decode [0x0a, 2, 0x68, 0x69] = .ok ⟨[0x68, 0x69], []⟩
    ∧ (∃ e, Text.codec.decode [0x0a, 2, 0x68, 0x69, 0] = .error e)
    ∧ ∃ e, Text.codec.decode [0x0a, 0x82, 0, 0x68, 0x69] = .error e := by
  have hhi := Text.decode_eq_ok_iff_encode (show [0x0a, 2, 0x68, 0x69].length < wordCount by decide)
  have hdecode := (hhi.1 ⟨[0x68, 0x69], []⟩).2 ⟨rfl, by decide, by decide⟩
  refine ⟨hdecode, hhi.2.2 _ [0] hdecode (by decide) (by decide), ?_⟩
  have hpadded := Text.decode_eq_ok_iff_encode
    (show [0x0a, 0x82, 0, 0x68, 0x69].length < wordCount by decide)
  exact hpadded.2.1 [⟨1, .bytes [0x68, 0x69], [0x82, 0, 0x68, 0x69]⟩] (by decide)
    (.paddedLength (List.mem_singleton_self _) rfl (by decide))

end RoundTrip.Protobuf
