import RoundTrip.Msgpack.Reading
import RoundTrip.Proofs.Msgpack.Canonical
import RoundTrip.Proofs.Readings.Fields

/-!
# Readings in MessagePack

Texts and lists have lengths of up to 32 bits. A reading whose lengths are such is read back from what
is written for it, and no other reading is ever read.

Main statement: `readingCodec_restores_iff`.
-/

set_option autoImplicit false

namespace RoundTrip.Msgpack

open Step

/-! ## Fields -/

/-- Only the forms of integers give integers. -/
theorem isInteger_of_valueOf {value : Step Error Value} {c : UInt8} {form : Form} {bs rest : Bytes}
    {v : Value} {n : Int} (h : valueOf value c form bs = .ok (v, rest)) (hv : v.integer? = some n) :
    (∃ k, form = .small k) ∨ (∃ w, form = .unsigned w) ∨ ∃ w, form = .signed w := by
  cases form with
  | small k => exact .inl ⟨k, rfl⟩
  | unsigned w => exact .inr (.inl ⟨w, rfl⟩)
  | signed w => exact .inr (.inr ⟨w, rfl⟩)
  | nil | bool _ =>
      cases h
      cases hv
  | float32 | float64 =>
      obtain ⟨_, -, hresult⟩ := bind_eq_ok.1 h
      cases hresult
      cases hv
  | text _ | binary _ | list _ | map _ =>
      -- a length, and then what the length is of
      obtain ⟨_, -, hrest⟩ := bind_eq_ok.1 h
      obtain ⟨_, -, hresult⟩ := bind_eq_ok.1 hrest
      cases hresult
      cases hv
  | extension s =>
      obtain ⟨_, -, hrest⟩ := bind_eq_ok.1 h
      obtain ⟨_, -, hrest⟩ := bind_eq_ok.1 hrest
      dsimp only at hrest
      split at hrest
      · cases hrest
      · obtain ⟨_, -, hrest⟩ := bind_eq_ok.1 hrest
        obtain ⟨_, -, hresult⟩ := bind_eq_ok.1 hrest
        cases hresult
        cases hv
  | unused => cases h

/-- An integer is the same to the reader of integers and to the reader of values. -/
theorem integerStep_of_valueStep {levels : Nat} {bs rest : Bytes} {v : Value} {n : Int}
    (h : valueStep (levels + 1) bs = .ok (v, rest)) (hv : v.integer? = some n) (hn : FitsWord n) :
    integerStep bs = .ok (n, rest) := by
  obtain ⟨⟨c, tail⟩, hcode, hvalue⟩ := bind_eq_ok.1 h
  refine bind_eq_ok.2 ⟨(c, tail), hcode, ?_⟩
  dsimp only at hvalue ⊢
  rcases isInteger_of_valueOf hvalue hv with ⟨k, hform⟩ | ⟨w, hform⟩ | ⟨w, hform⟩
  · rw [hform] at hvalue ⊢
    cases hvalue
    cases hv
    rfl
  · -- an unsigned number passes through a signed word, which it fits
    rw [hform] at hvalue ⊢
    obtain ⟨⟨k, tail'⟩, hnumber, hresult⟩ := bind_eq_ok.1 hvalue
    cases hresult
    cases hv
    refine bind_eq_ok.2 ⟨_, hnumber, ?_⟩
    dsimp only
    rw [signedWord_eq hn]
    rfl
  · rw [hform] at hvalue ⊢
    obtain ⟨⟨k, tail'⟩, hnumber, hresult⟩ := bind_eq_ok.1 hvalue
    cases hresult
    cases hv
    exact bind_eq_ok.2 ⟨_, hnumber, rfl⟩

theorem reads_integerStep {n : Int} (h : FitsWord n) : Reads integerStep (integer n).bytes n := by
  have hrange : InRange n := ⟨h.1, Int.lt_trans h.2 (by decide)⟩
  obtain ⟨v, hv, hreads⟩ := reads_integer hrange
  intro s
  exact integerStep_of_valueStep (hreads 0 s) hv h

theorem reads_textsStep {tags : List Bytes} (hcount : tags.length < 0x100000000)
    (htags : ∀ t ∈ tags, t.length < 0x100000000) :
    Reads textsStep ((listHeader tags.length).bytes ++ (tags.map keyBytes).flatten) (some tags) := by
  obtain ⟨c, field, s, hhead, hform, hsize⟩ := listHeader_opens hcount
  have htexts : Reads (Step.times string tags.length) (tags.map keyBytes).flatten tags := by
    apply Reads.times
    exact List.forall₂_map_left_iff.2 (List.forall₂_same.2 fun t ht => reads_key (htags t ht))
  rw [hhead]
  have hcode : Reads code [c] c := fun _ => rfl
  refine hcode.bind ?_
  intro rest
  dsimp only
  rw [hform]
  exact (hsize.bind (htexts.returning some)) rest

/-- The lengths in the reading fit their fields. -/
structure Fits (r : Reading) : Prop where
  texts : ∀ t ∈ r.texts, t.length < 0x100000000
  count : r.tagCount < 0x100000000

/-- The bytes of a field. -/
def fieldBytes (r : Reading) (f : Reading.Field) : Bytes := (fieldWrites r f).flatMap Write.bytes

theorem text_bytes (bs : Bytes) : (text bs).flatMap Write.bytes = keyBytes bs := by
  simp [text, keyBytes]

theorem reads_tags {r : Reading} (hr : Fits r) : Reads textsStep (fieldBytes r .tags) r.tags := by
  cases hr' : r.tags with
  | none =>
      have hbytes : fieldBytes r .tags = [0xc0] := by simp [fieldBytes, fieldWrites, hr']
      rw [hbytes]
      exact fun _ => rfl
  | some tags =>
      have hbytes : fieldBytes r .tags
          = (listHeader tags.length).bytes ++ (tags.map keyBytes).flatten := by
        simp only [fieldBytes, fieldWrites, hr', List.flatMap_cons, List.flatMap_assoc, text_bytes]
        rfl
      have htexts : ∀ t ∈ tags, t.length < 0x100000000 := by
        intro t ht
        exact hr.texts t (List.mem_cons_of_mem _ (by simpa [hr'] using ht))
      have hcount : tags.length < 0x100000000 := by
        simpa [Reading.tagCount, hr'] using hr.count
      rw [hbytes]
      exact reads_textsStep hcount htexts

theorem reads_fieldStep {r a : Reading} (hvalue : FitsWord r.value) (hr : Fits r)
    (htags : r.tags = none → a.tags = none) (f : Reading.Field) :
    Reads (fieldStep a f) (fieldBytes r f) (r.put a f) := by
  cases f with
  | sensor =>
      have hsensor := reads_key (hr.texts r.sensor List.mem_cons_self)
      rw [fieldBytes, fieldWrites, text_bytes]
      exact hsensor.returning fun s => { a with sensor := s }
  | value =>
      have hbytes : fieldBytes r .value = (integer r.value).bytes := by
        simp [fieldBytes, fieldWrites]
      rw [hbytes]
      exact (reads_integerStep hvalue).returning fun n => { a with value := n }
  | tags =>
      -- nil leaves the tags as they are, so there must have been none
      have hput : r.put a .tags = { a with tags := r.tags.or a.tags } := by
        cases hr' : r.tags with
        | none => rw [Reading.put, hr', htags hr', Option.or_none]
        | some tags => rw [Reading.put, hr', Option.some_or]
      rw [hput]
      exact (reads_tags hr).returning fun tags => { a with tags := tags.or a.tags }

/-! ## Records -/

theorem reads_namedFields {skip : Step Error Unit} {r : Reading} (hvalue : FitsWord r.value)
    (hr : Fits r) (fs : List Reading.Field) {a : Reading} (htags : r.tags = none → a.tags = none) :
    Reads (namedFields skip fs.length a) (fs.flatMap fun f => keyBytes f.key ++ fieldBytes r f)
      (r.fill fs a) := by
  induction fs generalizing a with
  | nil => exact fun _ => rfl
  | cons f fs ih =>
      intro s
      have hkey := reads_key (Nat.lt_trans f.length_key_lt (by decide))
      have hfield := reads_fieldStep hvalue hr htags f
      have htags' : r.tags = none → (r.put a f).tags = none := by
        intro hnone
        cases f with
        | tags => exact hnone
        | sensor => exact htags hnone
        | value => exact htags hnone
      rw [List.flatMap_cons, List.append_assoc, List.append_assoc, List.length_cons, namedFields,
        hkey, Reading.fill_cons]
      dsimp only
      rw [f.find?_key]
      dsimp only
      rw [hfield]
      exact ih htags' s

/-- All bytes of a reading. -/
def readingBytes (r : Reading) : Bytes := (readingWrites r).flatMap Write.bytes

theorem reads_readingStep {r : Reading} (hvalue : FitsWord r.value) (hr : Fits r) (length : Nat) :
    Reads (readingStep length) (readingBytes r) r := by
  have hbytes : readingBytes r = 0x83 :: Reading.Field.all.flatMap fun f =>
      keyBytes f.key ++ fieldBytes r f := by
    rw [readingBytes, readingWrites, List.flatMap_cons, List.flatMap_assoc]
    simp only [List.flatMap_append, text_bytes]
    rfl
  have hfields := @reads_namedFields (skipStep length) r hvalue hr Reading.Field.all .blank
    fun _ => rfl
  rw [hbytes]
  exact hfields

/-! ## What is read -/

theorem fits_blank : Fits .blank := ⟨by decide, by decide⟩

theorem fits_iff {r : Reading} : Fits r ↔ r.sensor.length < 0x100000000 ∧
    ∀ tags, r.tags = some tags → tags.length < 0x100000000 ∧ ∀ t ∈ tags, t.length < 0x100000000 := by
  constructor
  · rintro ⟨htexts, hcount⟩
    refine ⟨htexts r.sensor List.mem_cons_self, ?_⟩
    intro tags htags
    rw [Reading.tagCount, htags] at hcount
    refine ⟨hcount, fun t ht => htexts t (List.mem_cons_of_mem _ ?_)⟩
    rwa [htags]
  · rintro ⟨hsensor, htags⟩
    cases h : r.tags with
    | none => exact ⟨by simpa [Reading.texts, h], by simp [Reading.tagCount, h]⟩
    | some tags =>
        obtain ⟨hcount, htexts⟩ := htags tags h
        refine ⟨List.forall_mem_cons.2 ⟨hsensor, ?_⟩, ?_⟩
        · rwa [h]
        · rwa [Reading.tagCount, h]

theorem of_textsStep {bs rest : Bytes} {tags : List Bytes}
    (h : textsStep bs = .ok (some tags, rest)) :
    tags.length < 0x100000000 ∧ ∀ t ∈ tags, t.length < 0x100000000 := by
  obtain ⟨⟨c, tail⟩, -, hrest⟩ := bind_eq_ok.1 h
  have hsound := ofCode_sound c
  dsimp only at hrest
  split at hrest
  · cases hrest
  · rename_i s hform
    obtain ⟨⟨n, tail⟩, hsize, hrest⟩ := bind_eq_ok.1 hrest
    obtain ⟨⟨texts, tail⟩, htimes, hresult⟩ := bind_eq_ok.1 hrest
    cases hresult
    obtain ⟨hlength, hread⟩ := of_times htimes
    rw [hform] at hsound
    refine ⟨?_, ?_⟩
    · rw [hlength]
      exact of_size hsound hsize
    · intro t ht
      obtain ⟨bs', rest', hstring⟩ := hread t ht
      exact of_string hstring
  · cases hrest

/-- A field with lengths of more than 32 bits is never read. -/
theorem fits_of_fieldStep {a a' : Reading} {f : Reading.Field} {bs rest : Bytes} (ha : Fits a)
    (h : fieldStep a f bs = .ok (a', rest)) : Fits a' := by
  rw [fits_iff] at ha ⊢
  cases f with
  | sensor =>
      obtain ⟨⟨s, tail⟩, hstring, hresult⟩ := bind_eq_ok.1 h
      cases hresult
      exact ⟨of_string hstring, ha.2⟩
  | value =>
      obtain ⟨⟨n, tail⟩, -, hresult⟩ := bind_eq_ok.1 h
      cases hresult
      exact ha
  | tags =>
      obtain ⟨⟨texts, tail⟩, htexts, hresult⟩ := bind_eq_ok.1 h
      cases hresult
      refine ⟨ha.1, ?_⟩
      intro tags htags
      cases texts with
      | none => exact ha.2 tags htags
      | some texts =>
          cases htags
          exact of_textsStep htexts

theorem fits_of_namedFields {skip : Step Error Unit} {n : Nat} {a a' : Reading} {bs rest : Bytes}
    (ha : Fits a) (h : namedFields skip n a bs = .ok (a', rest)) : Fits a' := by
  induction n generalizing a bs with
  | zero =>
      cases h
      exact ha
  | succ n ih =>
      rw [namedFields] at h
      split at h
      · cases h
      split at h
      · split at h
        · cases h
        · rename_i hfield
          exact ih (fits_of_fieldStep ha hfield) h
      · split at h
        · cases h
        · exact ih ha h

theorem fits_of_orderedFields {fs : List Reading.Field} {a a' : Reading} {bs rest : Bytes}
    (ha : Fits a) (h : orderedFields fs a bs = .ok (a', rest)) : Fits a' := by
  induction fs generalizing a bs with
  | nil =>
      cases h
      exact ha
  | cons f fs ih =>
      obtain ⟨⟨a'', tail⟩, hfield, hrest⟩ := bind_eq_ok.1 h
      exact ih (fits_of_fieldStep ha hfield) hrest

theorem fits_of_readingStep {length : Nat} {r : Reading} {bs rest : Bytes}
    (h : readingStep length bs = .ok (r, rest)) : Fits r := by
  obtain ⟨⟨c, tail⟩, -, hrest⟩ := bind_eq_ok.1 h
  dsimp only at hrest
  split at hrest
  · cases hrest
    exact fits_blank
  · obtain ⟨⟨n, tail⟩, -, hrest⟩ := bind_eq_ok.1 hrest
    exact fits_of_namedFields fits_blank hrest
  · split at hrest
    · cases hrest
    · cases hrest
      exact fits_blank
    · split at hrest
      · exact fits_of_orderedFields fits_blank hrest
      · cases hrest
  · cases hrest

/-! ## Whole inputs -/

theorem readingCodec_decode_eq_ok_iff {bs : Bytes} {r : Reading} :
    readingCodec.decode bs = .ok r ↔ readingStep bs.length bs = .ok (r, []) :=
  exact_ofRest_eq_ok_iff.trans mapError_eq_ok

/-- **A reading is read back exactly when its lengths fit.** -/
theorem readingCodec_restores_iff {r : Reading} (hvalue : FitsWord r.value) :
    readingCodec.decode (readingCodec.encode r).bytes = .ok r ↔ Fits r := by
  rw [readingCodec_decode_eq_ok_iff]
  constructor
  · exact fits_of_readingStep
  · intro hr
    exact (reads_readingStep hvalue hr _).eq_ok

end RoundTrip.Msgpack
