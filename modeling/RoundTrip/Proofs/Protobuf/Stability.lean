import RoundTrip.Proofs.Protobuf.Shapes
import RoundTrip.Protobuf.Writer

/-!
# Structs that are written and read again

A message of a shape is read back from its bytes: known fields come first and add up to the message,
and those behind them are unknown to the schema and are kept. This holds on every level of nesting
as long as lengths fit a word of 64 bits.

Main statement: `Struct.decode_encode_stable`.
-/

set_option autoImplicit false

namespace RoundTrip.Protobuf

open Step

/-! ## Messages of a shape are read again -/

theorem encodeFields_eq (fs : List (Bytes × Value)) (done : List (Bytes × Bytes)) :
    encodeFields fs done = done.reverse ++ fs.map fun e => (e.1, e.2.encode) := by
  induction fs generalizing done with
  | nil => simp [encodeFields]
  | cons e fs ih => simp [encodeFields, ih]

theorem encodeValues_eq (vs : List Value) (done : List Bytes) :
    encodeValues vs done = done.reverse ++ vs.map Value.encode := by
  induction vs generalizing done with
  | nil => simp [encodeValues]
  | cons v vs ih => simp [encodeValues, ih]

/-- The field of an entry. -/
def entryFieldOf (e : Bytes × Value) : Field :=
  bytesField 1 (lengthPrefixed 1 e.1 ++ lengthPrefixed 2 e.2.encode)

theorem Struct.encode_eq {s : Struct} (h : Entries.Increasing s.fields) :
    s.encode = (s.fields.map entryFieldOf).flatMap Field.bytes ++ s.unknown := by
  have hincreasing : Entries.Increasing (s.fields.map fun e => (e.1, e.2.encode)) :=
    h.of_keys (by simp)
  rw [Struct.encode, encodeFields_eq, List.reverse_nil, List.nil_append,
    Entries.sort_eq_self hincreasing.le, List.flatMap_map, List.flatMap_map]
  simp only [entryFieldOf, bytes_bytesField, entryBytes]

/-- The bytes of a list. -/
def encodeList (vs : List Value) (unknown : Bytes) : Bytes :=
  (vs.map fun v => bytesField 1 v.encode).flatMap Field.bytes ++ unknown

/-- The field that says what a value is. -/
def Kind.field? : Kind → Option Field
  | .unset => none
  | .null n => some (varintField 1 (unsignedWord n))
  | .number bits => some (fixedField 2 bits.toNat)
  | .text bs => some (bytesField 3 bs)
  | .bool b => some (varintField 4 (if b then 1 else 0))
  | .struct fields unknown => some (bytesField 5 (Struct.encode ⟨fields, unknown⟩))
  | .list values unknown => some (bytesField 6 (encodeList values unknown))

theorem Kind.encode_eq (k : Kind) : k.encode = k.field?.toList.flatMap Field.bytes := by
  cases k with
  | unset => rfl
  | null n => simp [Kind.encode, Kind.field?, varintField, Field.bytes, Payload.code]
  | number bits => simp [Kind.encode, Kind.field?, fixedField, Field.bytes, Payload.code]
  | text bs => simp [Kind.encode, Kind.field?, bytes_bytesField]
  | bool b => cases b <;> rfl
  | struct fields unknown => simp [Kind.encode, Kind.field?, bytes_bytesField, Struct.encode]
  | list values unknown =>
      simp [Kind.encode, Kind.field?, bytes_bytesField, encodeList, encodeValues_eq,
        List.flatMap_map]

/-- Level `n` reads the values of its shape back from their bytes. -/
def ValuesRestored (n : Nat) : Prop :=
  ∀ v, (shape n).value v → v.encode.length < wordCount →
    (level n).value (.mk .unset []) v.encode = .ok v

/-- Level `n` reads the structs of its shape back from their bytes. -/
def StructsRestored (n : Nat) : Prop :=
  ∀ s, (shape n).struct s → s.encode.length < wordCount →
    (level n).struct ⟨[], []⟩ s.encode = .ok s

/-- Level `n` reads the lists of its shape back from their bytes. -/
def ListsRestored (n : Nat) : Prop :=
  ∀ vs unknown, (shape n).list vs unknown → (encodeList vs unknown).length < wordCount →
    (level n).list [] [] (encodeList vs unknown) = .ok (vs, unknown)

/-- A row of legible fields in front of unread ones. -/
theorem fields_append {σ : Type} {known : σ → Field → Except Error (Option σ)} {fs : List Field}
    {unknown : Bytes} (hfs : ∀ f ∈ fs, Legible f) (hunknown : Unread known unknown) :
    ∃ us, fields (fs.flatMap Field.bytes ++ unknown) = .ok (fs ++ us)
      ∧ ∀ before m, absorb known before m us = .ok (m, before.reverse.flatten ++ unknown) := by
  obtain ⟨us, hus, rfl⟩ := hunknown
  refine ⟨us, ?_, ?_⟩
  · rw [← List.flatMap_append]
    apply fields_flatMap
    intro f hf
    rcases List.mem_append.1 hf with hf | hf
    · exact hfs f hf
    · exact (hus f hf).1
  · intro before m
    exact absorb_foreign fun u hu => (hus u hu).2

theorem length_le_bytesField (number : Nat) (contents : Bytes) :
    contents.length ≤ (bytesField number contents).bytes.length := by
  rw [bytes_bytesField, lengthPrefixed, List.length_append]
  omega

theorem checkedText_eq {bs : Bytes} (h : Utf8.isValid bs = true) : checkedText bs = .ok bs :=
  if_pos h

theorem unsignedWord_lt (n : Int) : unsignedWord n < wordCount := by
  simp only [unsignedWord, wordCount]
  omega

theorem word32_unsignedWord {n : Int} (h : -0x80000000 ≤ n ∧ n < 0x80000000) :
    word32 (unsignedWord n) = n := by
  have hword : (unsignedWord n : Int) = n % 0x10000000000000000 := by
    simp only [unsignedWord, wordCount]
    omega
  unfold word32
  simp only [hword, Int.bmod]
  omega

theorem kindField_restored {n : Nat} (hstruct : StructsRestored n) (hlist : ListsRestored n)
    {k : Kind} (hk : k.Within (shape n)) (hlength : k.encode.length < wordCount) {f : Field}
    (hf : k.field? = some f) : Legible f ∧ kindField (level n) .unset f = .ok (some k) := by
  have hbytes : f.bytes.length < wordCount := by
    rw [k.encode_eq, hf] at hlength
    simpa using hlength
  cases k with
  | unset => cases hf
  | null m =>
      cases hf
      refine ⟨legible_varintField (by decide) (by decide) (unsignedWord_lt m), ?_⟩
      · simp only [kindField, varintField]
        rw [word32_unsignedWord hk]
  | number bits =>
      cases hf
      refine ⟨legible_fixedField (by decide) (by decide) bits.toNat_lt, ?_⟩
      simp [kindField, fixedField]
  | text bs =>
      cases hf
      have hle := length_le_bytesField 3 bs
      refine ⟨legible_bytesField (by decide) (by decide) (by omega), ?_⟩
      simp only [kindField, bytesField, checkedText_eq hk]
      rfl
  | bool b =>
      cases hf
      refine ⟨legible_varintField (by decide) (by decide) ?_, ?_⟩
      · cases b <;> decide
      · cases b <;> simp [kindField, varintField]
  | struct fields unknown =>
      cases hf
      have hle := length_le_bytesField 5 (Struct.encode ⟨fields, unknown⟩)
      refine ⟨legible_bytesField (by decide) (by decide) (by omega), ?_⟩
      simp only [kindField, bytesField]
      rw [hstruct _ hk (by omega)]
      rfl
  | list values unknown =>
      cases hf
      have hle := length_le_bytesField 6 (encodeList values unknown)
      refine ⟨legible_bytesField (by decide) (by decide) (by omega), ?_⟩
      simp only [kindField, bytesField]
      rw [hlist _ _ hk (by omega)]
      rfl

theorem valuesRestored_succ {n : Nat} (hstruct : StructsRestored n) (hlist : ListsRestored n) :
    ValuesRestored (n + 1) := by
  rintro ⟨kind, unknown⟩ ⟨hkind, hunknown⟩ hlength
  rw [Value.encode, List.length_append] at hlength
  have hfield : ∀ f, kind.field? = some f →
      Legible f ∧ kindField (level n) .unset f = .ok (some kind) :=
    fun f => kindField_restored hstruct hlist hkind (by omega)
  have hfs : ∀ f ∈ kind.field?.toList, Legible f := by
    intro f hf
    exact (hfield f (Option.mem_toList.1 hf)).1
  obtain ⟨us, hfields, hus⟩ := fields_append hfs hunknown
  rw [Value.encode, kind.encode_eq]
  refine bind_eq_ok.2 ⟨_, hfields, bind_eq_ok.2 ⟨(kind, unknown), ?_, rfl⟩⟩
  cases hkindField : kind.field? with
  | none =>
      have hunset : kind = .unset := by
        cases kind with
        | unset => rfl
        | _ => cases hkindField
      rw [hunset]
      exact hus [[]] .unset
  | some f =>
      change absorb (kindField (level n)) [[]] .unset (f :: us) = _
      rw [absorb_cons_of_known (hfield f hkindField).2]
      exact hus [[]] kind

theorem entry_restored {value : Value → Bytes → Except Error Value} {e : Bytes × Value}
    (hname : Utf8.isValid e.1 = true)
    (hvalue : e.2.encode.length < wordCount → value (.mk .unset []) e.2.encode = .ok e.2)
    (hlength : (entryFieldOf e).bytes.length < wordCount) :
    Legible (entryFieldOf e) ∧
      ∀ es, structField value es (entryFieldOf e) = .ok (some (e :: es)) := by
  have hle := length_le_bytesField 1 (lengthPrefixed 1 e.1 ++ lengthPrefixed 2 e.2.encode)
  change _ ≤ (entryFieldOf e).bytes.length at hle
  rw [← bytes_bytesField, ← bytes_bytesField, List.length_append] at hle
  have hname' := length_le_bytesField 1 e.1
  have hvalue' := length_le_bytesField 2 e.2.encode
  refine ⟨legible_bytesField (by decide) (by decide) ?_, ?_⟩
  · rw [← bytes_bytesField, ← bytes_bytesField, List.length_append]
    omega
  · intro es
    have hfields : fields (lengthPrefixed 1 e.1 ++ lengthPrefixed 2 e.2.encode)
        = .ok [bytesField 1 e.1, bytesField 2 e.2.encode] := by
      have hlegible : ∀ f ∈ [bytesField 1 e.1, bytesField 2 e.2.encode], Legible f := by
        intro f hf
        simp only [List.mem_cons, List.not_mem_nil, or_false] at hf
        rcases hf with rfl | rfl
        · exact legible_bytesField (by decide) (by decide) (by omega)
        · exact legible_bytesField (by decide) (by decide) (by omega)
      simpa [bytes_bytesField] using fields_flatMap hlegible
    have hentry : entry value (lengthPrefixed 1 e.1 ++ lengthPrefixed 2 e.2.encode) = .ok e := by
      refine bind_eq_ok.2 ⟨_, hfields, bind_eq_ok.2 ⟨(e, []), ?_, rfl⟩⟩
      have hfirst : entryField value ([], .mk .unset []) (bytesField 1 e.1)
          = .ok (some (e.1, .mk .unset [])) := by
        simp only [entryField, bytesField]
        rw [checkedText_eq hname]
        rfl
      have hsecond : entryField value (e.1, .mk .unset []) (bytesField 2 e.2.encode)
          = .ok (some e) := by
        simp only [entryField, bytesField]
        rw [hvalue (by omega)]
        rfl
      rw [absorb_cons_of_known hfirst, absorb_cons_of_known hsecond]
      rfl
    simp only [structField, entryFieldOf, bytesField]
    rw [hentry]
    rfl

theorem structsRestored_succ {n : Nat} (hvalue : ValuesRestored n) : StructsRestored (n + 1) := by
  rintro s ⟨hincreasing, hmembers, hunknown⟩ hlength
  rw [Struct.encode_eq hincreasing, List.length_append] at hlength
  have hentry : ∀ e ∈ s.fields, Legible (entryFieldOf e) ∧
      ∀ es, structField (level n).value es (entryFieldOf e) = .ok (some (e :: es)) := by
    intro e he
    have hle : (entryFieldOf e).bytes.length
        ≤ ((s.fields.map entryFieldOf).flatMap Field.bytes).length :=
      length_le_flatMap (List.mem_map_of_mem he)
    obtain ⟨hname, hshape⟩ := hmembers e he
    exact entry_restored hname (hvalue e.2 hshape) (by omega)
  have hfs : ∀ f ∈ s.fields.map entryFieldOf, Legible f := by
    intro f hf
    obtain ⟨e, he, rfl⟩ := List.mem_map.1 hf
    exact (hentry e he).1
  obtain ⟨us, hfields, hus⟩ := fields_append hfs hunknown
  rw [Struct.encode_eq hincreasing]
  refine bind_eq_ok.2 ⟨_, hfields, bind_eq_ok.2 ⟨(s.fields.reverse, s.unknown), ?_, ?_⟩⟩
  · rw [absorb_map fun e he => (hentry e he).2, hus]
    simp
  · simp only [List.reverse_reverse, Entries.ofPairs_eq_self hincreasing]
    rfl

theorem listsRestored_succ {n : Nat} (hvalue : ValuesRestored n) : ListsRestored (n + 1) := by
  rintro vs unknown ⟨hmembers, hunknown⟩ hlength
  rw [encodeList, List.length_append] at hlength
  have hitem : ∀ v ∈ vs, Legible (bytesField 1 v.encode) ∧
      ∀ ws, listField (level n).value ws (bytesField 1 v.encode) = .ok (some (v :: ws)) := by
    intro v hv
    have hle : (bytesField 1 v.encode).bytes.length
        ≤ ((vs.map fun v => bytesField 1 v.encode).flatMap Field.bytes).length :=
      length_le_flatMap (List.mem_map_of_mem hv)
    have hcontents := length_le_bytesField 1 v.encode
    refine ⟨legible_bytesField (by decide) (by decide) (by omega), ?_⟩
    intro ws
    simp only [listField, bytesField]
    rw [hvalue v (hmembers v hv) (by omega)]
    rfl
  have hfs : ∀ f ∈ vs.map fun v => bytesField 1 v.encode, Legible f := by
    intro f hf
    obtain ⟨v, hv, rfl⟩ := List.mem_map.1 hf
    exact (hitem v hv).1
  obtain ⟨us, hfields, hus⟩ := fields_append hfs hunknown
  refine bind_eq_ok.2 ⟨_, hfields, bind_eq_ok.2 ⟨(vs.reverse, unknown), ?_, ?_⟩⟩
  · rw [absorb_map fun v hv => (hitem v hv).2, hus]
    simp
  · simp only [List.reverse_reverse]
    rfl

/-- **The messages of a shape are read back from their bytes.** -/
theorem level_restored (n : Nat) : ValuesRestored n ∧ StructsRestored n ∧ ListsRestored n := by
  induction n with
  | zero => exact ⟨fun _ h => h.elim, fun _ h => h.elim, fun _ _ h => h.elim⟩
  | succ n ih =>
      obtain ⟨hvalue, hstruct, hlist⟩ := ih
      exact ⟨valuesRestored_succ hstruct hlist, structsRestored_succ hvalue,
        listsRestored_succ hvalue⟩

/-! ## Texts are UTF-8 -/

theorem fieldsAreUtf8_iff {fs : List (Bytes × Value)} :
    fieldsAreUtf8 fs = true ↔ ∀ e ∈ fs, Utf8.isValid e.1 = true ∧ e.2.isUtf8 = true := by
  induction fs with
  | nil => simp [fieldsAreUtf8]
  | cons e fs ih => simp [fieldsAreUtf8, ih, and_assoc]

theorem valuesAreUtf8_iff {vs : List Value} :
    valuesAreUtf8 vs = true ↔ ∀ v ∈ vs, v.isUtf8 = true := by
  induction vs with
  | nil => simp [valuesAreUtf8]
  | cons v vs ih => simp [valuesAreUtf8, ih]

/-- All texts in a message of a shape are UTF-8. -/
theorem shape_isUtf8 (n : Nat) :
    (∀ v, (shape n).value v → v.isUtf8 = true)
      ∧ (∀ s, (shape n).struct s → fieldsAreUtf8 s.fields = true)
      ∧ ∀ vs unknown, (shape n).list vs unknown → valuesAreUtf8 vs = true := by
  induction n with
  | zero => exact ⟨fun _ h => h.elim, fun _ h => h.elim, fun _ _ h => h.elim⟩
  | succ n ih =>
      obtain ⟨hvalue, hstruct, hlist⟩ := ih
      refine ⟨?_, ?_, ?_⟩
      · rintro ⟨kind, unknown⟩ ⟨hkind, -⟩
        cases kind with
        | text bs => exact hkind
        | struct fields unknown => exact hstruct _ hkind
        | list values unknown => exact hlist _ _ hkind
        | _ => rfl
      · rintro s ⟨-, hmembers, -⟩
        apply fieldsAreUtf8_iff.2
        intro e he
        exact ⟨(hmembers e he).1, hvalue e.2 (hmembers e he).2⟩
      · rintro vs unknown ⟨hmembers, -⟩
        apply valuesAreUtf8_iff.2
        intro v hv
        exact hvalue v (hmembers v hv)

/-! ## Main statement -/

theorem accept_eq_ok_iff {α : Type} {unknown encoding : α → Bytes} {length : Nat} {m m' : α} :
    accept unknown encoding length m = .ok m'
      ↔ m' = m ∧ unknown m = [] ∧ (encoding m).length = length := by
  rw [accept]
  split
  · rename_i hpos
    have hne : unknown m ≠ [] := List.length_pos_iff.1 hpos
    simp [hne]
  · rename_i hzero
    have hnil : unknown m = [] := List.length_eq_zero_iff.1 (by omega)
    split
    · rename_i hlength
      simp [hlength]
    · rename_i hlength
      simp only [Except.ok.injEq, hnil, true_and]
      constructor
      · rintro rfl
        exact ⟨rfl, by omega⟩
      · exact fun h => h.1.symm

theorem Struct.decode_eq_ok_iff {bs : Bytes} {s : Struct} :
    Struct.codec.decode bs = .ok s
      ↔ Struct.read bs = .ok s ∧ s.unknown = [] ∧ s.encode.length = bs.length := by
  constructor
  · intro h
    obtain ⟨m, hread, haccept⟩ := bind_eq_ok.1 h
    obtain ⟨rfl, hunknown, hlength⟩ := accept_eq_ok_iff.1 haccept
    exact ⟨mapError_eq_ok.1 hread, hunknown, hlength⟩
  · rintro ⟨hread, hunknown, hlength⟩
    exact bind_eq_ok.2 ⟨s, mapError_eq_ok.2 hread, accept_eq_ok_iff.2 ⟨rfl, hunknown, hlength⟩⟩

/-- **An accepted struct is written in as many bytes as it was read from, and these are read as the
same struct.** -/
theorem Struct.decode_encode_stable {bs : Bytes} {s : Struct} (hbs : bs.length < wordCount)
    (h : Struct.codec.decode bs = .ok s) :
    s.unknown = [] ∧ (Struct.codec.encode s).failure = none
      ∧ (Struct.codec.encode s).bytes.length = bs.length
      ∧ Struct.codec.decode (Struct.codec.encode s).bytes = .ok s
      ∧ ∀ s', Struct.codec.decode (Struct.codec.encode s).bytes = .ok s' →
          (Struct.codec.encode s').bytes = (Struct.codec.encode s).bytes := by
  obtain ⟨hread, hunknown, hlength⟩ := decode_eq_ok_iff.1 h
  -- structs stand on the even levels, and the outermost one on level `maxMessages`
  have hshape : (shape maxMessages).struct s :=
    (even_kept 5000).1 _ _ _ (fun _ => struct_empty 9999) hread
  have hutf8 := (shape_isUtf8 maxMessages).2.1 s hshape
  have hencode : Struct.codec.encode s = Emission.once s.encode := if_pos hutf8
  have hagain : Struct.read s.encode = .ok s :=
    (level_restored maxMessages).2.1 s hshape (by omega)
  rw [hencode, Emission.bytes_once]
  have hdecode : Struct.codec.decode s.encode = .ok s :=
    decode_eq_ok_iff.2 ⟨hagain, hunknown, rfl⟩
  refine ⟨hunknown, rfl, hlength, hdecode, ?_⟩
  intro s' hs'
  obtain rfl : s = s' := Except.ok.inj (hdecode.symm.trans hs')
  rw [hencode, Emission.bytes_once]

/-- Names out of order, and a field inside a value that no schema knows. -/
theorem Struct.decode_encode_stable_unordered :
    Struct.codec.decode
        [0x0a, 7, 0x0a, 1, 0x62, 0x12, 2, 0x78, 1, 0x0a, 7, 0x0a, 1, 0x61, 0x12, 2, 0x20, 1]
        = .ok ⟨[([0x61], .mk (.bool true) []), ([0x62], .mk .unset [0x78, 1])], []⟩
      ∧ Struct.codec.decode
        [0x0a, 7, 0x0a, 1, 0x61, 0x12, 2, 0x20, 1, 0x0a, 7, 0x0a, 1, 0x62, 0x12, 2, 0x78, 1]
        = .ok ⟨[([0x61], .mk (.bool true) []), ([0x62], .mk .unset [0x78, 1])], []⟩ := by
  have hsorted : Entries.ofPairs
      [([0x62], .mk .unset [0x78, 1]), ([0x61], .mk (.bool true) [])]
        = [([0x61], .mk (.bool true) []), ([0x62], Value.mk .unset [0x78, 1])] := by
    rw [Entries.ofPairs, Entries.sort_eq_of_perm (List.Perm.swap _ _ _)]
    · rfl
    · unfold Entries.Increasing
      decide
  have hread : Struct.read
      [0x0a, 7, 0x0a, 1, 0x62, 0x12, 2, 0x78, 1, 0x0a, 7, 0x0a, 1, 0x61, 0x12, 2, 0x20, 1]
        = .ok ⟨[([0x61], .mk (.bool true) []), ([0x62], .mk .unset [0x78, 1])], []⟩ := by
    rw [← hsorted]
    rfl
  have hencode : Struct.encode ⟨[([0x61], .mk (.bool true) []), ([0x62], .mk .unset [0x78, 1])], []⟩
        = [0x0a, 7, 0x0a, 1, 0x61, 0x12, 2, 0x20, 1, 0x0a, 7, 0x0a, 1, 0x62, 0x12, 2, 0x78, 1] := by
    rw [Struct.encode_eq]
    · rfl
    · unfold Entries.Increasing
      decide
  have hbytes : (Struct.codec.encode
      ⟨[([0x61], .mk (.bool true) []), ([0x62], .mk .unset [0x78, 1])], []⟩).bytes
        = [0x0a, 7, 0x0a, 1, 0x61, 0x12, 2, 0x20, 1, 0x0a, 7, 0x0a, 1, 0x62, 0x12, 2, 0x78, 1] := by
    rw [← hencode]
    exact Emission.bytes_once _
  have hdecode := decode_eq_ok_iff.2 ⟨hread, rfl, by rw [hencode]; rfl⟩
  have hagain := (decode_encode_stable (by decide) hdecode).2.2.2.1
  rw [hbytes] at hagain
  exact ⟨hdecode, hagain⟩

end RoundTrip.Protobuf
