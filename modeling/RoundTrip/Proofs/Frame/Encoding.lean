import RoundTrip.Frame
import RoundTrip.Step

/-!
# The encoding of frames

Reading and writing frames are inverse to each other. `Frame.read` succeeds on an input exactly when
the input starts with the encoding of a frame that can be written, and then returns that frame
(`read_eq_ok_iff`). The frame that is returned is in normal form: parts that are there are never
absent (`Frame.normalized`).

Main statements:

- `readPrefix_append`: whatever is written is read back, in front of any other bytes;
- `append_readPrefix`: whatever is read is written back byte for byte, so no two inputs stand for
  the same frame.
-/

set_option autoImplicit false

namespace RoundTrip.Frame

open Bytes

/-! ## Frames that can be written -/

/-- The lengths of an item fit their fields, and its key is not empty. -/
structure Item.Fits (it : Item) : Prop where
  key_pos : 0 < it.key.length
  key_le : it.key.length ≤ maxKeyLength
  payload_le : (contents it.payload).length ≤ maxLength

/-- Frames that have an encoding. -/
inductive Encodable : Frame → Prop
  | single {payload : Option Bytes} :
      (contents payload).length ≤ maxLength → Encodable ⟨.single, payload, none⟩
  | batch {items : Option (List Item)} :
      (items.getD []).length ≤ maxLength → (∀ it ∈ items.getD [], it.Fits) →
        Encodable ⟨.batch, none, items⟩

theorem batch_ne_single : Kind.batch ≠ Kind.single := by decide

theorem checkItems_eq_none_iff (index : Nat) (its : List Item) :
    checkItems index its = none ↔ ∀ it ∈ its, it.Fits := by
  induction its generalizing index with
  | nil => simp [checkItems]
  | cons it its ih =>
      rw [checkItems, List.forall_mem_cons]
      constructor
      · intro h
        split at h
        · cases h
        · rename_i hkey
          split at h
          · cases h
          · rename_i hpayload
            exact ⟨⟨by omega, by omega, by omega⟩, (ih (index + 1)).1 h⟩
      · rintro ⟨⟨hpos, hkey, hpayload⟩, hits⟩
        rw [if_neg (by omega), if_neg (by omega)]
        exact (ih (index + 1)).2 hits

/-- The check of a frame passes exactly the encodable ones. -/
theorem check_eq_none_iff (f : Frame) : f.check = none ↔ f.Encodable := by
  constructor
  · rcases f with ⟨kind, payload, items⟩
    intro h
    simp only [check] at h
    split at h
    · rename_i hkind
      subst hkind
      cases items with
      | some its => cases h
      | none =>
          simp only at h
          split at h
          · cases h
          · exact .single (by omega)
    · split at h
      · rename_i hkind
        subst hkind
        cases payload with
        | some bs => simp at h
        | none =>
            simp only [Option.isSome_none, Bool.false_eq_true, if_false] at h
            split at h
            · cases h
            · exact .batch (by omega) ((checkItems_eq_none_iff 0 _).1 h)
      · cases h
  · intro h
    cases h with
    | single hlength => simp [check, Nat.not_lt.2 hlength]
    | batch hcount hits =>
        simp [check, batch_ne_single, Nat.not_lt.2 hcount, (checkItems_eq_none_iff 0 _).2 hits]

/-! ## Normal forms -/

/-- An item whose payload is there. -/
def Item.normalized (it : Item) : Item := ⟨it.key, some (contents it.payload)⟩

/-- A frame in which the parts that belong to its kind are there. Nothing else changes. -/
def normalized (f : Frame) : Frame :=
  if f.kind = Kind.single then { f with payload := some (contents f.payload) }
  else if f.kind = Kind.batch then
    { f with items := some ((f.items.getD []).map Item.normalized) }
  else f

@[simp] theorem contents_some (bs : Bytes) : contents (some bs) = bs := rfl

@[simp] theorem normalized_batch (items : Option (List Item)) :
    normalized ⟨.batch, none, items⟩
      = ⟨.batch, none, some ((items.getD []).map Item.normalized)⟩ := rfl

@[simp] theorem Item.normalized_normalized (it : Item) : it.normalized.normalized = it.normalized :=
  rfl

@[simp] theorem Item.encode_normalized (it : Item) : it.normalized.encode = it.encode := rfl

theorem map_normalized_eq_iff {its : List Item} :
    its.map Item.normalized = its ↔ ∀ it ∈ its, it.normalized = it := by
  induction its with
  | nil => simp
  | cons it its ih => simp [ih]

theorem Item.Fits.normalized {it : Item} (h : it.Fits) : it.normalized.Fits :=
  ⟨h.key_pos, h.key_le, h.payload_le⟩

/-- An encodable frame and its normal form have the same encoding, and the normal form is its own
one. -/
theorem Encodable.normalized {f : Frame} (h : f.Encodable) :
    f.normalized.Encodable ∧ f.normalized.normalized = f.normalized
      ∧ f.normalized.encode = f.encode := by
  cases h with
  | single hlength => exact ⟨.single hlength, rfl, rfl⟩
  | @batch items hcount hits =>
      rw [normalized_batch]
      refine ⟨.batch ?_ ?_, ?_, ?_⟩
      · simpa using hcount
      · simp only [Option.getD_some, List.forall_mem_map]
        exact fun it hit => (hits it hit).normalized
      · simp [Function.comp_def]
      · simp [encode, batch_ne_single, List.flatMap_map]

/-! ## Lengths of encodings -/

theorem Item.length_encode (it : Item) : it.encode.length = it.size := by
  simp only [encode, size, List.length_append, length_bigEndian]

theorem length_flatMap_encode (its : List Item) :
    (its.flatMap Item.encode).length = its.foldr (fun it n => it.size + n) 0 := by
  induction its with
  | nil => rfl
  | cons it its ih =>
      rw [List.flatMap_cons, List.length_append, it.length_encode, ih, List.foldr_cons]

/-- The encoding has the size that is computed for the frame. -/
theorem Encodable.length_encode {f : Frame} (h : f.Encodable) : f.encode.length = f.size := by
  cases h with
  | single hlength =>
      simp only [encode, size, if_true, headerLength, List.length_cons, List.length_append,
        length_bigEndian]
      omega
  | batch hcount hits =>
      simp only [encode, size, batch_ne_single, if_true, if_false, headerLength, List.length_cons,
        List.length_append, length_bigEndian, length_flatMap_encode]
      omega

/-- Items take at least as many bytes as the reader reserves for their number. -/
theorem minItemLength_mul_length_le {its : List Item} (hits : ∀ it ∈ its, it.Fits) :
    minItemLength * its.length ≤ (its.flatMap Item.encode).length := by
  induction its with
  | nil => simp
  | cons it its ih =>
      rw [List.forall_mem_cons] at hits
      have hkey := hits.1.key_pos
      have hrest := ih hits.2
      rw [List.flatMap_cons, List.length_append, it.length_encode, Item.size, List.length_cons]
      simp only [minItemLength] at hrest ⊢
      omega

/-! ## Reading undoes writing

Each reader is described by what stands at the front of the input when it succeeds. -/

theorem span_eq_ok_iff {length : Nat} {bs part rest : Bytes} :
    span length bs = .ok (part, rest) ↔ bs = part ++ rest ∧ part.length = length := by
  rw [span]
  constructor
  · intro h
    split at h
    · rename_i r hr
      cases h
      exact append_of_split hr
    · cases h
  · rintro ⟨rfl, rfl⟩
    rw [split_append]

theorem lengthField_eq_ok_iff {width index n : Nat} {bs rest : Bytes} :
    lengthField width index bs = .ok (n, rest) ↔
      n < Nat.pow 256 width ∧ bs = bigEndian width n ++ rest := by
  rw [lengthField]
  constructor
  · intro h
    split at h
    · rename_i field tail hsplit
      cases h
      obtain ⟨rfl, rfl⟩ := append_of_split hsplit
      exact ⟨toNat_lt field, by rw [bigEndian_toNat]⟩
    · cases h
  · rintro ⟨hlt, rfl⟩
    have hsplit := split_append (bigEndian width n) rest
    rw [length_bigEndian] at hsplit
    rw [hsplit]
    simp only [toNat_bigEndian, Nat.mod_eq_of_lt hlt]

/-- An item is read exactly where its encoding stands. -/
theorem readItem_eq_ok_iff {index : Nat} {bs rest : Bytes} {it : Item} :
    readItem index bs = .ok (it, rest) ↔
      it.Fits ∧ it.normalized = it ∧ bs = it.encode ++ rest := by
  rw [readItem]
  constructor
  · intro h
    obtain ⟨⟨keyLength, bs₁⟩, hfield₁, h₁⟩ := Step.bind_eq_ok.1 h
    dsimp only at h₁
    split at h₁
    · cases h₁
    · rename_i hkey
      obtain ⟨⟨key, bs₂⟩, hspan₁, h₂⟩ := Step.bind_eq_ok.1 h₁
      obtain ⟨⟨length, bs₃⟩, hfield₂, h₃⟩ := Step.bind_eq_ok.1 h₂
      obtain ⟨⟨payload, bs₄⟩, hspan₂, h₄⟩ := Step.bind_eq_ok.1 h₃
      cases h₄
      obtain ⟨hlt₁, rfl⟩ := lengthField_eq_ok_iff.1 hfield₁
      obtain ⟨rfl, rfl⟩ := span_eq_ok_iff.1 hspan₁
      obtain ⟨hlt₂, rfl⟩ := lengthField_eq_ok_iff.1 hfield₂
      obtain ⟨rfl, rfl⟩ := span_eq_ok_iff.1 hspan₂
      simp only [Nat.pow_eq] at hlt₁ hlt₂
      refine ⟨⟨?_, ?_, ?_⟩, rfl, ?_⟩
      · dsimp only
        omega
      · dsimp only [maxKeyLength]
        omega
      · dsimp only [maxLength, contents_some]
        omega
      · simp only [Item.encode, contents_some, List.append_assoc]
  · rintro ⟨⟨hpos, hkey, hpayload⟩, hnormal, rfl⟩
    have hencode : it.encode ++ rest = bigEndian 2 it.key.length ++ (it.key
        ++ (bigEndian 4 (contents it.payload).length ++ (contents it.payload ++ rest))) := by
      simp only [Item.encode, List.append_assoc]
    rw [← hnormal, Item.encode_normalized, hencode]
    simp only [maxKeyLength, maxLength] at hkey hpayload
    refine Step.bind_eq_ok.2 ⟨(it.key.length, _), lengthField_eq_ok_iff.2 ⟨?_, rfl⟩, ?_⟩
    · simp only [Nat.pow_eq]
      omega
    · dsimp only
      rw [if_neg (by omega)]
      refine Step.bind_eq_ok.2 ⟨(it.key, _), span_eq_ok_iff.2 ⟨rfl, rfl⟩, ?_⟩
      refine Step.bind_eq_ok.2 ⟨((contents it.payload).length, _),
        lengthField_eq_ok_iff.2 ⟨?_, rfl⟩, ?_⟩
      · simp only [Nat.pow_eq]
        omega
      · exact Step.bind_eq_ok.2 ⟨(contents it.payload, rest), span_eq_ok_iff.2 ⟨rfl, rfl⟩, rfl⟩

/-- Items are read exactly where their encodings stand one behind the other. -/
theorem readItems_eq_ok_iff {count index : Nat} {done items : List Item} {bs rest : Bytes} :
    readItems count index done bs = .ok (items, rest) ↔
      ∃ its, items = done.reverse ++ its ∧ its.length = count
        ∧ (∀ it ∈ its, it.Fits ∧ it.normalized = it) ∧ bs = its.flatMap Item.encode ++ rest := by
  -- `done` holds the items before, the last one first; it grows as the count goes down
  induction count generalizing index done bs with
  | zero =>
      rw [readItems]
      constructor
      · intro h
        cases h
        exact ⟨[], by simp⟩
      · rintro ⟨its, rfl, hlength, -, rfl⟩
        rw [List.length_eq_zero_iff] at hlength
        subst hlength
        simp
  | succ count ih =>
      rw [readItems]
      constructor
      · intro h
        split at h
        · rename_i it tail hitem
          obtain ⟨hfits, hnormal, rfl⟩ := readItem_eq_ok_iff.1 hitem
          obtain ⟨its, rfl, rfl, hits, rfl⟩ := ih.1 h
          refine ⟨it :: its, ?_, rfl, ?_, ?_⟩
          · simp
          · exact List.forall_mem_cons.2 ⟨⟨hfits, hnormal⟩, hits⟩
          · simp
        · cases h
      · rintro ⟨its, rfl, hlength, hits, rfl⟩
        cases its with
        | nil => cases hlength
        | cons it its =>
            obtain ⟨⟨hfits, hnormal⟩, hits'⟩ := List.forall_mem_cons.1 hits
            have hitem : readItem index ((it :: its).flatMap Item.encode ++ rest)
                = .ok (it, its.flatMap Item.encode ++ rest) :=
              readItem_eq_ok_iff.2 ⟨hfits, hnormal, by simp⟩
            rw [hitem]
            refine ih.2 ⟨its, ?_, Nat.succ.inj hlength, hits', rfl⟩
            simp

/-- A header is a kind and a length field of four bytes. -/
theorem read_header (kind : Kind) {n : Nat} (hn : n ≤ maxLength) (rest : Bytes) :
    read (kind.code :: (bigEndian 4 n ++ rest)) =
      if kind = Kind.single then do
        let (payload, rest) ← span n rest
        return (⟨kind, some payload, none⟩, rest)
      else if kind = Kind.batch then
        if rest.length / minItemLength < n then .error (.manyItems n rest.length)
        else do
          let (items, rest) ← readItems n 0 [] rest
          return (⟨kind, none, some items⟩, rest)
      else .error (.unknownKind kind) := by
  have hsplit := split_append (kind.code :: bigEndian 4 n) rest
  rw [List.length_cons, length_bigEndian, List.cons_append] at hsplit
  have hvalue : toNat (bigEndian 4 n) = n := by
    rw [toNat_bigEndian, Nat.pow_eq, Nat.mod_eq_of_lt]
    simp only [maxLength] at hn
    omega
  rw [read, headerLength, hsplit]
  simp only [hvalue]

/-- The encoding of a frame is read as the frame in normal form, whatever follows it. -/
theorem read_encode {f : Frame} (h : f.Encodable) (rest : Bytes) :
    read (f.encode ++ rest) = .ok (f.normalized, rest) := by
  cases h with
  | @single payload hlength =>
      have hencode : encode ⟨.single, payload, none⟩ ++ rest = Kind.single.code
          :: (bigEndian 4 (contents payload).length ++ (contents payload ++ rest)) := by
        simp [encode]
      rw [hencode, read_header Kind.single hlength, if_pos rfl]
      exact Step.bind_eq_ok.2 ⟨(contents payload, rest), span_eq_ok_iff.2 ⟨rfl, rfl⟩, rfl⟩
  | @batch items hcount hits =>
      have hencode : encode ⟨.batch, none, items⟩ ++ rest = Kind.batch.code
          :: (bigEndian 4 (items.getD []).length
            ++ ((items.getD []).flatMap Item.encode ++ rest)) := by
        simp [encode, batch_ne_single]
      -- the announced number of items is one that the rest can hold
      have hroom : ¬ ((items.getD []).flatMap Item.encode ++ rest).length / minItemLength
          < (items.getD []).length := by
        have hle := minItemLength_mul_length_le hits
        rw [List.length_append]
        simp only [minItemLength] at hle ⊢
        omega
      rw [hencode, read_header Kind.batch hcount, if_neg batch_ne_single, if_pos rfl,
        if_neg hroom]
      refine Step.bind_eq_ok.2 ⟨((items.getD []).map Item.normalized, rest),
        readItems_eq_ok_iff.2 ⟨_, rfl, List.length_map .., ?_, ?_⟩, rfl⟩
      · simp only [List.forall_mem_map, Item.normalized_normalized, and_true]
        exact fun it hit => (hits it hit).normalized
      · simp [List.flatMap_map]

/-- What is read starts with a kind and a length field. -/
theorem eq_header_of_read {bs rest : Bytes} {f : Frame} (h : read bs = .ok (f, rest)) :
    ∃ kind : Kind, ∃ n ≤ maxLength, ∃ tail, bs = kind.code :: (bigEndian 4 n ++ tail) := by
  rw [read] at h
  split at h
  · rename_i code field tail hsplit
    obtain ⟨rfl, hlength⟩ := append_of_split hsplit
    have hfield : field.length = 4 := Nat.succ.inj hlength
    have hlt := toNat_lt field
    refine ⟨⟨code⟩, toNat field, ?_, tail, ?_⟩
    · rw [hfield, Nat.pow_eq] at hlt
      simp only [maxLength]
      omega
    · rw [← hfield, bigEndian_toNat, List.cons_append]
  · cases h

/-- **A frame is read exactly where its encoding stands.** -/
theorem read_eq_ok_iff {bs rest : Bytes} {f : Frame} :
    read bs = .ok (f, rest) ↔ f.Encodable ∧ f.normalized = f ∧ bs = f.encode ++ rest := by
  constructor
  · intro h
    obtain ⟨kind, n, hn, tail, rfl⟩ := eq_header_of_read h
    rw [read_header kind hn] at h
    split at h
    · rename_i hkind
      subst hkind
      obtain ⟨⟨payload, rest'⟩, hspan, h'⟩ := Step.bind_eq_ok.1 h
      cases h'
      obtain ⟨rfl, rfl⟩ := span_eq_ok_iff.1 hspan
      exact ⟨.single hn, rfl, by simp [encode]⟩
    · split at h
      · rename_i hkind
        subst hkind
        split at h
        · cases h
        · obtain ⟨⟨items, rest'⟩, hitems, h'⟩ := Step.bind_eq_ok.1 h
          cases h'
          obtain ⟨its, hits', rfl, hits, rfl⟩ := readItems_eq_ok_iff.1 hitems
          rw [List.reverse_nil, List.nil_append] at hits'
          subst hits'
          have hmap := map_normalized_eq_iff.2 fun it hit => (hits it hit).2
          refine ⟨.batch hn fun it hit => (hits it hit).1, ?_, ?_⟩
          · rw [normalized_batch, Option.getD_some, hmap]
          · simp [encode, batch_ne_single]
      · cases h
  · rintro ⟨hencodable, hnormal, rfl⟩
    rw [read_encode hencodable, hnormal]

/-- A frame is reported with the number of bytes of its encoding. -/
theorem readPrefix_eq_ok_iff {bs : Bytes} {f : Frame} {n : Int} :
    readPrefix bs = .ok (f, n) ↔
      f.Encodable ∧ f.normalized = f ∧ n = f.size ∧ ∃ rest, bs = f.encode ++ rest := by
  rw [readPrefix, PrefixReader.ofRest_eq_ok_iff]
  constructor
  · rintro ⟨rest, h, rfl⟩
    obtain ⟨hencodable, hnormal, rfl⟩ := read_eq_ok_iff.1 (Step.mapError_eq_ok.1 h)
    refine ⟨hencodable, hnormal, ?_, rest, rfl⟩
    rw [List.length_append, hencodable.length_encode]
    omega
  · rintro ⟨hencodable, hnormal, rfl, rest, rfl⟩
    refine ⟨rest, Step.mapError_eq_ok.2 (read_eq_ok_iff.2 ⟨hencodable, hnormal, rfl⟩), ?_⟩
    rw [List.length_append, hencodable.length_encode]
    omega

/-- The codec reads exactly the encodings. -/
theorem decode_eq_ok_iff {bs : Bytes} {f : Frame} :
    codec.decode bs = .ok f ↔ f.Encodable ∧ f.normalized = f ∧ bs = f.encode := by
  rw [show codec.decode = exact readPrefix from rfl, exact_eq_ok_iff, readPrefix_eq_ok_iff]
  constructor
  · rintro ⟨hencodable, hnormal, hlength, rest, rfl⟩
    rw [List.length_append, hencodable.length_encode] at hlength
    have hrest : rest = [] := List.length_eq_zero_iff.1 (by omega)
    exact ⟨hencodable, hnormal, by rw [hrest, List.append_nil]⟩
  · rintro ⟨hencodable, hnormal, rfl⟩
    exact ⟨hencodable, hnormal, by rw [hencodable.length_encode], [], (List.append_nil _).symm⟩

/-- Writing succeeds exactly on encodable frames. -/
theorem append_eq_ok_iff {front out : Bytes} {f : Frame} :
    append front f = .ok out ↔ f.Encodable ∧ out = front ++ f.encode := by
  rw [append, ← check_eq_none_iff]
  cases f.check with
  | some m => simp
  | none => simp [eq_comm]

/-! ## Main statements -/

/-- Frames that differ at most in which of their empty parts are absent. -/
structure Alike (f g : Frame) : Prop where
  kind_eq : f.kind = g.kind
  payload_eq : contents f.payload = contents g.payload
  keys_eq : (f.items.getD []).map Item.key = (g.items.getD []).map Item.key
  payloads_eq : (f.items.getD []).map (contents ·.payload)
    = (g.items.getD []).map (contents ·.payload)

theorem Encodable.normalized_alike {f : Frame} (h : f.Encodable) : f.normalized.Alike f := by
  cases h with
  | single hlength => exact ⟨rfl, rfl, rfl, rfl⟩
  | batch hcount hits =>
      refine ⟨rfl, rfl, ?_, ?_⟩
      · simp [Item.normalized, Function.comp_def]
      · simp [Item.normalized, Function.comp_def]

/-- **Reading undoes writing in every context.** A frame that can be written adds the same bytes
behind every front, as many as its size. Before any other bytes they are read as the same frame in
normal form, with its items in their order, and a batch is never refused for its number of items. -/
theorem readPrefix_append {front out : Bytes} {f : Frame} (accepted : append front f = .ok out) :
    ∃ e : Bytes, (∀ dst, append dst f = .ok (dst ++ e)) ∧ e.length = f.size
      ∧ (∀ s, readPrefix (e ++ s) = .ok (f.normalized, (e.length : Int)))
      ∧ f.normalized.Alike f
      ∧ (f.kind = Kind.batch → ∀ s : Bytes,
          (f.items.getD []).length ≤ ((e ++ s).length - headerLength) / minItemLength) := by
  obtain ⟨hencodable, -⟩ := append_eq_ok_iff.1 accepted
  obtain ⟨hencodable', hnormal, hencode⟩ := hencodable.normalized
  have hlength := hencodable.length_encode
  refine ⟨f.encode, fun dst => append_eq_ok_iff.2 ⟨hencodable, rfl⟩, hlength, ?_,
    hencodable.normalized_alike, ?_⟩
  · intro s
    refine readPrefix_eq_ok_iff.2 ⟨hencodable', hnormal, ?_, s, by rw [hencode]⟩
    rw [← hencode, hencodable'.length_encode]
  · intro hkind s
    cases hencodable with
    | single _ => exact absurd hkind.symm batch_ne_single
    | batch hcount hits =>
        have hle := minItemLength_mul_length_le hits
        rw [length_flatMap_encode] at hle
        simp only [List.length_append, hlength, size, batch_ne_single, if_true, if_false,
          headerLength, minItemLength] at hle ⊢
        omega

/-- A batch with a key that stands twice and a payload that is absent, behind one byte and in front
of another. -/
theorem readPrefix_append_repeated_key :
    append [9] ⟨.batch, none, some [⟨[0x6b], none⟩, ⟨[0x6b], some [7]⟩]⟩
        = .ok [9, 2, 0, 0, 0, 2, 0, 1, 0x6b, 0, 0, 0, 0, 0, 1, 0x6b, 0, 0, 0, 1, 7]
      ∧ readPrefix [2, 0, 0, 0, 2, 0, 1, 0x6b, 0, 0, 0, 0, 0, 1, 0x6b, 0, 0, 0, 1, 7, 9]
        = .ok (⟨.batch, none, some [⟨[0x6b], some []⟩, ⟨[0x6b], some [7]⟩]⟩, 20) := by
  have accepted : append [9] ⟨.batch, none, some [⟨[0x6b], none⟩, ⟨[0x6b], some [7]⟩]⟩
      = .ok [9, 2, 0, 0, 0, 2, 0, 1, 0x6b, 0, 0, 0, 0, 0, 1, 0x6b, 0, 0, 0, 1, 7] := rfl
  obtain ⟨e, happend, -, hread, -, -⟩ := readPrefix_append accepted
  have he : [2, 0, 0, 0, 2, 0, 1, 0x6b, 0, 0, 0, 0, 0, 1, 0x6b, 0, 0, 0, 1, 7] = e :=
    Except.ok.inj (happend [])
  subst he
  exact ⟨accepted, hread [9]⟩

/-- **The encoding of frames is canonical.** What is read as a frame is written back byte for byte.
So one frame has one encoding, and only one cut of an input is a frame. -/
theorem append_readPrefix {bs : Bytes} {f : Frame} {n : Int} (h : readPrefix bs = .ok (f, n)) :
    5 ≤ n ∧ n ≤ bs.length ∧ f.size = n ∧ append [] f = .ok (bs.take n.toNat)
      ∧ (codec.decode bs = .ok f → ∀ bs', codec.decode bs' = .ok f → bs' = bs)
      ∧ (∀ g m, readPrefix bs = .ok (g, m) → m = n)
      ∧ (∀ g, ∀ m ≤ bs.length, codec.decode (bs.take m) = .ok g → m = n) := by
  obtain ⟨hencodable, hnormal, rfl, rest, rfl⟩ := readPrefix_eq_ok_iff.1 h
  have hlength := hencodable.length_encode
  have hle : headerLength ≤ f.size := by
    unfold size
    split
    · omega
    · split <;> omega
  simp only [headerLength] at hle
  refine ⟨by omega, ?_, rfl, ?_, ?_, ?_, ?_⟩
  · rw [List.length_append]
    omega
  · refine append_eq_ok_iff.2 ⟨hencodable, ?_⟩
    rw [Int.toNat_natCast, ← hlength, List.take_left, List.nil_append]
  · intro hdecode bs' hdecode'
    rw [(decode_eq_ok_iff.1 hdecode).2.2, (decode_eq_ok_iff.1 hdecode').2.2]
  · intro g m hread
    rw [h] at hread
    cases hread
    rfl
  · intro g m hm hdecode
    -- the shorter input is a frame too, so the whole input is read as that frame
    obtain ⟨hencodable', hnormal', htake⟩ := decode_eq_ok_iff.1 hdecode
    have hread : readPrefix (f.encode ++ rest) = .ok (g, (g.size : Int)) := by
      refine readPrefix_eq_ok_iff.2
        ⟨hencodable', hnormal', rfl, (f.encode ++ rest).drop m, ?_⟩
      rw [← htake, List.take_append_drop]
    rw [h] at hread
    have hsize : (f.size : Int) = g.size := congrArg Prod.snd (Except.ok.inj hread)
    have hlength' := congrArg List.length htake
    rw [List.length_take, hencodable'.length_encode, Nat.min_eq_left hm] at hlength'
    rw [hsize, hlength']

/-- A single frame in front of another byte. -/
theorem append_readPrefix_single :
    readPrefix [1, 0, 0, 0, 1, 42, 7] = .ok (⟨.single, some [42], none⟩, 6)
      ∧ append [] ⟨.single, some [42], none⟩ = .ok [1, 0, 0, 0, 1, 42] := by
  have h : readPrefix [1, 0, 0, 0, 1, 42, 7] = .ok (⟨.single, some [42], none⟩, 6) := rfl
  exact ⟨h, (append_readPrefix h).2.2.2.1⟩

end RoundTrip.Frame
