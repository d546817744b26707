import RoundTrip.Proofs.Entries
import RoundTrip.Proofs.Json.Compact
import RoundTrip.Proofs.Json.Numerals
import RoundTrip.Proofs.Reading.Words

/-!
# JSON documents that are written again

The bytes of a value that was read are compact and are read again, as the value with its strings
repaired. So a document that is written a second time is the same as the first time exactly when all
strings and keys of the value are UTF-8. Where one is not, the second document is shorter: a stray
byte is written as an escape of six bytes and read as a character of three, and keys that differ
only in stray bytes fall together.

Main statement: `encode_stable_iff`. The exception is real: `encode_stray_byte`.
-/

set_option autoImplicit false

namespace RoundTrip.Json

open Step

/-! ## What a reader finds -/

/-- What is read has finite numbers, and objects in increasing order of keys. When there are values
inside it, they satisfy `inner`. -/
inductive Found : (inner : Option (Value → Prop)) → Value → Prop
  | null {inner : Option (Value → Prop)} : Found inner .null
  | bool {inner : Option (Value → Prop)} (b : Bool) : Found inner (.bool b)
  | number {inner : Option (Value → Prop)} {bits : UInt64} {t : Bytes}
      (h : numeralText Binary.double bits.toNat = .ok t) : Found inner (.number bits)
  | string {inner : Option (Value → Prop)} (bs : Bytes) : Found inner (.string bs)
  | array {inner : Value → Prop} {vs : List Value} (h : ∀ v ∈ vs, inner v) :
      Found (some inner) (.array vs)
  | object {inner : Value → Prop} {es : List (Bytes × Value)}
      (hincreasing : Entries.Increasing es) (h : ∀ e ∈ es, inner e.2) :
      Found (some inner) (.object es)

section Found

variable {value : Step Error Value} {size : Nat}

theorem elements_found {k : Nat} {done vs : List Value} {bs rest : Bytes}
    (h : elements value k done bs = .ok (vs, rest)) :
    ∀ v ∈ vs, v ∈ done ∨ ∃ bs' rest', value bs' = .ok (v, rest') := by
  induction k generalizing done bs with
  | zero => cases h
  | succ k ih =>
      rw [elements] at h
      split at h
      · cases h
      · rename_i v tail hread
        -- what was there before, with the value of this round
        have hnew : ∀ u ∈ v :: done, u ∈ done ∨ ∃ bs' rest', value bs' = .ok (u, rest') := by
          intro u hu
          rcases List.mem_cons.1 hu with rfl | hu
          · exact .inr ⟨_, _, hread⟩
          · exact .inl hu
        split at h
        · intro u hu
          rcases ih h u hu with hu | hu
          · exact hnew u hu
          · exact .inr hu
        · cases h
          intro u hu
          exact hnew u (List.mem_reverse.1 hu)
        · cases h

theorem members_found {k : Nat} {done es : List (Bytes × Value)} {bs rest : Bytes}
    (h : members size value k done bs = .ok (es, rest)) :
    ∀ e ∈ es, e ∈ done ∨ ∃ bs' rest', value bs' = .ok (e.2, rest') := by
  induction k generalizing done bs with
  | zero => cases h
  | succ k ih =>
      rw [members] at h
      split at h
      · cases h
      · rename_i key afterKey _
        split at h
        · cases h
        · split at h
          · cases h
          · rename_i v tail hread
            have hnew : ∀ e ∈ (key, v) :: done,
                e ∈ done ∨ ∃ bs' rest', value bs' = .ok (e.2, rest') := by
              intro e he
              rcases List.mem_cons.1 he with rfl | he
              · exact .inr ⟨_, _, hread⟩
              · exact .inl he
            split at h
            · intro e he
              rcases ih h e he with he | he
              · exact hnew e he
              · exact .inr he
            · cases h
              intro e he
              exact hnew e (List.mem_reverse.1 he)
            · cases h

theorem array_found {vs : List Value} {bs rest : Bytes} (h : array size value bs = .ok (vs, rest)) :
    ∀ v ∈ vs, ∃ bs' rest', value bs' = .ok (v, rest') := by
  rw [array] at h
  split at h
  · cases h
    simp
  · intro v hv
    rcases elements_found h v hv with hv | hv
    · cases hv
    · exact hv

theorem object_found {es : List (Bytes × Value)} {bs rest : Bytes}
    (h : object size value bs = .ok (es, rest)) :
    ∀ e ∈ es, ∃ bs' rest', value bs' = .ok (e.2, rest') := by
  rw [object] at h
  split at h
  · cases h
    simp
  · intro e he
    rcases members_found h e he with he | he
    · cases he
    · exact he
  · cases h

theorem valueFrom_found {inner : Option (Step Error Value)} {b : UInt8} {bs rest : Bytes}
    {v : Value} (h : valueFrom size inner b bs = .ok (v, rest)) :
    Found (inner.map fun value u => ∃ bs' rest', value bs' = .ok (u, rest')) v := by
  by_cases hb : b ∈ openers
  · simp only [openers, List.mem_cons, List.not_mem_nil, or_false] at hb
    rcases hb with rfl | rfl | rfl | rfl | rfl | rfl
    · obtain ⟨⟨text, tail⟩, -, hresult⟩ := bind_eq_ok.1 h
      cases hresult
      exact .string text
    · obtain ⟨⟨_, tail⟩, -, hresult⟩ := bind_eq_ok.1 h
      cases hresult
      exact .null
    · obtain ⟨⟨_, tail⟩, -, hresult⟩ := bind_eq_ok.1 h
      cases hresult
      exact .bool true
    · obtain ⟨⟨_, tail⟩, -, hresult⟩ := bind_eq_ok.1 h
      cases hresult
      exact .bool false
    · cases inner with
      | none => cases h
      | some value =>
          obtain ⟨⟨vs, tail⟩, hread, hresult⟩ := bind_eq_ok.1 h
          cases hresult
          exact .array (array_found hread)
    · cases inner with
      | none => cases h
      | some value =>
          obtain ⟨⟨es, tail⟩, hread, hresult⟩ := bind_eq_ok.1 h
          cases hresult
          refine .object (Entries.increasing_ofPairs es) ?_
          intro e he
          exact object_found hread e (Entries.mem_of_mem_ofPairs he)
  · rw [valueFrom_of_not_opener hb] at h
    split at h
    · obtain ⟨⟨n, tail⟩, hread, hresult⟩ := bind_eq_ok.1 h
      cases hresult
      obtain ⟨hn, t, ht⟩ := exists_numeralText hread
      refine .number (t := t) ?_
      rwa [UInt64.toNat_ofNat', Nat.mod_eq_of_lt hn]
    · cases h

end Found

/-! ## Values that are written again -/

/-- All strings and keys are UTF-8. -/
inductive Value.AllUtf8 : Value → Prop
  | null : AllUtf8 .null
  | bool (b : Bool) : AllUtf8 (.bool b)
  | number (bits : UInt64) : AllUtf8 (.number bits)
  | number32 (bits : UInt32) : AllUtf8 (.number32 bits)
  | integer (n : Int) : AllUtf8 (.integer n)
  | string {bs : Bytes} (h : Utf8.isValid bs = true) : AllUtf8 (.string bs)
  | array {vs : List Value} (h : ∀ v ∈ vs, AllUtf8 v) : AllUtf8 (.array vs)
  | object {es : List (Bytes × Value)} (hkeys : ∀ e ∈ es, Utf8.isValid e.1 = true)
      (hvalues : ∀ e ∈ es, AllUtf8 e.2) : AllUtf8 (.object es)

/-- A value with its bytes, and the value that is read from them with its bytes. -/
structure Copy where
  value : Value
  bytes : Bytes
  again : Value
  bytesAgain : Bytes

/-- The bytes of a copy are compact and are read within the given levels. The second value is the
first one when that has UTF-8 only, and shorter to write otherwise. -/
structure Copy.Faithful (levels : Nat) (c : Copy) : Prop where
  encode_eq : c.value.encode = .ok c.bytes
  reads : ∀ m, c.bytes.length ≤ m → ∀ s, c.again.EndsBefore s →
    valueStep m levels (c.bytes ++ s) = .ok (c.again, s)
  compact : Compact (· ≤ ·) c.bytes
  encode_again : c.again.encode = .ok c.bytesAgain
  length_le : c.bytesAgain.length ≤ c.bytes.length
  of_utf8 : c.value.AllUtf8 → c.again = c.value ∧ Compact (· < ·) c.bytes
  of_not_utf8 : ¬ c.value.AllUtf8 → c.bytesAgain.length < c.bytes.length

theorem Copy.Faithful.readsFrom {levels : Nat} {c : Copy} (h : c.Faithful levels) {m : Nat}
    (hm : c.bytes.length ≤ m) : ReadsFrom (valueStep m levels) c.bytes c.again := by
  intro b s hb
  refine h.reads m hm (b :: s) ?_
  intro bits _ x hx
  obtain rfl : b = x := by simpa using hx
  exact hb

/-- A value without values inside is read at every level alike. -/
theorem valueStep_of_valueFrom {b : UInt8} {bs : Bytes} (hb : isSpace b = false) {m levels : Nat}
    {r : Except Error (Value × Bytes)} (h : ∀ inner, valueFrom m inner b bs = r) :
    valueStep m levels (b :: bs) = r := by
  cases levels with
  | zero =>
      rw [valueStep, skipSpace_cons hb]
      exact h none
  | succ levels =>
      rw [valueStep, skipSpace_cons hb]
      exact h (some (valueStep m levels))

/-- Values that are read as they were written. -/
theorem faithful_self {levels : Nat} {v : Value} {w : Bytes} (hencode : v.encode = .ok w)
    (hreads : ∀ m s, v.EndsBefore s → valueStep m levels (w ++ s) = .ok (v, s))
    (hcompact : ∀ order, Compact order w) (hutf8 : v.AllUtf8) :
    Copy.Faithful levels ⟨v, w, v, w⟩ where
  encode_eq := hencode
  reads m _ s hs := hreads m s hs
  compact := hcompact _
  encode_again := hencode
  length_le := Nat.le_refl _
  of_utf8 _ := ⟨rfl, hcompact _⟩
  of_not_utf8 h := absurd hutf8 h

theorem faithful_null (levels : Nat) :
    Copy.Faithful levels ⟨.null, Bytes.ofString "null", .null, Bytes.ofString "null"⟩ := by
  refine faithful_self (by rw [Value.encode]) ?_ (fun _ => .null) .null
  intro m s _
  rw [Bytes.ofString_eq]
  exact valueStep_of_valueFrom rfl fun inner => rfl

theorem faithful_bool (levels : Nat) (b : Bool) :
    Copy.Faithful levels ⟨.bool b, Bytes.ofString (if b then "true" else "false"), .bool b,
      Bytes.ofString (if b then "true" else "false")⟩ := by
  refine faithful_self (by rw [Value.encode]) ?_ (fun _ => .bool b) (.bool b)
  intro m s _
  rw [Bytes.ofString_eq]
  cases b with
  | true => exact valueStep_of_valueFrom rfl fun inner => rfl
  | false => exact valueStep_of_valueFrom rfl fun inner => rfl

theorem faithful_number (levels : Nat) {bits : UInt64} {t : Bytes}
    (h : numeralText Binary.double bits.toNat = .ok t) :
    Copy.Faithful levels ⟨.number bits, t, .number bits, t⟩ := by
  obtain ⟨hbytes, ⟨b, rest, rfl, hfirst⟩, hread⟩ := signedNumeral_numeralText bits.toNat_lt h
  have hb : isNumeralByte b = true := hbytes b List.mem_cons_self
  have hopener : b ∉ openers := by
    intro hmem
    simp only [openers, List.mem_cons, List.not_mem_nil, or_false] at hmem
    rcases hmem with rfl | rfl | rfl | rfl | rfl | rfl <;> cases hb
  refine faithful_self (by rw [Value.encode, h]) ?_ (fun _ => .numeral hbytes) (.number bits)
  intro m s hs
  refine valueStep_of_valueFrom (not_isSpace_of_isNumeralByte hb) fun inner => ?_
  have hread' := hread s (hs bits rfl)
  rw [List.cons_append] at hread'
  rw [valueFrom_of_not_opener hopener, if_pos hfirst, List.append_eq, hread']
  simp

theorem faithful_string (levels : Nat) (bs : Bytes) :
    Copy.Faithful levels ⟨.string bs, quote bs, .string (repaired bs), quote (repaired bs)⟩ where
  encode_eq := by rw [Value.encode]
  reads := by
    intro m hm s _
    obtain ⟨inner, hinner, hread⟩ := isString_quote bs
    dsimp only at hm ⊢
    rw [hinner, List.length_cons, List.length_append, List.length_singleton] at hm
    rw [hinner, List.cons_append, List.append_assoc, List.singleton_append]
    refine valueStep_of_valueFrom rfl fun _ => ?_
    have hread' := hread m s (by omega)
    exact bind_eq_ok.2 ⟨_, hread', rfl⟩
  compact := .string (isString_quote bs)
  encode_again := by rw [Value.encode]
  length_le := (quote_repaired_length bs).1
  of_utf8 := by
    intro hutf8
    cases hutf8 with
    | string hvalid => exact ⟨by rw [repaired_of_isValid hvalid], .string (isString_quote bs)⟩
  of_not_utf8 := by
    intro hnot
    refine (quote_repaired_length bs).2 ?_
    cases hvalid : Utf8.isValid bs with
    | false => rfl
    | true => exact absurd (.string hvalid) hnot

/-! ## Arrays that are written again -/

theorem encodeAll_eq_ok_iff {vs : List Value} {done ws : List Bytes} :
    encodeAll vs done = .ok ws ↔
      ∃ ws', List.Forall₂ (fun v w => v.encode = .ok w) vs ws' ∧ ws = done.reverse ++ ws' := by
  induction vs generalizing done with
  | nil => simp [encodeAll, eq_comm]
  | cons v vs ih =>
      rw [encodeAll]
      cases hv : v.encode with
      | error e => simp [List.forall₂_cons_left_iff, hv]
      | ok w => simp [List.forall₂_cons_left_iff, hv, ih]

theorem encode_array_eq_ok_iff {vs : List Value} {w : Bytes} :
    (Value.array vs).encode = .ok w ↔
      ∃ ws, List.Forall₂ (fun v w => v.encode = .ok w) vs ws ∧ w = 0x5b :: separated ws [0x5d] := by
  rw [Value.encode]
  constructor
  · intro h
    obtain ⟨_, hall, hresult⟩ := bind_eq_ok.1 h
    obtain ⟨_, hws, rfl⟩ := encodeAll_eq_ok_iff.1 hall
    exact ⟨_, hws, (Except.ok.inj hresult).symm⟩
  · rintro ⟨ws, hws, rfl⟩
    exact bind_eq_ok.2 ⟨ws, encodeAll_eq_ok_iff.2 ⟨ws, hws, rfl⟩, rfl⟩

theorem encode_array {α : Type} {value : α → Value} {bytes : α → Bytes} {as : List α}
    (h : ∀ a ∈ as, (value a).encode = .ok (bytes a)) :
    (Value.array (as.map value)).encode = .ok (0x5b :: separated (as.map bytes) [0x5d]) := by
  refine encode_array_eq_ok_iff.2 ⟨as.map bytes, ?_, rfl⟩
  exact List.forall₂_map_left_iff.2 (List.forall₂_map_right_iff.2 (List.forall₂_same.2 h))

/-- The copy of an array, from those of its values. -/
def arrayCopy (cs : List Copy) : Copy where
  value := .array (cs.map Copy.value)
  bytes := 0x5b :: separated (cs.map Copy.bytes) [0x5d]
  again := .array (cs.map Copy.again)
  bytesAgain := 0x5b :: separated (cs.map Copy.bytesAgain) [0x5d]

theorem arrayCopy_reads {levels : Nat} {cs : List Copy} (h : ∀ c ∈ cs, c.Faithful levels) {m : Nat}
    (hm : (arrayCopy cs).bytes.length ≤ m) (s : Bytes) :
    valueStep m (levels + 1) ((arrayCopy cs).bytes ++ s) = .ok ((arrayCopy cs).again, s) := by
  rw [arrayCopy, List.length_cons] at hm
  -- no value is without bytes, and so there are no more values than bytes
  have hcount : (cs.map Copy.bytes).length ≤ (separated (cs.map Copy.bytes) [0x5d]).length := by
    apply count_le_separated
    intro w hw
    obtain ⟨c, hc, rfl⟩ := List.mem_map.1 hw
    obtain ⟨b, t, hbytes, -⟩ := (h c hc).compact.ends.1
    rw [hbytes]
    exact List.cons_ne_nil b t
  have hread : array m (valueStep m levels) (separated
      ((cs.map fun c => (c.bytes, c.again)).map Prod.fst) (0x5d :: s))
      = .ok ((cs.map fun c => (c.bytes, c.again)).map Prod.snd, s) := by
    apply array_separated
    · intro p hp
      obtain ⟨c, hc, rfl⟩ := List.mem_map.1 hp
      have hle := length_le_separated (List.mem_map_of_mem (f := Copy.bytes) hc) [0x5d]
      exact (h c hc).readsFrom (by omega)
    · intro p hp
      obtain ⟨c, hc, rfl⟩ := List.mem_map.1 hp
      exact (h c hc).compact.ends.1
    · rw [List.length_map] at hcount ⊢
      omega
  rw [List.map_map, List.map_map] at hread
  rw [arrayCopy, List.cons_append, separated_append, valueStep, skipSpace_cons rfl]
  exact bind_eq_ok.2 ⟨_, hread, rfl⟩

theorem arrayCopy_length {levels : Nat} {cs : List Copy} (h : ∀ c ∈ cs, c.Faithful levels) :
    (arrayCopy cs).bytesAgain.length ≤ (arrayCopy cs).bytes.length
      ∧ ((∃ c ∈ cs, ¬ c.value.AllUtf8) →
        (arrayCopy cs).bytesAgain.length < (arrayCopy cs).bytes.length) := by
  obtain ⟨hle, hlt⟩ :=
    length_separated_le (List.Sublist.refl cs) (fun c hc => (h c hc).length_le) [0x5d]
  simp only [arrayCopy, List.length_cons]
  refine ⟨Nat.succ_le_succ hle, ?_⟩
  rintro ⟨c, hc, hnot⟩
  exact Nat.succ_lt_succ (hlt ⟨c, hc, (h c hc).of_not_utf8 hnot⟩)

theorem faithful_array {levels : Nat} {cs : List Copy} (h : ∀ c ∈ cs, c.Faithful levels) :
    (arrayCopy cs).Faithful (levels + 1) where
  encode_eq := encode_array fun c hc => (h c hc).encode_eq
  reads := fun m hm s _ => arrayCopy_reads h hm s
  compact := by
    apply Compact.array
    intro w hw
    obtain ⟨c, hc, rfl⟩ := List.mem_map.1 hw
    exact (h c hc).compact
  encode_again := encode_array fun c hc => (h c hc).encode_again
  length_le := (arrayCopy_length h).1
  of_utf8 := by
    intro hutf8
    have hutf8' : (Value.array (cs.map Copy.value)).AllUtf8 := hutf8
    cases hutf8' with
    | array hvalues =>
        have hcopy : ∀ c ∈ cs, c.again = c.value ∧ Compact (· < ·) c.bytes := fun c hc =>
          (h c hc).of_utf8 (hvalues _ (List.mem_map_of_mem hc))
        refine ⟨congrArg Value.array (List.map_congr_left fun c hc => (hcopy c hc).1), ?_⟩
        apply Compact.array
        intro w hw
        obtain ⟨c, hc, rfl⟩ := List.mem_map.1 hw
        exact (hcopy c hc).2
  of_not_utf8 := by
    intro hnot
    apply (arrayCopy_length h).2
    by_contra hnone
    apply hnot
    apply Value.AllUtf8.array
    intro v hv
    obtain ⟨c, hc, rfl⟩ := List.mem_map.1 hv
    by_contra hc'
    exact hnone ⟨c, hc, hc'⟩

/-! ## Objects that are written again -/

/-- The key of a member and the bytes of its value. -/
def MemberBytes (e : Bytes × Value) (w : Bytes × Bytes) : Prop :=
  e.1 = w.1 ∧ e.2.encode = .ok w.2

theorem encodeMembers_eq_ok_iff {es : List (Bytes × Value)} {done ws : List (Bytes × Bytes)} :
    encodeMembers es done = .ok ws ↔
      ∃ ws', List.Forall₂ MemberBytes es ws' ∧ ws = done.reverse ++ ws' := by
  induction es generalizing done with
  | nil => simp [encodeMembers, eq_comm]
  | cons e es ih =>
      obtain ⟨key, v⟩ := e
      rw [encodeMembers]
      cases hv : v.encode with
      | error e => simp [List.forall₂_cons_left_iff, MemberBytes, hv]
      | ok w => simp [List.forall₂_cons_left_iff, MemberBytes, hv, ih]

theorem encode_object_eq_ok_iff {es : List (Bytes × Value)} {w : Bytes} :
    (Value.object es).encode = .ok w ↔
      ∃ ws, List.Forall₂ MemberBytes es ws ∧ w = 0x7b :: separated (memberBytes ws) [0x7d] := by
  rw [Value.encode]
  constructor
  · intro h
    obtain ⟨_, hmembers, hresult⟩ := bind_eq_ok.1 h
    obtain ⟨_, hws, rfl⟩ := encodeMembers_eq_ok_iff.1 hmembers
    exact ⟨_, hws, (Except.ok.inj hresult).symm⟩
  · rintro ⟨ws, hws, rfl⟩
    exact bind_eq_ok.2 ⟨ws, encodeMembers_eq_ok_iff.2 ⟨ws, hws, rfl⟩, rfl⟩

theorem encode_object {α : Type} {key : α → Bytes} {value : α → Value} {bytes : α → Bytes}
    {as : List α} (h : ∀ a ∈ as, (value a).encode = .ok (bytes a)) :
    (Value.object (as.map fun a => (key a, value a))).encode
      = .ok (0x7b :: separated (memberBytes (as.map fun a => (key a, bytes a))) [0x7d]) := by
  refine encode_object_eq_ok_iff.2 ⟨as.map fun a => (key a, bytes a), ?_, rfl⟩
  exact List.forall₂_map_left_iff.2 (List.forall₂_map_right_iff.2
    (List.forall₂_same.2 fun a ha => ⟨rfl, h a ha⟩))

/-- The members of an object under the keys that they are read back with, in order. -/
def keyed (ms : List (Bytes × Copy)) : List (Bytes × Bytes × Copy) :=
  Entries.sort (ms.map fun m => (repaired m.1, m))

theorem mem_keyed {ms : List (Bytes × Copy)} {e : Bytes × Bytes × Copy} (he : e ∈ keyed ms) :
    e.1 = repaired e.2.1 ∧ e.2 ∈ ms := by
  obtain ⟨m, hm, rfl⟩ := List.mem_map.1 ((Entries.sort_perm _).mem_iff.1 he)
  exact ⟨rfl, hm⟩

theorem exists_mem_keyed {ms : List (Bytes × Copy)} {m : Bytes × Copy} (hm : m ∈ ms) :
    (repaired m.1, m) ∈ keyed ms :=
  (Entries.sort_perm _).mem_iff.2 (List.mem_map_of_mem hm)

/-- Keys that are UTF-8 already stay as they are, and in their order. -/
theorem keyed_of_isValid {ms : List (Bytes × Copy)} (hincreasing : Entries.Increasing ms)
    (hkeys : ∀ m ∈ ms, Utf8.isValid m.1 = true) : keyed ms = ms.map fun m => (m.1, m) := by
  have hsame : (ms.map fun m => (repaired m.1, m)) = ms.map fun m => (m.1, m) := by
    apply List.map_congr_left
    intro m hm
    rw [repaired_of_isValid (hkeys m hm)]
  have hincreasing' : Entries.Increasing (ms.map fun m => (m.1, m)) :=
    hincreasing.of_keys (by rw [List.map_map]; rfl)
  rw [keyed, hsame, Entries.sort_eq_self hincreasing'.le]

theorem memberBytes_copies (ms : List (Bytes × Copy)) :
    memberBytes (ms.map fun m => (m.1, m.2.bytes))
      = (keyed ms).map fun e => quote e.2.1 ++ 0x3a :: e.2.2.bytes := by
  have hsort := Entries.sort_map (fun m : Bytes × Copy => quote m.1 ++ 0x3a :: m.2.bytes)
    (ms.map fun m => (repaired m.1, m))
  rw [List.map_map] at hsort
  rw [memberBytes, List.map_map, keyed]
  exact (congrArg (List.map Prod.snd) hsort).trans (List.map_map ..)

/-- The members that are read back are written under their keys as they are. -/
theorem memberBytes_again (ms : List (Bytes × Copy)) :
    memberBytes ((Entries.ofPairs (keyed ms)).map fun e => (e.1, e.2.2.bytesAgain))
      = (Entries.ofPairs (keyed ms)).map fun e => quote e.1 ++ 0x3a :: e.2.2.bytesAgain := by
  have hkeys : ((Entries.ofPairs (keyed ms)).map fun e => (e.1, e.2.2.bytesAgain)).map
        (fun e => (repaired e.1, quote e.1 ++ 0x3a :: e.2))
      = (Entries.ofPairs (keyed ms)).map
        fun e => (e.1, quote e.1 ++ 0x3a :: e.2.2.bytesAgain) := by
    rw [List.map_map]
    apply List.map_congr_left
    intro e he
    have hvalid : Utf8.isValid e.1 = true := by
      rw [(mem_keyed (Entries.mem_of_mem_ofPairs he)).1]
      exact isValid_repaired _
    rw [Function.comp_apply, repaired_of_isValid hvalid]
  have hincreasing : Entries.Increasing ((Entries.ofPairs (keyed ms)).map
      fun e => (e.1, quote e.1 ++ 0x3a :: e.2.2.bytesAgain)) :=
    (Entries.increasing_ofPairs (keyed ms)).of_keys (by rw [List.map_map]; rfl)
  rw [memberBytes, hkeys, Entries.sort_eq_self hincreasing.le, List.map_map]
  rfl

theorem compact_object {order : Bytes → Bytes → Prop} {ms : List (Bytes × Copy)}
    (hvalues : ∀ m ∈ ms, Compact order m.2.bytes)
    (horder : ((keyed ms).map Prod.fst).Pairwise order) :
    Compact order (0x7b :: separated
      ((keyed ms).map fun e => quote e.2.1 ++ 0x3a :: e.2.2.bytes) [0x7d]) := by
  have hcompact : Compact order (0x7b :: separated
      (((keyed ms).map fun e => (e.1, quote e.2.1, e.2.2.bytes)).map
        fun m => m.2.1 ++ 0x3a :: m.2.2) [0x7d]) := by
    apply Compact.object
    · intro m hm
      obtain ⟨e, he, rfl⟩ := List.mem_map.1 hm
      dsimp only
      rw [(mem_keyed he).1]
      exact isString_quote e.2.1
    · intro m hm
      obtain ⟨e, he, rfl⟩ := List.mem_map.1 hm
      exact hvalues e.2 (mem_keyed he).2
    · rw [List.map_map]
      exact horder
  rw [List.map_map] at hcompact
  exact hcompact

/-- The copy of an object, from those of its values. -/
def objectCopy (ms : List (Bytes × Copy)) : Copy where
  value := .object (ms.map fun m => (m.1, m.2.value))
  bytes := 0x7b :: separated ((keyed ms).map fun e => quote e.2.1 ++ 0x3a :: e.2.2.bytes) [0x7d]
  again := .object ((Entries.ofPairs (keyed ms)).map fun e => (e.1, e.2.2.again))
  bytesAgain := 0x7b :: separated
    ((Entries.ofPairs (keyed ms)).map fun e => quote e.1 ++ 0x3a :: e.2.2.bytesAgain) [0x7d]

/-- A member of the copy of an object, as it is read. -/
def copiedMember (e : Bytes × Bytes × Copy) : Member :=
  ⟨e.1, quote e.2.1, e.2.2.bytes, e.2.2.again⟩

theorem objectCopy_reads {levels : Nat} {ms : List (Bytes × Copy)}
    (h : ∀ m ∈ ms, m.2.Faithful levels) {m : Nat} (hm : (objectCopy ms).bytes.length ≤ m)
    (s : Bytes) :
    valueStep m (levels + 1) ((objectCopy ms).bytes ++ s) = .ok ((objectCopy ms).again, s) := by
  have hbytes : (objectCopy ms).bytes
      = 0x7b :: separated (((keyed ms).map copiedMember).map Member.bytes) [0x7d] := by
    rw [List.map_map]
    rfl
  rw [hbytes, List.length_cons] at hm
  -- the words of a member are shorter than the object, and its members no more than its bytes
  have hwords : ∀ e ∈ keyed ms, (quote e.2.1).length ≤ m ∧ e.2.2.bytes.length ≤ m := by
    intro e he
    have hle := length_le_separated
      (List.mem_map_of_mem (f := Member.bytes) (List.mem_map_of_mem (f := copiedMember) he)) [0x7d]
    rw [Member.bytes, List.length_append, List.length_cons] at hle
    dsimp only [copiedMember] at hle
    omega
  have hcount : (((keyed ms).map copiedMember).map Member.bytes).length
      ≤ (separated (((keyed ms).map copiedMember).map Member.bytes) [0x7d]).length := by
    apply count_le_separated
    intro w hw
    obtain ⟨p, -, rfl⟩ := List.mem_map.1 hw
    simp [Member.bytes]
  have hread : object m (valueStep m levels)
        (separated (((keyed ms).map copiedMember).map Member.bytes) (0x7d :: s))
      = .ok (((keyed ms).map copiedMember).map fun m => (m.key, m.value), s) := by
    apply object_separated
    · intro p hp
      obtain ⟨e, he, rfl⟩ := List.mem_map.1 hp
      dsimp only [copiedMember]
      rw [(mem_keyed he).1]
      exact isString_quote e.2.1
    · intro p hp
      obtain ⟨e, he, rfl⟩ := List.mem_map.1 hp
      exact (hwords e he).1
    · intro p hp
      obtain ⟨e, he, rfl⟩ := List.mem_map.1 hp
      exact (h e.2 (mem_keyed he).2).readsFrom (hwords e he).2
    · rw [List.length_map] at hcount
      omega
  have hagain : Entries.ofPairs (((keyed ms).map copiedMember).map fun m => (m.key, m.value))
      = (Entries.ofPairs (keyed ms)).map fun e => (e.1, e.2.2.again) := by
    rw [List.map_map]
    exact Entries.ofPairs_map (fun m : Bytes × Copy => m.2.again) (keyed ms)
  rw [hbytes, List.cons_append, separated_append, valueStep, skipSpace_cons rfl]
  refine bind_eq_ok.2 ⟨_, hread, ?_⟩
  rw [objectCopy, ← hagain]
  rfl

theorem objectCopy_length {levels : Nat} {ms : List (Bytes × Copy)}
    (h : ∀ m ∈ ms, m.2.Faithful levels) :
    (objectCopy ms).bytesAgain.length ≤ (objectCopy ms).bytes.length
      ∧ ((∃ m ∈ ms, Utf8.isValid m.1 = false ∨ ¬ m.2.value.AllUtf8) →
        (objectCopy ms).bytesAgain.length < (objectCopy ms).bytes.length) := by
  have hsublist : (Entries.ofPairs (keyed ms)).Sublist (keyed ms) := by
    have hsorted := Entries.sort_eq_self (Entries.sort_sorted (ms.map fun m => (repaired m.1, m)))
    have hsub := Entries.ofPairs_sublist (keyed ms)
    rwa [keyed, hsorted] at hsub
  -- neither the key nor the value of a member is longer when it is written again
  have hmember : ∀ e ∈ keyed ms,
      (quote e.1).length ≤ (quote e.2.1).length ∧ e.2.2.bytesAgain.length ≤ e.2.2.bytes.length
        ∧ (Utf8.isValid e.2.1 = false → (quote e.1).length < (quote e.2.1).length) := by
    intro e he
    obtain ⟨hkey, hmem⟩ := mem_keyed he
    have hquote := quote_repaired_length e.2.1
    rw [← hkey] at hquote
    exact ⟨hquote.1, (h e.2 hmem).length_le, hquote.2⟩
  have hpiece : ∀ e ∈ keyed ms, (quote e.1 ++ 0x3a :: e.2.2.bytesAgain).length
      ≤ (quote e.2.1 ++ 0x3a :: e.2.2.bytes).length := by
    intro e he
    have hle := hmember e he
    simp only [List.length_append, List.length_cons]
    omega
  obtain ⟨hle, hlt⟩ := length_separated_le hsublist hpiece [0x7d]
  simp only [objectCopy, List.length_cons]
  refine ⟨Nat.succ_le_succ hle, ?_⟩
  rintro ⟨m, hm, hnot⟩
  apply Nat.succ_lt_succ
  apply hlt
  have he := exists_mem_keyed hm
  refine ⟨_, he, ?_⟩
  have hle' := hmember _ he
  simp only [List.length_append, List.length_cons]
  rcases hnot with hkey | hvalue
  · have hshort := hle'.2.2 hkey
    dsimp only at hle' hshort
    omega
  · have hshort := (h m hm).of_not_utf8 hvalue
    dsimp only at hle'
    omega

theorem faithful_object {levels : Nat} {ms : List (Bytes × Copy)}
    (hincreasing : Entries.Increasing ms) (h : ∀ m ∈ ms, m.2.Faithful levels) :
    (objectCopy ms).Faithful (levels + 1) where
  encode_eq := by
    have hencode : (Value.object (ms.map fun m => (m.1, m.2.value))).encode
        = .ok (0x7b :: separated (memberBytes (ms.map fun m => (m.1, m.2.bytes))) [0x7d]) :=
      encode_object fun m hm => (h m hm).encode_eq
    rw [memberBytes_copies] at hencode
    exact hencode
  reads := fun m hm s _ => objectCopy_reads h hm s
  compact := by
    apply compact_object fun m hm => (h m hm).compact
    exact List.pairwise_map.2 (Entries.sort_sorted _)
  encode_again := by
    have hencode : (Value.object ((Entries.ofPairs (keyed ms)).map
          fun e => (e.1, e.2.2.again))).encode
        = .ok (0x7b :: separated (memberBytes ((Entries.ofPairs (keyed ms)).map
          fun e => (e.1, e.2.2.bytesAgain))) [0x7d]) :=
      encode_object fun e he => (h e.2 (mem_keyed (Entries.mem_of_mem_ofPairs he)).2).encode_again
    rw [memberBytes_again] at hencode
    exact hencode
  length_le := (objectCopy_length h).1
  of_utf8 := by
    intro hutf8
    have hutf8' : (Value.object (ms.map fun m => (m.1, m.2.value))).AllUtf8 := hutf8
    cases hutf8' with
    | object hkeys hvalues =>
        have hcopy : ∀ m ∈ ms, m.2.again = m.2.value ∧ Compact (· < ·) m.2.bytes := fun m hm =>
          (h m hm).of_utf8 (hvalues (m.1, m.2.value) (List.mem_map_of_mem hm))
        have hkeyed := keyed_of_isValid hincreasing fun m hm =>
          hkeys (m.1, m.2.value) (List.mem_map_of_mem hm)
        have hincreasing' : Entries.Increasing (keyed ms) := by
          rw [hkeyed]
          exact hincreasing.of_keys (by rw [List.map_map]; rfl)
        constructor
        · simp only [objectCopy]
          rw [Entries.ofPairs_eq_self hincreasing', hkeyed, List.map_map]
          congr 1
          apply List.map_congr_left
          intro m hm
          rw [Function.comp_apply, (hcopy m hm).1]
        · exact compact_object (fun m hm => (hcopy m hm).2) (Entries.increasing_iff.1 hincreasing')
  of_not_utf8 := by
    intro hnot
    apply (objectCopy_length h).2
    by_contra hnone
    refine hnot (.object ?_ ?_)
    · intro e he
      obtain ⟨m, hm, rfl⟩ := List.mem_map.1 he
      by_contra hkey
      exact hnone ⟨m, hm, .inl (Bool.eq_false_iff.2 hkey)⟩
    · intro e he
      obtain ⟨m, hm, rfl⟩ := List.mem_map.1 he
      by_contra hvalue
      exact hnone ⟨m, hm, .inr hvalue⟩

/-! ## Whole values -/

/-- What is found has a faithful copy when the values inside it have. -/
theorem Found.exists_faithful {levels : Nat} {inner : Option (Value → Prop)} {v : Value}
    (hfound : Found inner v) (hinner : ∀ p ∈ inner, ∃ l, levels = l + 1 ∧
      ∀ u, p u → ∃ c : Copy, c.value = u ∧ c.Faithful l) :
    ∃ c : Copy, c.value = v ∧ c.Faithful levels := by
  cases hfound with
  | null => exact ⟨_, rfl, faithful_null levels⟩
  | bool b => exact ⟨_, rfl, faithful_bool levels b⟩
  | number ht => exact ⟨_, rfl, faithful_number levels ht⟩
  | string bs => exact ⟨_, rfl, faithful_string levels bs⟩
  | array hvs =>
      obtain ⟨l, rfl, hcopies⟩ := hinner _ rfl
      obtain ⟨cs, rfl, hcs⟩ := exists_map_eq fun v hv => hcopies v (hvs v hv)
      exact ⟨_, rfl, faithful_array hcs⟩
  | @object p es hincreasing hes =>
      obtain ⟨l, rfl, hcopies⟩ := hinner _ rfl
      have hmembers : ∀ e ∈ es, ∃ m : Bytes × Copy, (m.1, m.2.value) = e ∧ m.2.Faithful l := by
        intro e he
        obtain ⟨c, hc, hfaithful⟩ := hcopies e.2 (hes e he)
        exact ⟨(e.1, c), by rw [hc], hfaithful⟩
      obtain ⟨ms, rfl, hms⟩ := exists_map_eq hmembers
      have hincreasing' : Entries.Increasing ms :=
        hincreasing.of_keys (by rw [List.map_map]; rfl)
      exact ⟨objectCopy ms, rfl, faithful_object hincreasing' hms⟩

/-- **Every value that is read has a faithful copy.** The levels below give those of the values
inside it. -/
theorem exists_faithful {n levels : Nat} {bs rest : Bytes} {v : Value}
    (h : valueStep n levels bs = .ok (v, rest)) : ∃ c : Copy, c.value = v ∧ c.Faithful levels := by
  induction levels generalizing bs v rest with
  | zero =>
      rw [valueStep] at h
      split at h
      · exact (valueFrom_found h).exists_faithful (by simp)
      · cases h
  | succ levels ih =>
      rw [valueStep] at h
      split at h
      · refine (valueFrom_found h).exists_faithful ?_
        intro p hp
        cases hp
        refine ⟨levels, rfl, ?_⟩
        rintro u ⟨bs', rest', hread⟩
        exact ih hread
      · cases h

/-! ## Main statement -/

theorem encode_of_eq {v : Value} {w : Bytes} (h : v.encode = .ok w) :
    codec.encode v = Emission.once w := by
  change Emission.ofExcept (v.encode.mapError Error.toFailure) = _
  rw [h]
  rfl

/-- **A document that is written again is the same exactly when its strings are UTF-8.** The value of
an accepted document can be written, the bytes are compact and they are accepted. Their value is
written as the same bytes if and only if all strings and keys were UTF-8, and then it is the same
value and no key occurs twice. -/
theorem encode_stable_iff {bs : Bytes} {v : Value} (h : codec.decode bs = .ok v) :
    (codec.encode v).failure = none ∧
      Compact (· ≤ ·) (codec.encode v).bytes ∧
      ∃ v', codec.decode (codec.encode v).bytes = .ok v' ∧
        (codec.encode v' = codec.encode v ↔ v.AllUtf8) ∧
        (v.AllUtf8 → v' = v ∧ Compact (· < ·) (codec.encode v).bytes) := by
  obtain ⟨-, -, tail, hvalue, -⟩ := decode_eq_ok_iff.1 h
  obtain ⟨c, rfl, hc⟩ := exists_faithful hvalue
  rw [encode_of_eq hc.encode_eq, Emission.bytes_once]
  refine ⟨rfl, hc.compact, c.again, ?_, ?_, hc.of_utf8⟩
  · -- the bytes are the value with nothing behind it, and no white space is at their ends
    obtain ⟨⟨b, t, hfirst, hspace, -⟩, hend⟩ := hc.compact.ends
    have hread := hc.reads c.bytes.length (Nat.le_refl _) [] (by simp [Value.EndsBefore])
    rw [List.append_nil] at hread
    refine decode_eq_ok_iff.2 ⟨?_, hend, [], hread, rfl⟩
    rw [hfirst]
    exact hspace
  · rw [encode_of_eq hc.encode_again]
    constructor
    · intro hsame
      by_contra hnot
      have hlt := hc.of_not_utf8 hnot
      have hbytes := congrArg Emission.bytes hsame
      rw [Emission.bytes_once, Emission.bytes_once] at hbytes
      rw [hbytes] at hlt
      exact Nat.lt_irrefl _ hlt
    · intro hutf8
      have hencode := hc.encode_again
      rw [(hc.of_utf8 hutf8).1, hc.encode_eq] at hencode
      rw [Except.ok.inj hencode]

/-- Keys out of order, white space, a character that is written as an escape, and a numeral that is
not the shortest: `{"b": 15e-1,"a":"<"}`. -/
theorem encode_stable_unordered :
    codec.decode [0x7b, 0x22, 0x62, 0x22, 0x3a, 0x20, 0x31, 0x35, 0x65, 0x2d, 0x31, 0x2c, 0x22,
        0x61, 0x22, 0x3a, 0x22, 0x3c, 0x22, 0x7d]
        = .ok (.object [([0x61], .string [0x3c]), ([0x62], .number 0x3ff8000000000000)])
      ∧ codec.decode (codec.encode
          (.object [([0x61], .string [0x3c]), ([0x62], .number 0x3ff8000000000000)])).bytes
        = .ok (.object [([0x61], .string [0x3c]), ([0x62], .number 0x3ff8000000000000)])
      ∧ Compact (· < ·) (codec.encode
          (.object [([0x61], .string [0x3c]), ([0x62], .number 0x3ff8000000000000)])).bytes := by
  have hread : object 20 (valueStep 20 9999) [0x22, 0x62, 0x22, 0x3a, 0x20, 0x31, 0x35, 0x65, 0x2d,
        0x31, 0x2c, 0x22, 0x61, 0x22, 0x3a, 0x22, 0x3c, 0x22, 0x7d]
      = .ok ([([0x62], .number 0x3ff8000000000000), ([0x61], .string [0x3c])], []) := rfl
  have hsorted : Entries.ofPairs
      [([0x62], .number 0x3ff8000000000000), ([0x61], Value.string [0x3c])]
        = [([0x61], .string [0x3c]), ([0x62], .number 0x3ff8000000000000)] := by
    rw [Entries.ofPairs, Entries.sort_eq_of_perm (List.Perm.swap _ _ _)]
    · rfl
    · unfold Entries.Increasing
      decide
  have hdecode : codec.decode [0x7b, 0x22, 0x62, 0x22, 0x3a, 0x20, 0x31, 0x35, 0x65, 0x2d, 0x31,
        0x2c, 0x22, 0x61, 0x22, 0x3a, 0x22, 0x3c, 0x22, 0x7d]
      = .ok (.object [([0x61], .string [0x3c]), ([0x62], .number 0x3ff8000000000000)]) := by
    refine decode_eq_ok_iff.2 ⟨rfl, rfl, [], ?_, rfl⟩
    rw [← hsorted]
    exact bind_eq_ok.2 ⟨_, hread, rfl⟩
  have hutf8 : (Value.object
      [([0x61], .string [0x3c]), ([0x62], .number 0x3ff8000000000000)]).AllUtf8 := by
    refine .object (by decide) ?_
    intro e he
    rcases List.mem_cons.1 he with rfl | he
    · exact .string (by decide)
    · obtain rfl := List.mem_singleton.1 he
      exact .number _
  obtain ⟨-, -, v', hagain, -, hsame⟩ := encode_stable_iff hdecode
  obtain ⟨rfl, hcompact⟩ := hsame hutf8
  exact ⟨hdecode, hagain, hcompact⟩

/-- A stray byte is written as an escape, read as the replacement character and written as that
character the second time. -/
theorem encode_stray_byte :
    codec.decode [0x22, 0xff, 0x22] = .ok (.string [0xff])
      ∧ (codec.encode (.string [0xff])).bytes = [0x22, 0x5c, 0x75, 0x66, 0x66, 0x66, 0x64, 0x22]
      ∧ codec.decode [0x22, 0x5c, 0x75, 0x66, 0x66, 0x66, 0x64, 0x22]
        = .ok (.string [0xef, 0xbf, 0xbd])
      ∧ (codec.encode (.string [0xef, 0xbf, 0xbd])).bytes = [0x22, 0xef, 0xbf, 0xbd, 0x22] := by
  refine ⟨rfl, by decide, rfl, by decide⟩

end RoundTrip.Json
