import RoundTrip.Cbor.Writer
import RoundTrip.Proofs.Reading.Words

/-!
# Keys of CBOR maps

Two keys of a map are the same when their identities are, and a map in which a key occurs twice is
refused. A key that is written and read again is another one: times have become texts, and all that
is no number has become one pattern. Keys that were different are then the same in one way only:
they are written as the same bytes. What is no number is never the same as anything.

Main statements: `interpretPairs_eq_ok_iff`, `Value.again_eq_of_same`.
-/

set_option autoImplicit false

namespace RoundTrip.Cbor

namespace Value

/-! ## The same key -/

/-- Two keys with one identity. -/
def Same (a b : Value) : Prop := ∃ i, a.identity? = some i ∧ b.identity? = some i

theorem floatIdentity?_eq_none_iff {bits : UInt64} :
    floatIdentity? bits = none ↔ Binary.double.unpack bits.toNat = .nan := by
  unfold floatIdentity?
  split <;> simp_all

/-- Something that is no number, also inside tags. -/
def isNan : Value → Bool
  | float bits => Binary.double.unpack bits.toNat = .nan
  | tag _ content => content.isNan
  | _ => false

/-- The keys that a reader can find. -/
inductive IsKey : Value → Prop
  | nil : IsKey nil
  | bool (b : Bool) : IsKey (bool b)
  | unsigned {n : Nat} (h : n < wordCount) : IsKey (unsigned n)
  | signed {n : Int} (h : FitsWord n) : IsKey (signed n)
  | float (bits : UInt64) : IsKey (float bits)
  | byteKey (bs : Bytes) : IsKey (byteKey bs)
  | text (bs : Bytes) : IsKey (text bs)
  | simple {n : Nat} (h : n < 256) : IsKey (simple n)
  | time (t : Instant) : IsKey (time t)
  | tag {number : Nat} {content : Value} (hzero : number ≠ 0) (hlt : number < wordCount)
      (h : IsKey content) : IsKey (tag number content)

/-- A key that stands for itself. -/
def isPlain : Value → Bool
  | float _ => false
  | time _ => false
  | tag _ _ => false
  | _ => true

theorem bigEndian_inj {a b : Nat} (ha : a < wordCount) (hb : b < wordCount)
    (h : Bytes.bigEndian 8 a = Bytes.bigEndian 8 b) : a = b := by
  have hnumber := congrArg Bytes.toNat h
  have hpow : Nat.pow 256 8 = wordCount := by decide
  rwa [Bytes.toNat_bigEndian, Bytes.toNat_bigEndian, hpow, Nat.mod_eq_of_lt ha,
    Nat.mod_eq_of_lt hb] at hnumber

theorem unsignedWord_lt (n : Int) : unsignedWord n < wordCount := by
  simp only [unsignedWord, wordCount]
  omega

theorem unsignedWord_inj {a b : Int} (ha : FitsWord a) (hb : FitsWord b)
    (h : unsignedWord a = unsignedWord b) : a = b := by
  simp only [FitsWord, wordHalf, unsignedWord, wordCount] at *
  omega

/-- A plain key is told by its identity. -/
theorem eq_of_same {a b : Value} (ha : a.IsKey) (hb : b.IsKey) (hplain : a.isPlain = true)
    (h : Same a b) : a = b := by
  obtain ⟨i, hi, hi'⟩ := h
  cases ha with
  | nil =>
      cases hi
      cases hb with
      | nil => rfl
      | _ => simp [identity?] at hi'
  | bool x =>
      cases hi
      cases hb with
      | bool y => cases x <;> cases y <;> simp_all [identity?]
      | _ => simp [identity?] at hi'
  | @unsigned m hm =>
      cases hi
      cases hb with
      | unsigned hn => rw [bigEndian_inj hn hm (List.cons.inj (Option.some.inj hi')).2]
      | _ => simp [identity?] at hi'
  | @signed m hm =>
      cases hi
      cases hb with
      | @signed n hn =>
          have hwords := bigEndian_inj (unsignedWord_lt n) (unsignedWord_lt m)
            (List.cons.inj (Option.some.inj hi')).2
          rw [unsignedWord_inj hn hm hwords]
      | _ => simp [identity?] at hi'
  | text bs =>
      cases hi
      cases hb with
      | text cs => rw [(List.cons.inj (Option.some.inj hi')).2]
      | _ => simp [identity?] at hi'
  | byteKey bs =>
      cases hi
      cases hb with
      | byteKey cs => rw [(List.cons.inj (Option.some.inj hi')).2]
      | _ => simp [identity?] at hi'
  | simple hm =>
      cases hi
      cases hb with
      | simple hn =>
          have hbytes := (List.cons.inj (List.cons.inj (Option.some.inj hi')).2).1
          have hnumbers := congrArg UInt8.toNat hbytes
          rw [UInt8.toNat_ofNat', UInt8.toNat_ofNat', Nat.mod_eq_of_lt hm, Nat.mod_eq_of_lt hn]
            at hnumbers
          rw [hnumbers]
      | _ => simp [identity?] at hi'
  | float bits => cases hplain
  | time t => cases hplain
  | tag hzero hlt h => cases hplain

/-! ## Keys that are read again -/

/-- The pattern as which everything that is no number is read again. -/
def nanBits : UInt64 := 0x7ff8000000000000

theorem unpack_nanBits : Binary.double.unpack nanBits.toNat = .nan := by decide

/-- The key as which a key is read again. -/
def again : Value → Value
  | float bits => if Binary.double.unpack bits.toNat = .nan then float nanBits else float bits
  | time t => if t.isUnset then nil else text (Bytes.ofString (Timestamp.write t))
  | tag number content => tag number content.again
  | v => v

theorem IsKey.again {k : Value} (h : k.IsKey) : k.again.IsKey := by
  induction h with
  | float bits =>
      rw [Value.again]
      split
      · exact .float nanBits
      · exact .float bits
  | time t =>
      rw [Value.again]
      split
      · exact .nil
      · exact .text _
  | tag hzero hlt _ ih => exact .tag hzero hlt ih
  | nil => exact .nil
  | bool b => exact .bool b
  | unsigned hn => exact .unsigned hn
  | signed hn => exact .signed hn
  | byteKey bs => exact .byteKey bs
  | text bs => exact .text bs
  | simple hn => exact .simple hn

/-- A key that is read again has an identity unless it is no number. -/
theorem identity?_again_eq_none_iff {k : Value} (h : k.IsKey) :
    k.again.identity? = none ↔ k.isNan = true := by
  induction h with
  | float bits =>
      by_cases hnan : Binary.double.unpack bits.toNat = .nan
      · simp [Value.again, isNan, identity?, hnan, floatIdentity?_eq_none_iff, unpack_nanBits]
      · simp [Value.again, isNan, identity?, hnan, floatIdentity?_eq_none_iff]
  | time t =>
      rw [Value.again]
      split
      · simp [isNan, identity?]
      · simp [isNan, identity?]
  | tag _ _ _ ih => simp [Value.again, isNan, identity?, ih]
  | _ => simp [Value.again, isNan, identity?]

theorem of_identity?_again_float {bits : UInt64} {i : Bytes}
    (h : (float bits).again.identity? = some i) :
    (float bits).again = float bits ∧ ∃ j, floatIdentity? bits = some j ∧ 4 :: j = i := by
  by_cases hnan : Binary.double.unpack bits.toNat = .nan
  · have hnone : (float bits).again.identity? = none :=
      (identity?_again_eq_none_iff (.float bits)).2 (by simp [isNan, hnan])
    rw [hnone] at h
    cases h
  · have hself : (float bits).again = float bits := if_neg hnan
    rw [hself] at h
    exact ⟨hself, Option.map_eq_some_iff.1 h⟩

/-- **Keys that are the same when they are read again** are equal then, or were the same before. -/
theorem again_eq_of_same {a b : Value} (ha : a.IsKey) (hb : b.IsKey)
    (h : Same a.again b.again) : a.again = b.again ∨ Same a b := by
  induction ha generalizing b with
  | float bits =>
      right
      obtain ⟨i, hi, hi'⟩ := h
      obtain ⟨hself, j, -, rfl⟩ := of_identity?_again_float hi
      cases hb with
      | float bits' =>
          obtain ⟨hself', -⟩ := of_identity?_again_float hi'
          rw [hself] at hi
          rw [hself'] at hi'
          exact ⟨_, hi, hi'⟩
      | time t =>
          rw [Value.again] at hi'
          split at hi'
          · simp [identity?] at hi'
          · simp [identity?] at hi'
      | _ => simp [Value.again, identity?] at hi'
  | time t =>
      left
      apply eq_of_same (IsKey.time t).again hb.again _ h
      rw [again]
      split
      · rfl
      · rfl
  | @tag number content hzero hlt hcontent ih =>
      obtain ⟨i, hi, hi'⟩ := h
      obtain ⟨j, hj, rfl⟩ := Option.map_eq_some_iff.1 hi
      cases hb with
      | @tag number' content' hzero' hlt' hcontent' =>
          obtain ⟨j', hj', hbytes⟩ := Option.map_eq_some_iff.1 hi'
          -- the number takes as many bytes in both identities
          obtain ⟨hnumber, rfl⟩ := List.append_inj (List.cons.inj hbytes).2
            (by rw [Bytes.length_bigEndian, Bytes.length_bigEndian])
          obtain rfl := bigEndian_inj hlt' hlt hnumber
          rcases ih hcontent' ⟨j', hj, hj'⟩ with heq | ⟨k, hk, hk'⟩
          · left
            rw [Value.again, Value.again, heq]
          · right
            exact ⟨_, Option.map_eq_some_iff.2 ⟨k, hk, rfl⟩, Option.map_eq_some_iff.2 ⟨k, hk', rfl⟩⟩
      | float bits =>
          obtain ⟨-, j', -, hbytes⟩ := of_identity?_again_float hi'
          cases hbytes
      | time t =>
          rw [Value.again] at hi'
          split at hi'
          · simp [identity?] at hi'
          · simp [identity?] at hi'
      | _ => simp [Value.again, identity?] at hi'
  | nil => exact .inl (eq_of_same .nil hb.again rfl h)
  | bool x => exact .inl (eq_of_same (.bool x) hb.again rfl h)
  | unsigned hn => exact .inl (eq_of_same (.unsigned hn) hb.again rfl h)
  | signed hn => exact .inl (eq_of_same (.signed hn) hb.again rfl h)
  | byteKey bs => exact .inl (eq_of_same (.byteKey bs) hb.again rfl h)
  | text bs => exact .inl (eq_of_same (.text bs) hb.again rfl h)
  | simple hn => exact .inl (eq_of_same (.simple hn) hb.again rfl h)

/-! ## Keys that are written -/

theorem encode_tag {o : Order} {number : Nat} {content : Value} (h : number ≠ 0) :
    (tag number content).encode o
      = (content.encode o).map fun bs => shortHead .tag number ++ bs := by
  rw [encode]
  · rfl
  · intro hzero
    exact absurd hzero h

/-- Byte strings are written in the same way in the place of keys. -/
theorem encode_of_key? {v k : Value} (o : Order) (hk : k.IsKey) (h : v.key? = some k) :
    k.encode o = v.encode o := by
  fun_induction key? v generalizing k with
  | case1 bs =>
      obtain rfl := Option.some.inj h
      rw [encode, encode]
  | case2 number content ih =>
      obtain ⟨k', hk', rfl⟩ := Option.map_eq_some_iff.1 h
      cases hk with
      | tag hzero _ hkey => rw [encode_tag hzero, encode_tag hzero, ih hkey hk']
  | case3 n => cases h
  | case4 vs => cases h
  | case5 es => cases h
  | case6 v => rw [Option.some.inj h]

end Value

/-! ## Maps in which no key occurs twice -/

namespace Partial

theorem has_iff {p : Partial} {k : Value} :
    p.has k = true ↔ ∃ i, k.identity? = some i ∧ i ∈ p.seen := by
  unfold has
  cases k.identity? with
  | none => simp
  | some i => simp

theorem has_add {p : Partial} {k v k' : Value} :
    (p.add k v).has k' = false ↔ ¬ k.Same k' ∧ p.has k' = false := by
  rw [← Bool.not_eq_true, ← Bool.not_eq_true, ← not_or, not_iff_not, has_iff, has_iff, add]
  cases hk : k.identity? with
  | none => simp [Value.Same, hk]
  | some i =>
      simp only [Std.HashSet.mem_insert, beq_iff_eq, Value.Same, hk, Option.some.injEq]
      constructor
      · rintro ⟨j, hj, rfl | hseen⟩
        · exact .inl ⟨i, rfl, hj⟩
        · exact .inr ⟨j, hj, hseen⟩
      · rintro (⟨j, rfl, hj⟩ | ⟨j, hj, hseen⟩)
        · exact ⟨i, hj, .inl rfl⟩
        · exact ⟨j, hj, .inr hseen⟩

end Partial

/-- A pair of items that stands for an entry of a map. -/
def IsEntry (pair : Item × Item) (entry : Value × Value) : Prop :=
  ∃ k, pair.1.interpret true = .ok k ∧ k.key? = some entry.1
    ∧ pair.2.interpret true = .ok entry.2

/-- An error in a map is not forgotten. -/
theorem interpretPairs_of_error {pairs : List (Item × Item)} {p : Partial} {e : Error} {v : Value}
    (he : p.error = some e) : interpretPairs pairs p ≠ .ok v := by
  induction pairs generalizing p e with
  | nil => simp [interpretPairs, Partial.finish, he]
  | cons pair pairs ih =>
      rw [interpretPairs]
      split
      · exact ih rfl
      split
      · exact ih rfl
      split
      · exact ih rfl
      split
      · simp
      · exact ih he

/-- A map goes on after a pair when the pair is an entry with a new key. -/
theorem interpretPairs_cons_eq_ok_iff {pair : Item × Item} {pairs : List (Item × Item)}
    {p : Partial} {v : Value} :
    interpretPairs (pair :: pairs) p = .ok v ↔ ∃ e, IsEntry pair e ∧ p.has e.1 = false
      ∧ interpretPairs pairs (p.add e.1 e.2) = .ok v := by
  constructor
  · intro h
    rw [interpretPairs] at h
    split at h
    · exact absurd h (interpretPairs_of_error rfl)
    rename_i k hk
    split at h
    · exact absurd h (interpretPairs_of_error rfl)
    rename_i key hkey
    split at h
    · exact absurd h (interpretPairs_of_error rfl)
    rename_i value hvalue
    split at h
    · cases h
    rename_i hnew
    exact ⟨(key, value), ⟨k, hk, hkey, hvalue⟩, Bool.eq_false_iff.2 hnew, h⟩
  · rintro ⟨e, ⟨k, hk, hkey, hvalue⟩, hnew, h⟩
    rw [interpretPairs]
    simp only [hk, hkey, hvalue, hnew]
    exact h

/-- **A map stands for its entries when no key occurs twice**, and for nothing else. -/
theorem interpretPairs_eq_ok_iff {pairs : List (Item × Item)} {p : Partial} {v : Value}
    (hp : p.error = none) :
    interpretPairs pairs p = .ok v ↔ ∃ es, List.Forall₂ IsEntry pairs es
      ∧ (es.Pairwise fun a b => ¬ a.1.Same b.1) ∧ (∀ e ∈ es, p.has e.1 = false)
      ∧ v = .map (p.entries.reverse ++ es) := by
  induction pairs generalizing p with
  | nil =>
      rw [interpretPairs, Partial.finish, hp]
      constructor
      · rintro ⟨⟩
        exact ⟨[], .nil, .nil, by simp, by simp⟩
      · rintro ⟨es, hes, -, -, rfl⟩
        cases hes
        simp
  | cons pair pairs ih =>
      have hadd : ∀ e : Value × Value, (p.add e.1 e.2).error = none := fun _ => hp
      have hentries : ∀ e es, (p.add e.1 e.2).entries.reverse ++ es
          = p.entries.reverse ++ e :: es := by simp [Partial.add]
      rw [interpretPairs_cons_eq_ok_iff]
      constructor
      · rintro ⟨e, hentry, hnew, h⟩
        obtain ⟨es, hes, hdistinct, hfresh, rfl⟩ := (ih (hadd e)).1 h
        rw [hentries]
        refine ⟨e :: es, .cons hentry hes, List.pairwise_cons.2 ⟨?_, hdistinct⟩,
          List.forall_mem_cons.2 ⟨hnew, ?_⟩, rfl⟩
        · exact fun e' he' => (Partial.has_add.1 (hfresh e' he')).1
        · exact fun e' he' => (Partial.has_add.1 (hfresh e' he')).2
      · rintro ⟨es, hes, hdistinct, hfresh, rfl⟩
        cases hes with
        | @cons _ e _ es hentry hes =>
            rw [List.pairwise_cons] at hdistinct
            rw [List.forall_mem_cons] at hfresh
            refine ⟨e, hentry, hfresh.1, (ih (hadd e)).2 ⟨es, hes, hdistinct.2, ?_, ?_⟩⟩
            · intro e' he'
              exact Partial.has_add.2 ⟨hdistinct.1 e' he', hfresh.2 e' he'⟩
            · rw [hentries]

end RoundTrip.Cbor
