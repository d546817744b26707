import RoundTrip.Json.Reading
import RoundTrip.Proofs.Json.Compact
import RoundTrip.Proofs.Json.Numerals
import RoundTrip.Proofs.Readings.Fields

/-!
# Readings in JSON

A reading is written as an object with its fields in their order. Integers are written as digits, and
the reader adds them up in a word of 64 bits, which never wraps for an integer that fits. Strings are
read back when they are UTF-8, whatever has to be escaped in them, and repaired otherwise. There are
no lengths in this format, so nothing else can go wrong.

Main statements: `readingCodec_decode_encode`, `readingCodec_restores_iff`.
-/

set_option autoImplicit false

namespace RoundTrip.Json

open Binary Step

/-! ## Integers -/

/-- What can follow a numeral is neither a digit nor a point. -/
theorem of_not_isNumeralByte {b : UInt8} (h : isNumeralByte b = false) :
    digit? b = none ∧ b ≠ 0x2e := by
  constructor
  · cases hdigit : digit? b with
    | none => rfl
    | some d => simp [isNumeralByte, hdigit] at h
  · rintro rfl
    cases h

/-- Digits that stand for a number of 64 bits are added up without a loss. -/
theorem wordDigits_append {ds : List Nat} {value : Nat} {s : Bytes} (hds : ∀ d ∈ ds, d < 10)
    (hvalue : value * 10 ^ ds.length + digitsToNat ds < wordCount)
    (hs : ∀ b ∈ s.head?, isNumeralByte b = false) :
    wordDigits value (digitBytes ds ++ s) = .ok (value * 10 ^ ds.length + digitsToNat ds, s) := by
  induction ds generalizing value with
  | nil =>
      cases s with
      | nil => simp [digitBytes, wordDigits, digitsToNat]
      | cons b s =>
          obtain ⟨hdigit, hpoint⟩ := of_not_isNumeralByte (hs b rfl)
          simp [digitBytes, wordDigits, hdigit, hpoint, digitsToNat]
  | cons d ds ih =>
      rw [List.forall_mem_cons] at hds
      have hnext : value * 10 ^ (d :: ds).length + digitsToNat (d :: ds)
          = (10 * value + d) * 10 ^ ds.length + digitsToNat ds := by
        rw [digitsToNat_cons, List.length_cons, Nat.pow_succ]
        ring
      rw [hnext] at hvalue ⊢
      -- no value on the way is more than the last one, so none of them wraps
      have hpos : 0 < 10 ^ ds.length := Nat.pow_pos (by decide)
      have hle : 10 * value + d ≤ (10 * value + d) * 10 ^ ds.length + digitsToNat ds :=
        Nat.le_trans (Nat.le_mul_of_pos_right _ hpos) (Nat.le_add_right _ _)
      have hlt : 10 * value + d < wordCount := Nat.lt_of_le_of_lt hle hvalue
      have hroom : ¬ (roomForDigit < value ∧ (10 * value + d) % wordCount < value) := by
        rw [Nat.mod_eq_of_lt hlt]
        omega
      rw [digitBytes_cons, List.cons_append, wordDigits, digit?_digitByte hds.1]
      dsimp only
      rw [if_neg hroom, Nat.mod_eq_of_lt hlt]
      exact ih hds.2 hvalue

/-- The digits of a number. -/
def naturalBytes (n : Nat) : Bytes := Bytes.ofString (Nat.repr n)

theorem exists_naturalBytes (n : Nat) :
    ∃ d es, d < 10 ∧ (∀ e ∈ es, e < 10) ∧ naturalBytes n = digitBytes (d :: es)
      ∧ digitsToNat (d :: es) = n ∧ (d = 0 → n = 0 ∧ es = []) := by
  obtain ⟨d, es, hdigits⟩ := exists_digits n
  obtain ⟨hd, hes⟩ := List.forall_mem_cons.1 hdigits.lt
  refine ⟨d, es, hd, hes, ?_, hdigits.value, hdigits.zero⟩
  rw [naturalBytes, Nat.repr, hdigits.chars, Bytes.ofString_ofList,
    flatMap_encode_digits hdigits.lt]

theorem wordNumeral_naturalBytes {n : Nat} (hn : n < wordCount) {b : UInt8}
    (hb : isNumeralByte b = false) (s : Bytes) :
    wordNumeral (naturalBytes n ++ b :: s) = .ok (n, b :: s) := by
  obtain ⟨d, es, hd, hes, hbytes, hvalue, hzero⟩ := exists_naturalBytes n
  have hs : ∀ x ∈ (b :: s).head?, isNumeralByte x = false := by
    rintro _ ⟨⟩
    exact hb
  rw [hbytes, digitBytes_cons, List.cons_append, wordNumeral, digit?_digitByte hd]
  cases d with
  | zero =>
      -- a leading zero is all there is
      obtain ⟨rfl, rfl⟩ := hzero rfl
      simp [digitBytes, (of_not_isNumeralByte hb).2]
  | succ d =>
      rw [digitsToNat_cons] at hvalue
      have hword := wordDigits_append hes (by rwa [hvalue]) hs
      rw [hvalue] at hword
      exact hword

theorem ofString_toString_negSucc (n : Nat) :
    Bytes.ofString (toString (Int.negSucc n)) = 0x2d :: naturalBytes (n + 1) := by
  have hsign : Bytes.ofString "-" = [0x2d] := by
    rw [Bytes.ofString_eq]
    rfl
  have htext : toString (Int.negSucc n) = "-" ++ Nat.repr (n + 1) := rfl
  rw [htext, Bytes.ofString_append, hsign]
  rfl

/-- The first byte of a number is a digit. -/
theorem skipSpace_naturalBytes (n : Nat) (s : Bytes) :
    ∃ b t, naturalBytes n ++ s = b :: t ∧ skipSpace (naturalBytes n ++ s) = b :: t
      ∧ b ≠ 0x6e ∧ b ≠ 0x2d := by
  obtain ⟨d, es, hd, -, hbytes, -⟩ := exists_naturalBytes n
  have hdigits : naturalBytes n ++ s = digitByte d :: (digitBytes es ++ s) := by
    rw [hbytes, digitBytes_cons, List.cons_append]
  have hplain : ∀ d < 10, isSpace (digitByte d) = false ∧ digitByte d ≠ 0x6e
      ∧ digitByte d ≠ 0x2d := by
    decide
  obtain ⟨hspace, hnull, hsign⟩ := hplain d hd
  refine ⟨digitByte d, digitBytes es ++ s, hdigits, ?_, hnull, hsign⟩
  rw [hdigits, skipSpace_cons hspace]

theorem readsFrom_integer {n : Int} (h : FitsWord n) :
    ReadsFrom integerOrNull (Bytes.ofString (toString n)) (some n) := by
  intro b s hb
  cases n with
  | ofNat n =>
      have hn : n < wordHalf := Int.ofNat_lt.1 h.2
      have hword := wordNumeral_naturalBytes (Nat.lt_trans hn (by decide)) hb s
      obtain ⟨c, t, hbytes, hskip, hnull, hsign⟩ := skipSpace_naturalBytes n (b :: s)
      have htext : Bytes.ofString (toString (Int.ofNat n)) = naturalBytes n := rfl
      rw [htext, integerOrNull, hskip]
      rw [hbytes] at hword
      split
      · rename_i heq
        injection heq with hc
        exact absurd hc hnull
      · rename_i heq
        injection heq with hc
        exact absurd hc hsign
      · refine bind_eq_ok.2 ⟨_, hword, ?_⟩
        dsimp only
        rw [if_neg (Nat.not_le.2 hn)]
        rfl
  | negSucc n =>
      have hn : n + 1 ≤ wordHalf := by
        have hlow := h.1
        simp only [wordHalf] at hlow ⊢
        omega
      have hword := wordNumeral_naturalBytes (Nat.lt_of_le_of_lt hn (by decide)) hb s
      rw [ofString_toString_negSucc, List.cons_append, integerOrNull, skipSpace_cons rfl]
      refine bind_eq_ok.2 ⟨_, hword, ?_⟩
      dsimp only
      rw [if_neg (Nat.not_lt.2 hn)]
      rfl

/-! ## Fields -/

/-- The reading as it is read back: texts have the replacement character for stray bytes. -/
def repairedReading (r : Reading) : Reading where
  sensor := repaired r.sensor
  value := r.value
  tags := r.tags.map fun tags => tags.map repaired

theorem repairedReading_eq_iff {r : Reading} : repairedReading r = r ↔ r.IsUtf8 := by
  have htext : ∀ t, repaired t = t ↔ Utf8.isValid t = true := by
    intro t
    refine ⟨?_, repaired_of_isValid⟩
    intro h
    rw [← h]
    exact isValid_repaired t
  obtain ⟨sensor, value, tags⟩ := r
  cases tags with
  | none => simp [repairedReading, Reading.IsUtf8, Reading.texts, htext]
  | some tags =>
      have hmap : tags.map repaired = tags ↔ ∀ t ∈ tags, Utf8.isValid t = true := by
        simp only [← htext]
        rw [← List.map_inj_left, List.map_id']
      simp [repairedReading, Reading.IsUtf8, Reading.texts, htext, hmap]

theorem readsFrom_quote {size : Nat} {t : Bytes} (hsize : (quote t).length ≤ size) :
    ReadsFrom (stringOrNull size) (quote t) (repaired t) := by
  intro b s _
  exact stringOrNull_of_isString (isString_quote t) hsize (b :: s)

theorem readsFrom_tags {size : Nat} {r : Reading} (hsize : (fieldBytes r .tags).length ≤ size) :
    ReadsFrom (stringsOrNull size) (fieldBytes r .tags) (repairedReading r).tags := by
  intro b s _
  obtain ⟨sensor, value, tags⟩ := r
  cases tags with
  | none =>
      have hnull : Bytes.ofString "null" = [0x6e, 0x75, 0x6c, 0x6c] := by
        rw [Bytes.ofString_eq]
        rfl
      simp only [fieldBytes, hnull, List.cons_append, stringsOrNull]
      rw [skipSpace_cons rfl]
      rfl
  | some tags =>
      simp only [fieldBytes, List.length_cons] at hsize ⊢
      rw [List.cons_append, separated_append, stringsOrNull, skipSpace_cons rfl]
      have hread : array size (stringOrNull size) (separated
          ((tags.map fun t => (quote t, repaired t)).map Prod.fst) (0x5d :: b :: s))
          = .ok ((tags.map fun t => (quote t, repaired t)).map Prod.snd, b :: s) := by
        apply array_separated
        · intro p hp
          obtain ⟨t, ht, rfl⟩ := List.mem_map.1 hp
          have hle := length_le_separated (List.mem_map_of_mem (f := quote) ht) [0x5d]
          exact readsFrom_quote (by omega)
        · intro p hp
          obtain ⟨t, -, rfl⟩ := List.mem_map.1 hp
          exact ⟨_, _, rfl, rfl, by decide⟩
        · have hcount : (tags.map quote).length ≤ (separated (tags.map quote) [0x5d]).length := by
            apply count_le_separated
            intro w hw
            obtain ⟨t, -, rfl⟩ := List.mem_map.1 hw
            exact List.cons_ne_nil _ _
          rw [List.length_map] at hcount ⊢
          omega
      rw [List.map_map, List.map_map] at hread
      exact bind_eq_ok.2 ⟨_, hread, rfl⟩

/-- A field is read into the place that it was written from. -/
theorem readsFrom_field {size : Nat} {r : Reading} (hvalue : FitsWord r.value) (f : Reading.Field)
    (hsize : (fieldBytes r f).length ≤ size) (a : Reading) :
    ReadsFrom (fieldStep size a f) (fieldBytes r f) ((repairedReading r).put a f) := by
  intro b s hb
  cases f with
  | sensor => exact bind_eq_ok.2 ⟨_, readsFrom_quote hsize b s hb, rfl⟩
  | value => exact bind_eq_ok.2 ⟨_, readsFrom_integer hvalue b s hb, rfl⟩
  | tags => exact bind_eq_ok.2 ⟨_, readsFrom_tags hsize b s hb, rfl⟩

/-! ## Names -/

/-- What is a string where control characters are refused is the same string where they are not. -/
theorem stringLoop_lax {k : Nat} {escaped : Bool} {done bs text rest : Bytes}
    (h : stringLoop true k escaped done bs = .ok (text, rest)) :
    stringLoop false k escaped done bs = .ok (text, rest) := by
  -- the two readers differ in the last case only, where the strict one has a check to pass
  fun_induction stringLoop true k escaped done bs with
  | case1 => cases h
  | case2 => cases h
  | case3 k escaped done bs =>
      rw [stringLoop, if_pos rfl]
      exact h
  | case4 k escaped done bs e rest' hescape hquote ih =>
      rw [stringLoop, if_neg hquote, if_pos rfl]
      simp only [hescape]
      exact ih h
  | case5 => cases h
  | case6 => cases h
  | case7 k escaped done b bs hquote hslash _ ih =>
      rw [stringLoop, if_neg hquote, if_neg hslash, if_neg (by simp)]
      exact ih h

theorem fieldName_quote {size : Nat} {name : Bytes} (hname : Utf8.isValid name = true)
    (hsize : (quote name).length ≤ size) (s : Bytes) :
    fieldName size (quote name ++ 0x3a :: s) = .ok (name, s) := by
  obtain ⟨inner, hinner, hread⟩ := isString_quote name
  rw [hinner, List.length_cons, List.length_append, List.length_singleton] at hsize
  have hlax := stringLoop_lax (hread size (0x3a :: s) (by omega))
  rw [repaired_of_isValid hname] at hlax
  have htoken : ∀ (b : UInt8) (bs : Bytes), isSpace b = false → token b (b :: bs) = .ok ((), bs) := by
    intro b bs hb
    rw [token, skipSpace_cons hb]
    exact word_eq_ok_iff.2 rfl
  rw [hinner, List.cons_append, List.append_assoc, List.singleton_append]
  refine bind_eq_ok.2 ⟨_, htoken 0x22 _ rfl, ?_⟩
  refine bind_eq_ok.2 ⟨_, hlax, ?_⟩
  exact bind_eq_ok.2 ⟨_, htoken 0x3a s rfl, rfl⟩

/-! ## Objects -/

/-- The bytes of a field with its name. -/
def namedBytes (r : Reading) (f : Reading.Field) : Bytes := quote f.key ++ 0x3a :: fieldBytes r f

theorem readingBytes_eq (r : Reading) :
    readingBytes r = 0x7b :: separated (Reading.Field.all.map (namedBytes r)) [0x7d] := rfl

theorem length_namedBytes (r : Reading) (f : Reading.Field) :
    (namedBytes r f).length = (quote f.key).length + 1 + (fieldBytes r f).length := by
  rw [namedBytes, List.length_append, List.length_cons]
  omega

/-- A field with its name is read in two steps. -/
theorem reads_namedBytes {size : Nat} {r : Reading} (hvalue : FitsWord r.value)
    {f : Reading.Field} (hsize : (namedBytes r f).length < size) (a : Reading) {b : UInt8}
    (hb : isNumeralByte b = false) (s : Bytes) :
    fieldName size (namedBytes r f ++ b :: s) = .ok (f.key, fieldBytes r f ++ b :: s)
      ∧ fieldStep size a f (fieldBytes r f ++ b :: s)
        = .ok ((repairedReading r).put a f, b :: s) := by
  rw [length_namedBytes] at hsize
  refine ⟨?_, readsFrom_field hvalue f (by omega) a b s hb⟩
  rw [namedBytes, List.append_assoc, List.cons_append]
  exact fieldName_quote f.isValid_key (by omega) _

theorem readingFields_separated {size : Nat} {r : Reading} (hvalue : FitsWord r.value)
    (hsize : (readingBytes r).length ≤ size) (a : Reading) :
    readingFields size size a (separated (Reading.Field.all.map (namedBytes r)) [0x7d])
      = .ok (repairedReading r, []) := by
  have hlength : ∀ f, (namedBytes r f).length < size := by
    intro f
    have hle := length_le_separated (List.mem_map_of_mem (f := namedBytes r) f.mem_all) [0x7d]
    rw [readingBytes_eq, List.length_cons] at hsize
    omega
  -- three rounds are never too many, because the name of a field takes more bytes than that
  have hcount : Reading.Field.all.length ≤ size := by
    have hf := hlength .sensor
    rw [length_namedBytes] at hf
    have hquote : 2 ≤ (quote Reading.Field.sensor.key).length := by decide
    exact Nat.le_trans (by decide : Reading.Field.all.length ≤ 3) (by omega)
  have hloop : ∀ k, Reading.Field.all.length ≤ k →
      readingFields size k a (separated (Reading.Field.all.map (namedBytes r)) [0x7d])
        = .ok ((repairedReading r).fill Reading.Field.all a, []) := by
    intro k hk
    apply foldLoop_separated id (List.cons_ne_nil _ _) _ _ hk
    · intro f _ k a s
      obtain ⟨hname, hread⟩ := reads_namedBytes hvalue (hlength f) a (b := 0x2c) (by decide) s
      have hskip : skipSpace (0x2c :: s) = 0x2c :: s := skipSpace_cons rfl s
      rw [readingFields]
      simp only [hname, hread, hskip, f.findFolded?_key, bind, Except.bind]
    · intro f _ k a s
      obtain ⟨hname, hread⟩ := reads_namedBytes hvalue (hlength f) a (b := 0x7d) (by decide) s
      have hskip : skipSpace (0x7d :: s) = 0x7d :: s := skipSpace_cons rfl s
      rw [readingFields]
      simp only [hname, hread, hskip, f.findFolded?_key, bind, Except.bind, id]
  rw [hloop size hcount, Reading.fill_all]

/-- Every reading is read back with its texts repaired. -/
theorem readingCodec_decode_encode {r : Reading} (hvalue : FitsWord r.value) :
    readingCodec.decode (readingCodec.encode r).bytes = .ok (repairedReading r) := by
  have hread : readingStep (readingBytes r).length (readingBytes r)
      = .ok (repairedReading r, []) := by
    have hfields := readingFields_separated hvalue (Nat.le_refl _) .blank
    obtain ⟨t, ht⟩ : ∃ t, separated (Reading.Field.all.map (namedBytes r)) [0x7d] = 0x22 :: t :=
      ⟨_, rfl⟩
    rw [ht] at hfields
    rw [readingBytes_eq, ht] at hfields ⊢
    have hskip : skipSpace (0x22 :: t) = 0x22 :: t := skipSpace_cons rfl t
    rw [readingStep, skipSpace_cons rfl]
    simp only [hskip]
    exact hfields
  -- the last byte is a brace, and so there is no white space to object to
  have hend : ¬ trimmedLength (readingBytes r) < (readingBytes r).length := by
    rw [trimmedLength_lt_iff, readingBytes_eq, separated_eq_append, ← List.cons_append,
      endsInSpace_append (List.cons_ne_nil _ _)]
    decide
  have hdocument : document (readingStep (readingBytes r).length) (readingBytes r)
      = .ok (repairedReading r) := by
    rw [document, hread]
    rfl
  have hbytes : (readingCodec.encode r).bytes = readingBytes r := Emission.bytes_once _
  obtain ⟨t, ht⟩ : ∃ t, readingBytes r = 0x7b :: t := ⟨_, rfl⟩
  rw [hbytes, ht]
  rw [ht] at hend hdocument
  change decode readingStep (0x7b :: t) = .ok (repairedReading r)
  rw [decode, if_neg (by decide), if_neg hend, hdocument]
  rfl

/-- A reading is read back as it was exactly when its texts are UTF-8. -/
theorem readingCodec_restores_iff {r : Reading} (hvalue : FitsWord r.value) :
    readingCodec.decode (readingCodec.encode r).bytes = .ok r ↔ r.IsUtf8 := by
  rw [readingCodec_decode_encode hvalue, Except.ok.injEq, repairedReading_eq_iff]

end RoundTrip.Json
