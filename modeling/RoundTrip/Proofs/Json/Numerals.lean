import RoundTrip.Json.Numeral
import RoundTrip.Proofs.Binary.Shortest
import RoundTrip.Proofs.Json.Locality
import RoundTrip.Proofs.Text.Utf8

/-!
# The numerals of JSON read back

A finite number is written with the fewest digits that round to it, laid out with the point among
them or with an exponent. Either layout gives the reader of numerals the digits and the exponent of
the same decimal number (`layout_positional`, `layout_scientific`), and that number is rounded to
the one that was written.

Main statements: `signedNumeral_numeralText`, `exists_numeralText`.
-/

set_option autoImplicit false

namespace RoundTrip.Json

open Binary

/-! ## Digits -/

/-- The byte of a decimal digit. -/
def digitByte (d : Nat) : UInt8 := UInt8.ofNat (0x30 + d)

theorem toNat_digitByte {d : Nat} (h : d < 10) : (digitByte d).toNat = 0x30 + d := by
  rw [digitByte, UInt8.toNat_ofNat']
  omega

theorem digit?_digitByte {d : Nat} (h : d < 10) : digit? (digitByte d) = some d := by
  have hd := toNat_digitByte h
  rw [digit?, if_pos, hd, Nat.add_sub_cancel_left]
  simp only [UInt8.le_iff_toNat_le, hd, UInt8.reduceToNat]
  omega

theorem encode_digitChar {d : Nat} (h : d < 10) :
    Utf8.encode (Nat.digitChar d) = [digitByte d] := by
  have hchar := Nat.toNat_digitChar_of_lt_ten h
  rw [Utf8.encode_ascii (by omega), hchar]
  rfl

/-- The bytes of digits. -/
def digitBytes (ds : List Nat) : Bytes := ds.map digitByte

theorem digitBytes_cons (d : Nat) (ds : List Nat) :
    digitBytes (d :: ds) = digitByte d :: digitBytes ds := rfl

theorem digitBytes_append (ds es : List Nat) :
    digitBytes (ds ++ es) = digitBytes ds ++ digitBytes es :=
  List.map_append

theorem flatMap_encode_digits {ds : List Nat} (h : ∀ d ∈ ds, d < 10) :
    (ds.map Nat.digitChar).flatMap Utf8.encode = digitBytes ds := by
  induction ds with
  | nil => rfl
  | cons d ds ih =>
      rw [List.forall_mem_cons] at h
      rw [List.map_cons, List.flatMap_cons, encode_digitChar h.1, ih h.2]
      rfl

/-- The digits `x :: es` are those with which the number `n` is written: their characters, and the
number that they stand for. Only zero starts with a zero. -/
structure DigitsOf (n x : Nat) (es : List Nat) : Prop where
  chars : Nat.toDigits 10 n = (x :: es).map Nat.digitChar
  lt : ∀ d ∈ x :: es, d < 10
  value : digitsToNat (x :: es) = n
  zero : x = 0 → n = 0 ∧ es = []

theorem exists_digits (n : Nat) : ∃ x es, DigitsOf n x es := by
  induction n using Nat.strongRecOn with
  | ind n ih =>
      by_cases hn : n < 10
      · refine ⟨n, [], Nat.toDigits_of_lt_base hn, by simpa using hn, by simp [digitsToNat], ?_⟩
        intro h
        exact ⟨h, rfl⟩
      · -- the last digit stands behind those of the tenth
        obtain ⟨x, es, hdigits⟩ := ih (n / 10) (by omega)
        refine ⟨x, es ++ [n % 10], ?_, ?_, ?_, ?_⟩
        · rw [Nat.toDigits_of_base_le (by decide) (by omega), hdigits.chars, ← List.cons_append,
            List.map_append]
          rfl
        · rw [← List.cons_append, List.forall_mem_append, List.forall_mem_singleton]
          exact ⟨hdigits.lt, Nat.mod_lt n (by decide)⟩
        · rw [← List.cons_append, digitsToNat_append, hdigits.value]
          simp [digitsToNat]
          omega
        · intro hx
          have htenth := (hdigits.zero hx).1
          omega

theorem digitRun_append {ds done : List Nat} {s : Bytes} (hds : ∀ d ∈ ds, d < 10)
    (hs : ∀ b ∈ s.head?, digit? b = none) :
    digitRun done (digitBytes ds ++ s) = (done.reverse ++ ds, s) := by
  induction ds generalizing done with
  | nil =>
      cases s with
      | nil => simp [digitBytes, digitRun]
      | cons b s => simp [digitBytes, digitRun, hs b rfl]
  | cons d ds ih =>
      rw [List.forall_mem_cons] at hds
      have hdigits : digitBytes (d :: ds) = digitByte d :: digitBytes ds := rfl
      rw [hdigits, List.cons_append, digitRun, digit?_digitByte hds.1]
      simp [ih hds.2]

/-! ## Layouts -/

theorem isNumeralByte_digitByte {d : Nat} (h : d < 10) : isNumeralByte (digitByte d) = true := by
  simp [isNumeralByte, digit?_digitByte h]

theorem isNumeralByte_of_mem_digitBytes {ds : List Nat} (h : ∀ d ∈ ds, d < 10) {b : UInt8}
    (hb : b ∈ digitBytes ds) : isNumeralByte b = true := by
  obtain ⟨d, hd, rfl⟩ := List.mem_map.1 hb
  exact isNumeralByte_digitByte (h d hd)

/-- The point and the digits after it, unless there are none. -/
def placesBytes (ds : List Nat) : Bytes := if ds = [] then [] else 0x2e :: digitBytes ds

/-- A numeral consists of digits, the point with digits after it and an exponent. -/
theorem numeralParts?_eq {whole places : List Nat} {tail : Bytes} {e : Int}
    (hne : whole ≠ []) (hwhole : ∀ d ∈ whole, d < 10) (hplaces : ∀ d ∈ places, d < 10)
    (htail : exponent? tail = some e) (hhead : ∀ b ∈ tail.head?, b = 0x65) :
    numeralParts? (digitBytes whole ++ (placesBytes places ++ tail))
      = some (whole ++ places, e - places.length) := by
  have hnodigit : ∀ b ∈ tail.head?, digit? b = none := by
    intro b hb
    rw [hhead b hb]
    rfl
  have hrun : digitRun [] (digitBytes whole ++ (placesBytes places ++ tail))
      = (whole, placesBytes places ++ tail) := by
    refine digitRun_append hwhole ?_
    intro b hb
    unfold placesBytes at hb
    split at hb
    · exact hnodigit b hb
    · obtain rfl : (0x2e : UInt8) = b := by simpa using hb
      rfl
  -- digits come first, and so no plus sign
  have hplus : ∀ bs, digitBytes whole ++ (placesBytes places ++ tail) ≠ 0x2b :: bs := by
    intro bs h
    cases whole with
    | nil => exact hne rfl
    | cons d ds =>
        have hd := hwhole d List.mem_cons_self
        have hfirst : digitByte d = 0x2b := by
          injection h
        have hdigit := digit?_digitByte hd
        rw [hfirst] at hdigit
        cases hdigit
  unfold numeralParts?
  split
  · rename_i bs heq
    exact absurd heq (hplus bs)
  · simp only [hrun]
    cases places with
    | nil =>
        have hpoint : ∀ bs, tail ≠ 0x2e :: bs := by
          rintro bs rfl
          cases hhead 0x2e rfl
        simp only [placesBytes, if_true, List.nil_append]
        rw [if_neg (by simp [hne]), htail]
        rfl
    | cons d ds =>
        have hafter : digitRun [] (digitBytes (d :: ds) ++ tail) = (d :: ds, tail) :=
          digitRun_append hplaces hnodigit
        simp [placesBytes, hafter, htail]

/-- The text `t` is a layout of a decimal number: its digits and exponent are those of the number,
and no zero pads it. -/
structure Layout (d : Decimal) (t : Bytes) : Prop where
  parts : ∃ ds e, numeralParts? t = some (ds, e) ∧ (∀ x ∈ ds, x < 10)
    ∧ (digitsToNat ds : ℚ) * 10 ^ e = d.digits * 10 ^ d.exponent
  bytes : ∀ b ∈ t, isNumeralByte b = true
  start : ∃ x rest, t = digitByte x :: rest ∧ x < 10 ∧ (x = 0 → ∀ b ∈ rest.head?, digit? b = none)

theorem layout_of_parts {d : Decimal} {x : Nat} {ds places : List Nat} {tail : Bytes} {e : Int}
    (hwhole : ∀ y ∈ x :: ds, y < 10) (hplaces : ∀ y ∈ places, y < 10) (hx : x = 0 → ds = [])
    (htail : exponent? tail = some e) (hhead : ∀ b ∈ tail.head?, b = 0x65)
    (hbytes : ∀ b ∈ tail, isNumeralByte b = true)
    (hvalue : (digitsToNat (x :: ds ++ places) : ℚ) * 10 ^ (e - places.length)
      = d.digits * 10 ^ d.exponent) :
    Layout d (digitBytes (x :: ds) ++ (placesBytes places ++ tail)) where
  parts := by
    refine ⟨_, _, numeralParts?_eq (List.cons_ne_nil x ds) hwhole hplaces htail hhead, ?_, hvalue⟩
    intro y hy
    rcases List.mem_append.1 hy with hy | hy
    · exact hwhole y hy
    · exact hplaces y hy
  bytes := by
    intro b hb
    rcases List.mem_append.1 hb with hb | hb
    · exact isNumeralByte_of_mem_digitBytes hwhole hb
    rcases List.mem_append.1 hb with hb | hb
    · unfold placesBytes at hb
      split at hb
      · cases hb
      · rcases List.mem_cons.1 hb with rfl | hb
        · rfl
        · exact isNumeralByte_of_mem_digitBytes hplaces hb
    · exact hbytes b hb
  start := by
    refine ⟨x, _, rfl, hwhole x List.mem_cons_self, ?_⟩
    intro hzero b hb
    -- behind a zero stands the point, the exponent or nothing
    rw [hx hzero] at hb
    unfold placesBytes at hb
    split at hb
    · rw [hhead b hb]
      rfl
    · obtain rfl : (0x2e : UInt8) = b := by simpa using hb
      rfl

theorem digitsToNat_replicate_zero (n : Nat) : digitsToNat (List.replicate n 0) = 0 := by
  induction n with
  | zero => rfl
  | succ n ih => simpa [List.replicate_succ, digitsToNat_cons] using ih

theorem flatMap_encode_zeros (n : Nat) :
    (List.replicate n '0').flatMap Utf8.encode = digitBytes (List.replicate n 0) := by
  rw [← flatMap_encode_digits (by simp), List.map_replicate]
  rfl

section Positional

variable {d : Decimal} {x : Nat} {es : List Nat}

/-- A whole number is laid out with zeros up to the point. -/
theorem layout_whole (hdigits : DigitsOf d.digits x es) (hexponent : 0 ≤ d.exponent)
    (h : d.digits = 0 → d.exponent = 0) :
    Layout d (Bytes.ofString (String.ofList ((x :: es).map Nat.digitChar
      ++ List.replicate d.exponent.toNat '0'))) := by
  have htext : Bytes.ofString (String.ofList ((x :: es).map Nat.digitChar
        ++ List.replicate d.exponent.toNat '0'))
      = digitBytes (x :: (es ++ List.replicate d.exponent.toNat 0))
        ++ (placesBytes [] ++ []) := by
    rw [Bytes.ofString_ofList, List.flatMap_append, flatMap_encode_digits hdigits.lt,
      flatMap_encode_zeros]
    rw [← digitBytes_append, List.cons_append]
    simp [placesBytes]
  have hpow : (10 : ℚ) ^ d.exponent = 10 ^ d.exponent.toNat := by
    rw [← zpow_natCast, Int.toNat_of_nonneg hexponent]
  rw [htext]
  refine layout_of_parts (e := 0) ?_ (by simp) ?_ rfl (by simp) (by simp) ?_
  · rw [← List.cons_append, List.forall_mem_append]
    exact ⟨hdigits.lt, by simp⟩
  · -- zero has no zeros behind it
    intro hx
    obtain ⟨hd, rfl⟩ := hdigits.zero hx
    simp [h hd]
  · rw [List.append_nil, ← List.cons_append, digitsToNat_append, digitsToNat_replicate_zero,
      hdigits.value, hpow]
    simp

/-- The point stands among the digits, behind the first `k + 1`. -/
theorem layout_inside (hdigits : DigitsOf d.digits x es) {k : Nat}
    (hk : ((es.drop k).length : Int) = -d.exponent) (hdrop : es.drop k ≠ []) :
    Layout d (Bytes.ofString (String.ofList (((x :: es).map Nat.digitChar).take (k + 1)
      ++ '.' :: ((x :: es).map Nat.digitChar).drop (k + 1)))) := by
  have hsplit := List.take_append_drop k es
  obtain ⟨hbefore, hafter⟩ : (∀ y ∈ x :: es.take k, y < 10) ∧ ∀ y ∈ es.drop k, y < 10 := by
    rw [← List.forall_mem_append, List.cons_append, hsplit]
    exact hdigits.lt
  have htext : Bytes.ofString (String.ofList (((x :: es).map Nat.digitChar).take (k + 1)
        ++ '.' :: ((x :: es).map Nat.digitChar).drop (k + 1)))
      = digitBytes (x :: es.take k) ++ (placesBytes (es.drop k) ++ []) := by
    rw [Bytes.ofString_ofList, List.flatMap_append, List.flatMap_cons, ← List.map_take,
      ← List.map_drop, List.take_succ_cons, List.drop_succ_cons, flatMap_encode_digits hbefore,
      flatMap_encode_digits hafter, placesBytes, if_neg hdrop, List.append_nil]
    rfl
  rw [htext]
  refine layout_of_parts (e := 0) hbefore hafter ?_ rfl (by simp) (by simp) ?_
  · intro hx
    rw [(hdigits.zero hx).2, List.take_nil]
  · rw [List.cons_append, hsplit, hdigits.value, hk]
    simp

/-- The point stands before the digits, behind a zero and with `k` zeros up to them. -/
theorem layout_before (hdigits : DigitsOf d.digits x es) {k : Nat}
    (hk : ((k + (x :: es).length : Nat) : Int) = -d.exponent) :
    Layout d (Bytes.ofString (String.ofList ('0' :: '.' :: List.replicate k '0'
      ++ (x :: es).map Nat.digitChar))) := by
  have hlt : ∀ y ∈ List.replicate k 0 ++ x :: es, y < 10 := by
    rw [List.forall_mem_append]
    exact ⟨by simp, hdigits.lt⟩
  have htext : Bytes.ofString (String.ofList ('0' :: '.' :: List.replicate k '0'
        ++ (x :: es).map Nat.digitChar))
      = digitBytes [0] ++ (placesBytes (List.replicate k 0 ++ x :: es) ++ []) := by
    rw [Bytes.ofString_ofList, List.flatMap_append, List.flatMap_cons, List.flatMap_cons,
      flatMap_encode_zeros, flatMap_encode_digits hdigits.lt, placesBytes, if_neg (by simp),
      List.append_nil, digitBytes_append]
    rfl
  rw [htext]
  refine layout_of_parts (e := 0) (by simp) hlt (fun _ => rfl) rfl (by simp) (by simp) ?_
  rw [List.length_append, List.length_replicate, hk, List.cons_append, List.nil_append,
    digitsToNat_cons, digitsToNat_append, digitsToNat_replicate_zero, hdigits.value]
  simp

theorem layout_positional (h : d.digits = 0 → d.exponent = 0) :
    Layout d (Bytes.ofString d.positional) := by
  obtain ⟨x, es, hdigits⟩ := exists_digits d.digits
  unfold Decimal.positional
  simp only [hdigits.chars, List.length_map, List.length_cons]
  split
  · rename_i hexponent
    exact layout_whole hdigits hexponent h
  split
  · rename_i hexponent hinside
    have hfront : es.length + 1 - (-d.exponent).toNat = es.length - (-d.exponent).toNat + 1 := by
      omega
    have hback : (es.drop (es.length - (-d.exponent).toNat)).length = (-d.exponent).toNat := by
      rw [List.length_drop]
      omega
    rw [hfront]
    apply layout_inside hdigits
    · omega
    · apply List.ne_nil_of_length_pos
      omega
  · rename_i hexponent hbefore
    apply layout_before hdigits
    rw [List.length_cons]
    omega

end Positional

/-- All digits of an exponent count as long as there are no more than five. -/
theorem exponentNumber_eq {ds : List Nat} (h : digitsToNat ds < 100000) :
    exponentNumber ds = digitsToNat ds := by
  have hfold : ∀ n, ds.foldl (fun e d => 10 * e + d) n < 100000 →
      ds.foldl (fun e d => if e < 10000 then 10 * e + d else e) n
        = ds.foldl (fun e d => 10 * e + d) n := by
    clear h
    induction ds with
    | nil => exact fun _ _ => rfl
    | cons d ds ih =>
        intro n hn
        rw [List.foldl_cons] at hn ⊢
        rw [List.foldl_cons, if_pos, ih _ hn]
        -- the number only grows from here
        rw [foldl_digits] at hn
        have hle : 10 * n + d ≤ (10 * n + d) * 10 ^ ds.length :=
          Nat.le_mul_of_pos_right _ (Nat.pow_pos (by decide))
        omega
  exact hfold 0 h

/-- The exponent of a layout: its sign and at least two digits. -/
theorem exponent?_eq {e : Int} {ds : List Nat} (hne : ds ≠ []) (hds : ∀ d ∈ ds, d < 10)
    (hvalue : digitsToNat ds = e.natAbs) (he : e.natAbs < 100000) :
    exponent? (0x65 :: (if e < 0 then 0x2d else 0x2b) :: digitBytes ds) = some e := by
  rw [← hvalue] at he
  have hrun : digitRun [] (digitBytes ds) = (ds, []) := by
    have happend : digitRun [] (digitBytes ds ++ []) = ([].reverse ++ ds, []) :=
      digitRun_append hds (by simp)
    simpa using happend
  obtain ⟨d, ds, rfl⟩ := List.exists_cons_of_ne_nil hne
  by_cases hnegative : e < 0
  · rw [if_pos hnegative]
    simp [exponent?, hrun, exponentNumber_eq he, hvalue, abs_of_neg hnegative]
  · rw [if_neg hnegative]
    simp [exponent?, hrun, exponentNumber_eq he, hvalue, abs_of_nonneg (Int.not_lt.1 hnegative)]

/-- The digits of an exponent, padded to two. -/
theorem exists_paddedDigits (n : Nat) :
    ∃ ds : List Nat,
      (if (Nat.toDigits 10 n).length < 2 then '0' :: Nat.toDigits 10 n else Nat.toDigits 10 n)
        = ds.map Nat.digitChar
      ∧ (∀ d ∈ ds, d < 10) ∧ digitsToNat ds = n ∧ ds ≠ [] := by
  obtain ⟨x, es, hdigits⟩ := exists_digits n
  rw [hdigits.chars]
  split
  · refine ⟨0 :: x :: es, rfl, List.forall_mem_cons.2 ⟨by decide, hdigits.lt⟩, ?_, by simp⟩
    rw [digitsToNat_cons, hdigits.value, Nat.zero_mul, Nat.zero_add]
  · exact ⟨x :: es, rfl, hdigits.lt, hdigits.value, by simp⟩

theorem layout_scientific {d : Decimal} (hd : d.magnitude.natAbs < 100000) :
    Layout d (Bytes.ofString d.scientific) := by
  obtain ⟨x, es, hchars, hlt, hvalue, -⟩ := exists_digits d.digits
  rw [List.forall_mem_cons] at hlt
  obtain ⟨ws, hws, hwslt, hwsvalue, hwsne⟩ := exists_paddedDigits d.magnitude.natAbs
  have htext : Bytes.ofString d.scientific = digitBytes [x] ++ (placesBytes es
      ++ 0x65 :: (if d.magnitude < 0 then 0x2d else 0x2b) :: digitBytes ws) := by
    have hplaces : (if 1 < ((x :: es).map Nat.digitChar).length
          then '.' :: ((x :: es).map Nat.digitChar).drop 1 else []).flatMap Utf8.encode
        = placesBytes es := by
      rw [List.length_map, List.length_cons, List.map_cons, List.drop_succ_cons, List.drop_zero]
      cases es with
      | nil => rfl
      | cons z es =>
          rw [if_pos (by simp), List.flatMap_cons, flatMap_encode_digits hlt.2, placesBytes,
            if_neg (List.cons_ne_nil z es)]
          rfl
    have hsign : Utf8.encode (if d.magnitude < 0 then '-' else '+')
        = [if d.magnitude < 0 then 0x2d else 0x2b] := by
      split <;> rfl
    unfold Decimal.scientific
    simp only [hws, hchars]
    rw [Bytes.ofString_ofList, List.flatMap_append, List.flatMap_append, hplaces,
      List.flatMap_cons, List.flatMap_cons, hsign, flatMap_encode_digits hwslt, ← List.map_take,
      List.take_succ_cons, List.take_zero, flatMap_encode_digits (by simpa using hlt.1),
      List.append_assoc]
    rfl
  rw [htext]
  refine layout_of_parts (by simpa using hlt.1) hlt.2 (fun _ => rfl)
    (exponent?_eq hwsne hwslt hwsvalue hd) (by simp) ?_ ?_
  · intro b hb
    rcases List.mem_cons.1 hb with rfl | hb
    · rfl
    rcases List.mem_cons.1 hb with rfl | hb
    · split <;> rfl
    · exact isNumeralByte_of_mem_digitBytes hwslt hb
  · have hmagnitude : d.magnitude - es.length = d.exponent := by
      rw [Decimal.magnitude, hchars, List.length_map, List.length_cons]
      push_cast
      omega
    rw [hmagnitude, List.cons_append, List.nil_append, hvalue]

/-! ## Reading layouts -/

theorem ofDigits_of_zero {ds : List Nat} (h : digitsToNat ds = 0) (e : Int) :
    double.ofDigits ds e = 0 := by
  have hnil : ds.dropWhile (· == 0) = [] := by
    by_contra hne
    have hle := ten_pow_le_digitsToNat hne
    rw [h] at hle
    exact Nat.not_succ_le_zero _ (Nat.le_trans (Nat.pow_pos (by decide)) hle)
  rw [Format.ofDigits, hnil]
  rfl

/-- The layouts of the numeral of a number are read as the number. -/
theorem ofDigits_of_eq {c : Nat} {q : Int} {d : Decimal} {ds : List Nat} {e : Int}
    (hnormal : double.Normal c q) (hfinite : double.pattern c q < double.infinityBits)
    (hd : d = if c = 0 then ⟨0, 0⟩ else double.shortest c q) (hds : ∀ x ∈ ds, x < 10)
    (h : (digitsToNat ds : ℚ) * 10 ^ e = d.digits * 10 ^ d.exponent) :
    double.ofDigits ds e = double.pattern c q := by
  split at hd
  · rename_i hc
    subst hc
    have hten : (10 : ℚ) ^ e ≠ 0 := by positivity
    have hzero : digitsToNat ds = 0 := by
      rw [hd] at h
      simpa [hten] using h
    rw [ofDigits_of_zero hzero, hnormal.pattern_zero]
  · rename_i hc
    have hpos := Nat.pos_of_ne_zero hc
    refine ofDigits_eq hnormal hpos hfinite hds ?_
    rw [h, hd]
    exact roundsTo_shortest hnormal hpos hfinite

theorem numeral_append {d : Decimal} {t s : Bytes} {bits : Nat} (ht : Layout d t)
    (hs : ∀ b ∈ s.head?, isNumeralByte b = false) (hfinite : bits < double.infinityBits)
    (hbits : ∀ ds e, (∀ x ∈ ds, x < 10) →
      (digitsToNat ds : ℚ) * 10 ^ e = d.digits * 10 ^ d.exponent → double.ofDigits ds e = bits) :
    numeral (t ++ s) = .ok (bits, s) := by
  obtain ⟨x, rest, hstart, hx, hzero⟩ := ht.start
  have hhead : ((t ++ s).head?.any fun b => b == 0x2e || endsNumeral b) = false := by
    have hdigits : ∀ x < 10, (digitByte x == 0x2e || endsNumeral (digitByte x)) = false := by decide
    rw [hstart]
    exact hdigits x hx
  have hpad : zeroPadded t = false := by
    have hdigits : ∀ x < 10, digitByte x = 0x30 → x = 0 := by decide
    rw [hstart]
    unfold zeroPadded
    split
    · rename_i b bs heq
      injection heq with hfirst hrest
      rw [hzero (hdigits x hx hfirst) b (by rw [hrest]; rfl)]
      rfl
    · rfl
  have hpad' : zeroPadded (t ++ s) = false := by
    rw [← List.append_nil t] at hpad
    refine zeroPadded_append ?_ hs hpad
    rw [hstart]
    exact List.cons_ne_nil _ _
  obtain ⟨ds, e, hparts, hds, hvalue⟩ := ht.parts
  rw [numeral, hhead, hpad']
  simp only [Bool.or_self, Bool.false_eq_true, if_false, fullNumeral,
    takeWhile_numeral ht.bytes hs, hparts, hbits ds e hds hvalue, if_neg hfinite.ne, List.drop_left]

/-- A number other than zero has digits other than zero. -/
theorem shortest_digits_pos {c : Nat} {q : Int} (hnormal : double.Normal c q) (hc : 0 < c)
    (hfinite : double.pattern c q < double.infinityBits) : 0 < (double.shortest c q).digits := by
  have hleast := (roundsTo_shortest hnormal hc hfinite).two_zpow_le hc
  have htwo : (0 : ℚ) < 2 ^ (q - 1) := by positivity
  by_contra hzero
  rw [Nat.eq_zero_of_not_pos hzero, Nat.cast_zero, zero_mul] at hleast
  linarith

/-- The exponents of layouts have few digits. -/
theorem natAbs_magnitude_lt {c : Nat} {q : Int} (hnormal : double.Normal c q) (hc : 0 < c)
    (hfinite : double.pattern c q < double.infinityBits) :
    (double.shortest c q).magnitude.natAbs < 100000 := by
  obtain ⟨x, es, hdigits⟩ := exists_digits (double.shortest c q).digits
  have hx : x ≠ 0 := by
    intro hzero
    exact absurd (hdigits.zero hzero).1 (shortest_digits_pos hnormal hc hfinite).ne'
  have hall : (x :: es).dropWhile (· == 0) = x :: es := List.dropWhile_cons_of_neg (by simp [hx])
  have hround := roundsTo_shortest hnormal hc hfinite
  rw [← hdigits.value] at hround
  have habove := zpow_le_numeral (by rw [hall]; exact List.cons_ne_nil x es)
    (double.shortest c q).exponent
  have hbelow := numeral_lt_zpow hdigits.lt (double.shortest c q).exponent
  obtain ⟨hleast, hmost⟩ := within_decimalReach hnormal hc hfinite hround habove hbelow
  have hreach : decimalReach = 400 := rfl
  rw [hall, List.length_cons, hreach] at hleast hmost
  rw [Decimal.magnitude, hdigits.chars, List.length_map, List.length_cons]
  omega

/-- The numeral of a number without its sign. -/
theorem layout_unsigned {c : Nat} {q : Int} {d : Decimal} (hnormal : double.Normal c q)
    (hfinite : double.pattern c q < double.infinityBits)
    (hd : d = if c = 0 then ⟨0, 0⟩ else double.shortest c q) :
    Layout d (Bytes.ofString
      (if d.magnitude < -6 ∨ 21 ≤ d.magnitude then d.scientific else d.positional)) := by
  have hdigits : (d.digits = 0 → d.exponent = 0) ∧ d.magnitude.natAbs < 100000 := by
    split at hd
    · rw [hd]
      exact ⟨fun _ => rfl, by decide⟩
    · rename_i hc
      have hpos := Nat.pos_of_ne_zero hc
      rw [hd]
      refine ⟨?_, natAbs_magnitude_lt hnormal hpos hfinite⟩
      intro hzero
      exact absurd hzero (shortest_digits_pos hnormal hpos hfinite).ne'
  split
  · exact layout_scientific hdigits.2
  · exact layout_positional hdigits.1

/-- A layout has no sign. -/
theorem signedNumeral_layout {d : Decimal} {t : Bytes} (h : Layout d t) (s : Bytes) :
    signedNumeral (t ++ s) = numeral (t ++ s) := by
  obtain ⟨x, rest, rfl, hx, -⟩ := h.start
  have hdigits : ∀ x < 10, digitByte x ≠ 0x2d := by decide
  unfold signedNumeral
  split
  · rename_i heq
    injection heq with hfirst
    exact absurd hfirst (hdigits x hx)
  · rfl

/-! ## Main statements -/

/-- **The numeral of a number is read as the number**, in front of everything that does not go on
with it. It starts with a minus sign or a digit, and has no other bytes than those of numerals. -/
theorem signedNumeral_numeralText {n : Nat} {t : Bytes} (hn : n < 2 ^ 64)
    (h : numeralText double n = .ok t) :
    (∀ b ∈ t, isNumeralByte b = true)
      ∧ (∃ b rest, t = b :: rest ∧ (b = 0x2d ∨ (digit? b).isSome))
      ∧ ∀ s, (∀ b ∈ s.head?, isNumeralByte b = false) → signedNumeral (t ++ s) = .ok (n, s) := by
  unfold numeralText at h
  split at h
  · rename_i negative c q hunpack
    have hfinite := Format.finite_of_unpack (f := double) hn hunpack
    dsimp only at h
    generalize hd : (if c = 0 then (⟨0, 0⟩ : Decimal) else double.shortest c q) = d at h
    have hlayout := layout_unsigned hfinite.normal hfinite.pattern_lt hd.symm
    obtain rfl := Except.ok.inj h
    rw [Bytes.ofString_append, hfinite.bits_eq]
    generalize Bytes.ofString (if d.magnitude < -6 ∨ 21 ≤ d.magnitude then d.scientific
      else d.positional) = l at hlayout
    -- without the sign, whichever layout was taken
    have hread : ∀ s, (∀ b ∈ s.head?, isNumeralByte b = false) →
        numeral (l ++ s) = .ok (double.pattern c q, s) := by
      intro s hs
      exact numeral_append hlayout hs hfinite.pattern_lt fun ds e hds hvalue =>
        ofDigits_of_eq hfinite.normal hfinite.pattern_lt hd.symm hds hvalue
    cases negative with
    | true =>
        have hminus : Bytes.ofString (if true = true then "-" else "") = [0x2d] := by
          rw [Bytes.ofString_eq]
          rfl
        rw [hminus]
        refine ⟨?_, ⟨0x2d, l, rfl, .inl rfl⟩, ?_⟩
        · exact List.forall_mem_cons.2 ⟨rfl, hlayout.bytes⟩
        · intro s hs
          rw [List.cons_append, List.nil_append, List.cons_append, signedNumeral]
          simp [hread s hs]
    | false =>
        have hempty : Bytes.ofString (if false = true then "-" else "") = [] := by
          rw [Bytes.ofString_eq]
          rfl
        obtain ⟨x, rest, hstart, hx, -⟩ := hlayout.start
        rw [hempty, List.nil_append]
        refine ⟨hlayout.bytes, ⟨_, rest, hstart, .inr ?_⟩, ?_⟩
        · rw [digit?_digitByte hx]
          rfl
        · intro s hs
          rw [signedNumeral_layout hlayout, hread s hs, Format.signBits, if_neg (by decide),
            Nat.zero_add]
  · cases h

theorem ofDigits_le (f : Format) (ds : List Nat) (e : Int) : f.ofDigits ds e ≤ f.infinityBits := by
  unfold Format.ofDigits
  dsimp only
  split
  · exact Nat.zero_le _
  split
  · exact Nat.le_refl _
  split
  · exact f.roundRatio_le _ _
  · exact f.roundRatio_le _ _

theorem numeral_lt {bs rest : Bytes} {bits : Nat} (h : numeral bs = .ok (bits, rest)) :
    bits < double.infinityBits := by
  unfold numeral at h
  split at h
  · cases h
  · unfold fullNumeral at h
    dsimp only at h
    split at h
    · cases h
    · rename_i ds e _
      split at h
      · cases h
      · rename_i hne
        obtain rfl := (Prod.mk.inj (Except.ok.inj h)).1
        exact Nat.lt_of_le_of_ne (ofDigits_le double ds e) hne

/-- **A numeral that is read has a numeral of its own**, because it is finite. -/
theorem exists_numeralText {bs rest : Bytes} {n : Nat} (h : signedNumeral bs = .ok (n, rest)) :
    n < 2 ^ 64 ∧ ∃ t, numeralText double n = .ok t := by
  obtain ⟨negative, bits, rfl, hbits⟩ : ∃ negative bits,
      n = double.signBits negative + bits ∧ bits < double.infinityBits := by
    unfold signedNumeral at h
    split at h
    · rename_i bs
      obtain ⟨⟨bits, tail⟩, hnumeral, hsign⟩ := Step.bind_eq_ok.1 h
      cases hsign
      exact ⟨true, bits, rfl, numeral_lt hnumeral⟩
    · exact ⟨false, n, by rw [Format.signBits, if_neg (by decide), Nat.zero_add], numeral_lt h⟩
  have hinfinity : double.infinityBits < 2 ^ 63 := by decide
  have hmod : (double.signBits negative + bits) % 2 ^ 63 = bits := by
    cases negative with
    | true =>
        have hsign : double.signBits true = 2 ^ 63 := rfl
        rw [hsign, Nat.add_mod_left, Nat.mod_eq_of_lt (hbits.trans hinfinity)]
    | false =>
        have hsign : double.signBits false = 0 := rfl
        rw [hsign, Nat.zero_add, Nat.mod_eq_of_lt (hbits.trans hinfinity)]
  have hlt : double.signBits negative + bits < 2 ^ 64 := by
    have hsign : double.signBits negative ≤ 2 ^ 63 := by
      cases negative with
      | true => exact Nat.le_refl _
      | false => exact Nat.zero_le _
    omega
  have hbelow : (double.signBits negative + bits) % 2 ^ (double.exponentBits + double.fractionBits)
      < double.infinityBits := by
    rw [← hmod] at hbits
    exact hbits
  obtain ⟨negative', c, q, hunpack⟩ := Format.exists_unpack_eq_finite hbelow
  refine ⟨hlt, ?_⟩
  simp only [numeralText, hunpack]
  exact ⟨_, rfl⟩

end RoundTrip.Json
