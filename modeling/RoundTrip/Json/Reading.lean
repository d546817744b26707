import RoundTrip.Json.Writer
import RoundTrip.Reading
import RoundTrip.Word

/-!
# Readings in JSON

A reading is an object. The names of its fields match up to case, and of a repeated field the
last one counts; unknown fields are passed over under a laxer grammar of numerals. A `null`
leaves the value as it is and empties the other fields.

Main definition: `readingCodec`.
-/

set_option autoImplicit false

namespace RoundTrip.Json

/-! ## Passing over values -/

/-- The rest of a numeral of digits and at most one point with a digit after it, up to a
delimiter. Nothing is said of any other numeral, unless its points are wrong. -/
def plainNumeral : (pointed : Bool) → Bytes → Option (Except Error Bytes)
  | _, [] => none
  | pointed, b :: bs =>
      if b = 0x2e then
        if pointed then some (.error .malformed)
        else
          match bs with
          | [] => none
          | c :: _ =>
              if (digit? c).isSome then plainNumeral true bs else some (.error .malformed)
      else if (digit? b).isSome then plainNumeral pointed bs
      else if endsNumeral b ∨ b = 0x0d then some (.ok (b :: bs))
      else none

/-- Passes over a numeral that has a form which `numeral` refuses before it looks further: a
leading point, or a zero before other digits. -/
def paddedNumeral : Step Error Unit := fun bs =>
  let run := bs.takeWhile isNumeralByte
  if (bs.head? = some 0x2e ∨ zeroPadded bs) ∧ (numeralParts? run).isSome then
    .ok ((), bs.drop run.length)
  else .error .malformed

/-- Passes over a numeral that starts with a minus sign, which has been read. -/
def skipNegative : Step Error Unit := fun bs =>
  let strict : Except Error (Unit × Bytes) :=
    match numeral bs with
    | .ok (_, bs) => .ok ((), bs)
    | .error _ => paddedNumeral bs
  match bs with
  | [] => strict
  | b :: _ =>
      -- a sign needs something after it
      if endsNumeral b ∨ b = 0x0d then strict
      else
        match plainNumeral false bs with
        | some (.ok bs) => .ok ((), bs)
        | some (.error e) => .error e
        | none => strict

/-- Passes over a numeral that starts with the given digit, which has been read. -/
def skipPositive (b : UInt8) : Step Error Unit := fun bs =>
  match plainNumeral false bs with
  | some (.ok bs) => .ok ((), bs)
  | some (.error e) => .error e
  | none => do return ((), (← numeral (b :: bs)).2)

/-- Passes over a numeral that starts with a zero, which is read in 32 bits. -/
def skipZero : Step Error Unit := fun bs =>
  if zeroPadded bs then .error .malformed
  else do return ((), (← fullNumeral Binary.single bs).2)

/-- Passes over a value that starts with the given byte, where `inner` passes over the values
inside it. -/
def skipFrom (size : Nat) (inner : Option (Step Error Unit)) (b : UInt8) :
    Step Error Unit := fun bs =>
  match b with
  | 0x22 => do return ((), (← stringRest size true bs).2)
  | 0x6e => word [0x75, 0x6c, 0x6c] bs
  | 0x74 => word [0x72, 0x75, 0x65] bs
  | 0x66 => word [0x61, 0x6c, 0x73, 0x65] bs
  | 0x30 => skipZero (0x30 :: bs)
  | 0x2d => skipNegative bs
  | 0x5b =>
      match inner with
      | none => .error .malformed
      | some skip => do return ((), (← array size skip bs).2)
  | 0x7b =>
      match inner with
      | none => .error .malformed
      | some skip => do return ((), (← object size skip bs).2)
  | b => if (digit? b).isSome then skipPositive b bs else .error .malformed

/-- Passes over a value after white space, with at most `levels` arrays and objects around each
other, from an input of at most `size` bytes. -/
def skipStep (size : Nat) : (levels : Nat) → Step Error Unit
  | 0, bs =>
      match skipSpace bs with
      | b :: bs => skipFrom size none b bs
      | [] => .error .malformed
  | levels + 1, bs =>
      match skipSpace bs with
      | b :: bs => skipFrom size (some (skipStep size levels)) b bs
      | [] => .error .malformed

/-! ## Fields -/

/-- A word whose value so far is above this one may have no room for a further digit. -/
def roomForDigit : Nat := 1844674407370955160

/-- The digits of a word of 64 bits, after those that make up `value`. A value that has no room
for a digit wraps, which is noticed only when it gets smaller. -/
def wordDigits (value : Nat) : Bytes → Except Error (Nat × Bytes)
  | [] => .ok (value, [])
  | b :: bs =>
      match digit? b with
      | none => if b = 0x2e then .error .malformed else .ok (value, b :: bs)
      | some d =>
          let next := (10 * value + d) % wordCount
          if roomForDigit < value ∧ next < value then .error .outOfRange
          else wordDigits next bs

/-- A word of 64 bits. Nothing can follow a leading zero, and no point may follow the digits. -/
def wordNumeral : Step Error Nat
  | [] => .error .malformed
  | b :: bs =>
      match digit? b with
      | none => .error .malformed
      | some 0 => if bs.head? = some 0x2e then .error .malformed else .ok (0, bs)
      | some d => wordDigits d bs

/-- An integer within 64 bits, or `null`, after white space. -/
def integerOrNull : Step Error (Option Int) := fun bs =>
  match skipSpace bs with
  | 0x6e :: bs => do
      let ((), bs) ← word [0x75, 0x6c, 0x6c] bs
      return (none, bs)
  | 0x2d :: bs => do
      let (n, bs) ← wordNumeral bs
      if wordHalf < n then throw .outOfRange else return (some (-(n : Int)), bs)
  | bs => do
      let (n, bs) ← wordNumeral bs
      if wordHalf ≤ n then throw .outOfRange else return (some (n : Int), bs)

/-- A list of strings, or `null`, after white space. -/
def stringsOrNull (size : Nat) : Step Error (Option (List Bytes)) := fun bs =>
  match skipSpace bs with
  | 0x6e :: bs => do
      let ((), bs) ← word [0x75, 0x6c, 0x6c] bs
      return (none, bs)
  | 0x5b :: bs => do
      let (tags, bs) ← array size (stringOrNull size) bs
      return (some tags, bs)
  | _ => .error .malformed

/-- Reads a field into a reading. -/
def fieldStep (size : Nat) (r : Reading) : Reading.Field → Step Error Reading
  | .sensor, bs => do
      let (s, bs) ← stringOrNull size bs
      return ({ r with sensor := s }, bs)
  | .value, bs => do
      let (n, bs) ← integerOrNull bs
      return ({ r with value := n.getD r.value }, bs)
  | .tags, bs => do
      let (tags, bs) ← stringsOrNull size bs
      return ({ r with tags := tags }, bs)

/-! ## Objects -/

/-- The name of a field with the colon after it. -/
def fieldName (size : Nat) : Step Error Bytes := fun bs => do
  let ((), bs) ← token 0x22 bs
  let (name, bs) ← stringRest size false bs
  let ((), bs) ← token 0x3a bs
  return (name, bs)

/-- The fields of a reading up to its end. Every field takes at least one byte, so `fuel` never
runs out before the input when it is at least the length of the input. -/
def readingFields (size : Nat) : (fuel : Nat) → Reading → Step Error Reading
  | 0, _, _ => .error .malformed
  | fuel + 1, r, bs =>
      let field : Except Error (Reading × Bytes) := do
        let (name, bs) ← fieldName size bs
        match Reading.Field.findFolded? name with
        | some f => fieldStep size r f bs
        | none => do return (r, (← skipStep size (maxLevels - 1) bs).2)
      match field with
      | .error e => .error e
      | .ok (r, bs) =>
          match skipSpace bs with
          | 0x2c :: bs => readingFields size fuel r bs
          | 0x7d :: bs => .ok (r, bs)
          | _ => .error .malformed

/-- A reading, or `null` for a blank one, after white space. -/
def readingStep (size : Nat) : Step Error Reading := fun bs =>
  match skipSpace bs with
  | 0x6e :: bs => do
      let ((), bs) ← word [0x75, 0x6c, 0x6c] bs
      return (.blank, bs)
  | 0x7b :: bs =>
      match skipSpace bs with
      | 0x7d :: bs => .ok (.blank, bs)
      | 0x22 :: bs => readingFields size size .blank (0x22 :: bs)
      | _ => .error .malformed
  | _ => .error .malformed

/-! ## Writing -/

/-- The bytes of a field. -/
def fieldBytes (r : Reading) : Reading.Field → Bytes
  | .sensor => quote r.sensor
  | .value => Bytes.ofString (toString r.value)
  | .tags =>
      match r.tags with
      | none => Bytes.ofString "null"
      | some tags => 0x5b :: separated (tags.map quote) [0x5d]

/-- The bytes of a reading: an object with its fields in their order. -/
def readingBytes (r : Reading) : Bytes :=
  0x7b :: separated (Reading.Field.all.map fun f => quote f.key ++ 0x3a :: fieldBytes r f) [0x7d]

/-- The codec of readings in JSON. -/
def readingCodec : Codec Reading where
  decode := decode readingStep
  encode r := Emission.once (readingBytes r)
  refused := Failure.summarized errorText

end RoundTrip.Json
