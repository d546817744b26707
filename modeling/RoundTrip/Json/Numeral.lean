import RoundTrip.Binary.Decimal
import RoundTrip.Json.Value
import RoundTrip.Step

/-!
# JSON numerals

A numeral stands for the binary number nearest to it, and one that is too large is an error. The
grammar is a little wider than that of the format: behind a minus sign a plus sign may stand, and
behind that one a point needs no digit before it.

Main definitions: `signedNumeral`, `numeralText`.
-/

set_option autoImplicit false

namespace RoundTrip.Json

/-! ## Characters -/

/-- The value of an ASCII digit. -/
def digit? (b : UInt8) : Option Nat :=
  if 0x30 ≤ b ∧ b ≤ 0x39 then some (b.toNat - 0x30) else none

/-- The delimiters of numerals. -/
def endsNumeral (b : UInt8) : Bool :=
  b == 0x2c || b == 0x5d || b == 0x7d || b == 0x20 || b == 0x09 || b == 0x0a

/-- The bytes that a numeral can consist of. -/
def isNumeralByte (b : UInt8) : Bool :=
  (digit? b).isSome || b == 0x2b || b == 0x2d || b == 0x2e || b == 0x65 || b == 0x45

/-! ## Numerals in full -/

/-- The digits at the front of an input behind those already read (in reverse). -/
def digitRun : List Nat → Bytes → List Nat × Bytes
  | done, [] => (done.reverse, [])
  | done, b :: bs =>
      match digit? b with
      | some d => digitRun (d :: done) bs
      | none => (done.reverse, b :: bs)

/-- The number of an exponent. From ten thousand on, which is beyond the numbers of every format, no
further digit is added to it. -/
def exponentNumber (ds : List Nat) : Nat :=
  ds.foldl (fun e d => if e < 10000 then 10 * e + d else e) 0

/-- The exponent at the end of a numeral; no exponent stands for zero. -/
def exponent? : Bytes → Option Int
  | [] => some 0
  | b :: bs =>
      if b = 0x65 ∨ b = 0x45 then
        let (negative, bs) : Bool × Bytes :=
          match bs with
          | 0x2b :: bs => (false, bs)
          | 0x2d :: bs => (true, bs)
          | bs => (false, bs)
        match digitRun [] bs with
        | (d :: ds, []) =>
            let n : Int := exponentNumber (d :: ds)
            some (if negative then -n else n)
        | _ => none
      else none

/-- The digits of a numeral, the number of those after the point, and the exponent. A point
needs a digit after it, and a plus sign may come first. -/
def numeralParts? (bs : Bytes) : Option (List Nat × Int) :=
  let bs := match bs with
    | 0x2b :: bs => bs
    | bs => bs
  let (whole, bs) := digitRun [] bs
  let (places, rest, pointed) : List Nat × Bytes × Bool :=
    match bs with
    | 0x2e :: bs => ((digitRun [] bs).1, (digitRun [] bs).2, true)
    | bs => ([], bs, false)
  if pointed ∧ places.isEmpty ∨ whole.isEmpty ∧ places.isEmpty then none
  else (exponent? rest).map fun e => (whole ++ places, e - places.length)

/-- The longest run of bytes that can belong to a numeral, as a number of the given format. -/
def fullNumeral (f : Binary.Format) : Step Error Nat := fun bs =>
  let run := bs.takeWhile isNumeralByte
  match numeralParts? run with
  | none => .error .malformed
  | some (ds, e) =>
      let bits := f.ofDigits ds e
      if bits = f.infinityBits then .error .outOfRange else .ok (bits, bs.drop run.length)

/-! ## Numerals with a sign -/

/-- A zero with a further digit after it, with which no numeral starts. -/
def zeroPadded : Bytes → Bool
  | 0x30 :: b :: _ => (digit? b).isSome
  | _ => false

/-- A numeral without its minus sign. A zero is not followed by a digit, and neither a point
nor a delimiter comes first. -/
def numeral : Step Error Nat := fun bs =>
  if bs.head?.any (fun b => b == 0x2e || endsNumeral b) || zeroPadded bs then .error .malformed
  else fullNumeral Binary.double bs

/-- A numeral with or without a minus sign. -/
def signedNumeral : Step Error Nat
  | 0x2d :: bs => do
      let (bits, bs) ← numeral bs
      return (Binary.double.signBits true + bits, bs)
  | bs => numeral bs

/-! ## Writing -/

/-- The numeral of a binary number: the fewest digits that read back, with an exponent below
`1e-06` and from `1e+21` on. -/
def numeralText (f : Binary.Format) (bits : Nat) : Except Error Bytes :=
  match f.unpack bits with
  | .finite negative c q =>
      let d : Binary.Decimal := if c = 0 then ⟨0, 0⟩ else f.shortest c q
      let layout := if d.magnitude < -6 ∨ 21 ≤ d.magnitude then d.scientific else d.positional
      .ok (Bytes.ofString ((if negative then "-" else "") ++ layout))
  | _ => .error .notFinite

end RoundTrip.Json
