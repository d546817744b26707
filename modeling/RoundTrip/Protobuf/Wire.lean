import RoundTrip.Codec
import RoundTrip.Step
import RoundTrip.Word

/-!
# Protobuf fields

On the wire a message is a row of fields, each with a number and a payload. This module
reads and writes fields without a schema. A field keeps the bytes of its payload, so that a
message can hand on the fields that it does not know.

Main definitions: `varint`, `Field`, `fields`, `tag`, `lengthPrefixed`.
-/

set_option autoImplicit false

namespace RoundTrip.Protobuf

/-- Why bytes are not a message, or a message cannot be written. -/
inductive Error where
  /-- A field is cut off, numbered out of range or of an unknown form. -/
  | malformed
  /-- Messages or groups are nested too deep. -/
  | nesting
  /-- A text that is not UTF-8. -/
  | invalidUtf8
  deriving DecidableEq, Repr

/-- The text of every failure that has to do with messages as such. -/
def errorText : String := "proto error"

/-- An error as the failure of a read or write. -/
def Error.toFailure (_ : Error) : Failure := .plain errorText

/-! ## Numbers -/

/-- A number in groups of seven bits, lowest first: its value after those already read, and its
bytes (in reverse). At most `left` bytes are read, and the tenth carries one bit. -/
def varintLoop : (left weight value : Nat) → Bytes → Step Error (Nat × Bytes)
  | 0, _, _, _, _ => .error .malformed
  | _ + 1, _, _, _, [] => .error .malformed
  | left + 1, weight, value, raw, b :: bs =>
      if b < 0x80 then
        if left = 0 ∧ 1 < b then .error .malformed
        else .ok ((value + b.toNat * weight, (b :: raw).reverse), bs)
      else varintLoop left (weight * 128) (value + (b.toNat - 128) * weight) (b :: raw) bs

/-- A number in groups of seven bits, and its bytes. -/
def varint : Step Error (Nat × Bytes) := varintLoop 10 1 0 []

/-- The groups of seven bits of a number, of which there are at most `fuel`. -/
def varintBytesLoop : (fuel : Nat) → Nat → Bytes
  | 0, _ => []
  | fuel + 1, n =>
      if n < 128 then [UInt8.ofNat n]
      else UInt8.ofNat (n % 128 + 128) :: varintBytesLoop fuel (n / 128)

/-- A 64-bit number in the fewest groups of seven bits. -/
def varintBytes (n : Nat) : Bytes := varintBytesLoop 10 n

/-! ## Fields -/

/-- The payload of a field. -/
inductive Payload where
  | varint (n : Nat)
  | fixed64 (n : Nat)
  | bytes (bs : Bytes)
  /-- Fields between a start and an end mark, which no schema here has. -/
  | group
  | fixed32 (n : Nat)
  deriving DecidableEq, Repr

/-- The code of a payload in a tag. -/
def Payload.code : Payload → Nat
  | varint _ => 0
  | fixed64 _ => 1
  | bytes _ => 2
  | group => 3
  | fixed32 _ => 5

/-- A field of a message. -/
structure Field where
  number : Nat
  payload : Payload
  /-- The bytes of the payload as they were read. -/
  raw : Bytes
  deriving DecidableEq, Repr

/-- The tag of a field, in its shortest form. -/
def tag (number code : Nat) : Bytes := varintBytes (number * 8 + code)

/-- The bytes of a field with its tag in the shortest form. -/
def Field.bytes (f : Field) : Bytes := tag f.number f.payload.code ++ f.raw

/-- The largest number of a field. -/
def maxNumber : Nat := 0x1fffffff

/-- The largest number of a field inside a group. -/
def maxGroupNumber : Nat := 0x7fffffff

/-- How deep groups may be nested in each other. -/
def maxGroups : Nat := 10001

/-- The code that ends a group. -/
def endGroup : Nat := 4

/-- The number and code of a tag, and its bytes. -/
def tagStep (largest : Nat) : Step Error ((Nat × Nat) × Bytes) := fun bs => do
  let ((n, raw), bs) ← varint bs
  if n / 8 = 0 ∨ largest < n / 8 then
    throw .malformed
  return (((n / 8, n % 8), raw), bs)

/-- The next `n` bytes. -/
def take (n : Nat) : Step Error Bytes := fun bs =>
  match bs.split n with
  | some r => .ok r
  | none => .error .malformed

/-- The fields of a group up to its end mark, as bytes behind those already read (pieces in
reverse); `payload` reads the payload of a field. Every field takes at least one byte, so
`fuel` never runs out before the input when it is at least the length of the input. -/
def groupLoop (payload : Nat → Nat → Step Error (Payload × Bytes)) (number : Nat) :
    (fuel : Nat) → List Bytes → Step Error Bytes
  | 0, _, _ => .error .malformed
  | fuel + 1, done, bs =>
      match tagStep maxGroupNumber bs with
      | .error e => .error e
      | .ok (((inner, code), mark), bs) =>
          if code = endGroup then
            if inner = number then .ok ((mark :: done).reverse.flatten, bs)
            else .error .malformed
          else
            match payload inner code bs with
            | .error e => .error e
            | .ok ((_, raw), bs) => groupLoop payload number fuel (raw :: mark :: done) bs

/-- The payload of a field with the given number and code, and its bytes, with at most `levels`
groups around each other, from an input of at most `size` bytes. -/
def payloadStep (size : Nat) : (levels number code : Nat) → Step Error (Payload × Bytes)
  | _, _, 0, bs => do
      let ((n, raw), bs) ← varint bs
      return ((.varint n, raw), bs)
  | _, _, 1, bs => do
      let (raw, bs) ← take 8 bs
      return ((.fixed64 (Bytes.toNatLittle raw), raw), bs)
  | _, _, 2, bs => do
      let ((n, mark), bs) ← varint bs
      let (contents, bs) ← take n bs
      return ((.bytes contents, mark ++ contents), bs)
  | 0, _, 3, _ => .error .nesting
  | levels + 1, number, 3, bs => do
      let (raw, bs) ← groupLoop (payloadStep size levels) number size [] bs
      return ((.group, raw), bs)
  | _, _, 5, bs => do
      let (raw, bs) ← take 4 bs
      return ((.fixed32 (Bytes.toNatLittle raw), raw), bs)
  | _, _, _, _ => .error .malformed

/-- One field. -/
def fieldStep (size : Nat) : Step Error Field := fun bs => do
  let (((number, code), _), bs) ← tagStep maxNumber bs
  let ((payload, raw), bs) ← payloadStep size maxGroups number code bs
  return (⟨number, payload, raw⟩, bs)

/-- All fields of an input behind those already read (in reverse). Every field takes at least
one byte, so `fuel` never runs out before the input when it is at least the length of the
input. -/
def fieldsLoop (size : Nat) : (fuel : Nat) → List Field → Bytes → Except Error (List Field)
  | _, done, [] => .ok done.reverse
  | 0, _, _ :: _ => .error .malformed
  | fuel + 1, done, b :: bs =>
      match fieldStep size (b :: bs) with
      | .ok (f, bs) => fieldsLoop size fuel (f :: done) bs
      | .error e => .error e

/-- The fields that make up an input. -/
def fields (bs : Bytes) : Except Error (List Field) := fieldsLoop bs.length bs.length [] bs

/-- A field of bytes. -/
def lengthPrefixed (number : Nat) (bs : Bytes) : Bytes :=
  tag number 2 ++ varintBytes bs.length ++ bs

end RoundTrip.Protobuf
