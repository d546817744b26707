import RoundTrip.Binary.Decimal
import RoundTrip.Calendar.Civil
import RoundTrip.Text.Quoted

/-!
# CBOR values

What a data item means, its identity as a key of a map, and the text by which messages
show it.

Main definitions: `Value`, `Value.key?`, `Value.identity?`, `Value.literal`.
-/

set_option autoImplicit false

namespace RoundTrip.Cbor

/-- A CBOR value. -/
inductive Value where
  | nil
  | bool (b : Bool)
  /-- An unsigned word of 64 bits. -/
  | unsigned (n : Nat)
  /-- A signed word of 64 bits. -/
  | signed (n : Int)
  /-- An integer of any size. -/
  | big (n : Int)
  /-- A binary number of 64 bits. -/
  | float (bits : UInt64)
  | bytes (bs : Bytes)
  /-- A byte string in the place of a key. -/
  | byteKey (bs : Bytes)
  | text (bs : Bytes)
  | simple (n : Nat)
  | time (t : Instant)
  | tag (number : Nat) (content : Value)
  | list (vs : List Value)
  | map (entries : List (Value × Value))
  deriving Repr, Inhabited

namespace Value

/-! ## Keys -/

/-- The value as a key of a map: byte strings become keys of their own kind, also inside tags.
Lists, maps and integers of any size cannot be keys. -/
def key? : Value → Option Value
  | bytes bs => some (byteKey bs)
  | tag number content => content.key?.map (tag number)
  | big _ => none
  | list _ => none
  | map _ => none
  | v => some v

/-- The type by which a message names a value that cannot be a key. -/
def keyTypeName : Value → String
  | big _ => "big.Int"
  | list _ => "[]interface \x7b\x7d"
  | map _ => "map[interface \x7b\x7d]interface \x7b\x7d"
  | _ => "cbor.Tag"

/-- The identity of a zone, by which keys are compared. Zones of whole hours between -12 and
14 are shared; any other offset makes a zone that equals no other. -/
def zoneIdentity? : Zone → Option Bytes
  | .utc => some [0]
  | .machine => some [1]
  | .fixed offset =>
      if offset % 3600 = 0 ∧ -12 ≤ offset / 3600 ∧ offset / 3600 ≤ 14 then
        some [2, UInt8.ofNat (offset / 3600 + 12).toNat]
      else none

/-- The identity of a floating-point key: the zeros are one key, and a number that is not a
number equals nothing. -/
def floatIdentity? (bits : UInt64) : Option Bytes :=
  match Binary.double.unpack bits.toNat with
  | .nan => none
  | .finite _ 0 _ => some (Bytes.bigEndian 8 0)
  | _ => some (Bytes.bigEndian 8 bits.toNat)

/-- The identity of a key: two keys of a map are the same when both have an identity and these
are equal. -/
def identity? : Value → Option Bytes
  | nil => some [0]
  | bool b => some [1, if b then 1 else 0]
  | unsigned n => some (2 :: Bytes.bigEndian 8 n)
  | signed n => some (3 :: Bytes.bigEndian 8 (unsignedWord n))
  | float bits => (floatIdentity? bits).map (4 :: ·)
  | text bs => some (5 :: bs)
  | byteKey bs => some (6 :: bs)
  | simple n => some [7, UInt8.ofNat n]
  | tag number content => content.identity?.map fun i => 8 :: (Bytes.bigEndian 8 number ++ i)
  | time t =>
      (zoneIdentity? t.zone).map fun z =>
        9 :: (Bytes.bigEndian 8 (unsignedWord t.seconds) ++ Bytes.bigEndian 4 t.nanos ++ z)
  | _ => none

/-! ## Texts -/

/-- A floating-point number in a message: the fewest digits that read back, with an exponent
below `1e-04` and from `1e+06` on. -/
def floatLiteral (bits : UInt64) : String :=
  match Binary.double.unpack bits.toNat with
  | .nan => "NaN"
  | .infinite negative => if negative then "-Inf" else "+Inf"
  | .finite negative c q =>
      let d : Binary.Decimal := if c = 0 then ⟨0, 0⟩ else Binary.double.shortest c q
      (if negative then "-" else "")
        ++ if d.magnitude < -4 ∨ 6 ≤ d.magnitude then d.scientific else d.positional

/-- The names of the months. -/
def monthNames : List String :=
  ["January", "February", "March", "April", "May", "June", "July", "August", "September",
    "October", "November", "December"]

/-- A zone in a message. -/
def zoneLiteral : Zone → String
  | .utc => "time.UTC"
  | .machine => "time.Local"
  | .fixed _ => "time.Location(\"\")"

/-- An instant in a message. -/
def timeLiteral (t : Instant) : String :=
  let c := t.civil
  "time.Date(" ++ toString c.date.year ++ ", time." ++ monthNames.getD (c.date.month - 1) ""
    ++ ", " ++ toString c.date.day ++ ", " ++ toString c.hour ++ ", " ++ toString c.minute
    ++ ", " ++ toString c.second ++ ", " ++ toString t.nanos ++ ", " ++ zoneLiteral t.zone
    ++ ")"

/-- A key in a message, where `nothing` is the text of nil. -/
def literalWith (nothing : String) : Value → String
  | nil => nothing
  | bool b => if b then "true" else "false"
  | unsigned n => "0x" ++ Text.hexadecimal n
  | signed n => toString n
  | float bits => floatLiteral bits
  | text bs => Text.quoted bs
  | byteKey bs => Text.quoted bs
  | simple n => "0x" ++ Text.hexadecimal n
  | time t => timeLiteral t
  | tag number content =>
      "cbor.Tag\x7bNumber:0x" ++ Text.hexadecimal number ++ ", Content:"
        ++ literalWith "interface \x7b\x7d(nil)" content ++ "\x7d"
  | _ => ""

/-- A key in a message. -/
def literal (v : Value) : String := literalWith "<nil>" v

end Value

end RoundTrip.Cbor
