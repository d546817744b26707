import RoundTrip.Bytes
import RoundTrip.Calendar.Instant

/-!
# MessagePack values and codes

A MessagePack value starts with a code byte that fixes its form: what kind of value
follows and where its length stands. `Form.ofCode` is the table of all 256 codes, and
every reader of the format goes through it.
-/

set_option autoImplicit false

namespace RoundTrip.Msgpack

/-! ## Values -/

/-- The width of a stored integer. -/
inductive Width where
  | w8 | w16 | w32 | w64
  deriving DecidableEq, Repr

namespace Width

/-- Number of bytes of a width. -/
def bytes : Width → Nat
  | w8 => 1
  | w16 => 2
  | w32 => 4
  | w64 => 8

/-- Number of bits of a width. -/
def bits (w : Width) : Nat := 8 * w.bytes

end Width

/-- A MessagePack value. Integers remember the width and signedness with which they were
stored. -/
inductive Value where
  | nil
  | bool (b : Bool)
  | signed (width : Width) (n : Int)
  | unsigned (width : Width) (n : Nat)
  | float32 (bits : UInt32)
  | float64 (bits : UInt64)
  | text (bs : Bytes)
  | binary (bs : Bytes)
  | time (t : Instant)
  | list (vs : List Value)
  | map (entries : List (Bytes × Value))
  deriving Repr, Inhabited

/-! ## Codes -/

/-- Where the length of a value stands. -/
inductive Size where
  /-- In the code itself. -/
  | given (n : Nat)
  /-- In a field of the given number of bytes after the code. -/
  | field (bytes : Nat)
  deriving DecidableEq, Repr

/-- The form of a value, as fixed by its code. -/
inductive Form where
  /-- A small integer in the code itself. -/
  | small (n : Int)
  | nil
  | bool (b : Bool)
  | unsigned (width : Width)
  | signed (width : Width)
  | float32
  | float64
  | text (size : Size)
  | binary (size : Size)
  | list (size : Size)
  | map (size : Size)
  /-- An application-specific value; its identifier follows the length. -/
  | extension (size : Size)
  /-- The one code that stands for nothing. -/
  | unused
  deriving DecidableEq, Repr

/-- The forms of the codes from `c0` on that have no operand inside the code. -/
def Form.ofLongCode : Nat → Form
  | 0xc0 => nil
  | 0xc2 => bool false
  | 0xc3 => bool true
  | 0xc4 => binary (.field 1)
  | 0xc5 => binary (.field 2)
  | 0xc6 => binary (.field 4)
  | 0xc7 => extension (.field 1)
  | 0xc8 => extension (.field 2)
  | 0xc9 => extension (.field 4)
  | 0xca => float32
  | 0xcb => float64
  | 0xcc => unsigned .w8
  | 0xcd => unsigned .w16
  | 0xce => unsigned .w32
  | 0xcf => unsigned .w64
  | 0xd0 => signed .w8
  | 0xd1 => signed .w16
  | 0xd2 => signed .w32
  | 0xd3 => signed .w64
  | 0xd4 => extension (.given 1)
  | 0xd5 => extension (.given 2)
  | 0xd6 => extension (.given 4)
  | 0xd7 => extension (.given 8)
  | 0xd8 => extension (.given 16)
  | 0xd9 => text (.field 1)
  | 0xda => text (.field 2)
  | 0xdb => text (.field 4)
  | 0xdc => list (.field 2)
  | 0xdd => list (.field 4)
  | 0xde => map (.field 2)
  | 0xdf => map (.field 4)
  | _ => unused

/-- The form that a code stands for. -/
def Form.ofCode (code : UInt8) : Form :=
  let c := code.toNat
  if c < 0x80 then small c
  else if c < 0x90 then map (.given (c - 0x80))
  else if c < 0xa0 then list (.given (c - 0x90))
  else if c < 0xc0 then text (.given (c - 0xa0))
  else if c < 0xe0 then ofLongCode c
  else small ((c : Int) - 256)

end RoundTrip.Msgpack
