import RoundTrip.Entries
import RoundTrip.Step
import RoundTrip.Text.Digits
import RoundTrip.Msgpack.Writer

/-!
# Reading MessagePack

A value is read from the front of an input and may be followed by anything. A piece of
fixed length with nothing left is the end of the input; a piece that is cut in the middle
is an unexpected end.

Main definitions: `Error`, `read`, `codec`.
-/

set_option autoImplicit false

namespace RoundTrip.Msgpack

/-! ## Errors -/

/-- What was being read when an unfitting code turned up. -/
inductive Expected where
  /-- The length of a text or binary string. -/
  | stringLength
  /-- An integer. -/
  | integer
  /-- The length of a list. -/
  | listLength
  deriving DecidableEq, Repr

/-- What an unfitting code was read as, in words. -/
def Expected.words : Expected → String
  | stringLength => "string/bytes length"
  | integer => "int64"
  | listLength => "array length"

/-- Why bytes are not a MessagePack value. -/
inductive Error where
  /-- The input ends before a piece. -/
  | endOfInput
  /-- The input ends inside a piece. -/
  | unexpectedEnd
  /-- A code that starts no value. -/
  | unknownCode (code : UInt8)
  /-- A code that starts nothing that could be passed over. -/
  | unknownSkipped (code : UInt8)
  /-- A code that does not fit what is being read. -/
  | invalidCode (code : UInt8) (expected : Expected)
  /-- A code that starts no record. -/
  | notRecord (code : UInt8)
  /-- An extension other than times. -/
  | unknownExtension (id : Int)
  /-- A time with a length that times do not have. -/
  | timeLength (length : Nat)
  /-- A record written as a list of another length. -/
  | fieldCount
  deriving DecidableEq, Repr

/-- An error as the failure of a read. -/
def Error.toFailure : Error → Failure
  | endOfInput => .known .endOfInput
  | unexpectedEnd => .known .unexpectedEnd
  | unknownCode code =>
      .plain ("msgpack: unknown code " ++ Text.hexadecimal code.toNat
        ++ " decoding interface\x7b\x7d")
  | unknownSkipped code => .plain ("msgpack: unknown code " ++ Text.hexadecimal code.toNat)
  | invalidCode code expected =>
      .plain ("msgpack: invalid code=" ++ Text.hexadecimal code.toNat ++ " decoding "
        ++ expected.words)
  | notRecord code =>
      .plain ("msgpack: unexpected code=" ++ Text.hexadecimal code.toNat
        ++ " decoding map length")
  | unknownExtension id => .plain ("msgpack: unknown ext id=" ++ toString id)
  | timeLength length =>
      .plain ("msgpack: invalid ext len=" ++ toString length ++ " decoding time")
  | fieldCount =>
      .plain "msgpack: number of fields in array-encoded struct has changed"

/-! ## Pieces -/

/-- The next `n` bytes as one piece. -/
def piece (n : Nat) : Step Error Bytes := fun bs =>
  match bs.split n with
  | some r => .ok r
  | none => if bs.isEmpty then .error .endOfInput else .error .unexpectedEnd

/-- The next byte. -/
def code : Step Error UInt8
  | [] => .error .endOfInput
  | b :: rest => .ok (b, rest)

/-- The next number of `width` bytes. -/
def number (width : Nat) : Step Error Nat := fun bs => do
  let (field, rest) ← piece width bs
  return (Bytes.toNat field, rest)

/-- A length, from its code or from the field after it. -/
def size : Size → Step Error Nat
  | .given n, bs => .ok (n, bs)
  | .field width, bs => number width bs

/-- The unsigned number `n` of the given width as a signed one. -/
def signedOf (w : Width) (n : Nat) : Int := Int.bmod n (Nat.pow 2 w.bits)

/-! ## Texts and times -/

/-- The rest of a text or binary string after its code; nil stands for the empty string. -/
def stringAfter (c : UInt8) : Step Error Bytes := fun bs =>
  match Form.ofCode c with
  | .text s | .binary s => do
      let (n, rest) ← size s bs
      piece n rest
  | .nil => .ok ([], bs)
  | _ => .error (.invalidCode c .stringLength)

/-- A text, a binary string, or nil in the place of an empty one. -/
def string : Step Error Bytes := fun bs => do
  let (c, rest) ← code bs
  stringAfter c rest

/-- The instant that the bytes of a time extension stand for. -/
def instant (bs : Bytes) : Except Error Instant :=
  let n := Bytes.toNat bs
  if bs.length = 4 then .ok (Instant.ofUnix n 0 .machine)
  else if bs.length = 8 then
    .ok (Instant.ofUnix ((n % 0x400000000 : Nat) : Int) ((n / 0x400000000 : Nat) : Int) .machine)
  else if bs.length = 12 then
    .ok (Instant.ofUnix (signedWord n) ((n / wordCount : Nat) : Int) .machine)
  else .error (.timeLength bs.length)

/-- An extension after its code. Its identifier is checked before its contents are read. -/
def extension (s : Size) : Step Error Value := fun bs => do
  let (n, bs) ← size s bs
  let (id, bs) ← code bs
  if id ≠ timeId then
    throw (.unknownExtension (Int.bmod id.toNat 256))
  let (contents, bs) ← piece n bs
  let t ← instant contents
  return (.time t, bs)

/-! ## Values -/

/-- One entry of a map: a key, then a value. -/
def entryStep (value : Step Error Value) : Step Error (Bytes × Value) := fun bs => do
  let (key, bs) ← string bs
  let (v, bs) ← value bs
  return ((key, v), bs)

/-- A value of the given form after its code, where `value` reads the values inside it. -/
def valueOf (value : Step Error Value) (c : UInt8) : Form → Step Error Value
  | .small n, bs => .ok (.signed .w8 n, bs)
  | .nil, bs => .ok (.nil, bs)
  | .bool b, bs => .ok (.bool b, bs)
  | .unsigned w, bs => do
      let (n, bs) ← number w.bytes bs
      return (.unsigned w n, bs)
  | .signed w, bs => do
      let (n, bs) ← number w.bytes bs
      return (.signed w (signedOf w n), bs)
  | .float32, bs => do
      let (n, bs) ← number 4 bs
      return (.float32 (UInt32.ofNat n), bs)
  | .float64, bs => do
      let (n, bs) ← number 8 bs
      return (.float64 (UInt64.ofNat n), bs)
  | .text s, bs => do
      let (n, bs) ← size s bs
      let (contents, bs) ← piece n bs
      return (.text contents, bs)
  | .binary s, bs => do
      let (n, bs) ← size s bs
      let (contents, bs) ← piece n bs
      return (.binary contents, bs)
  | .list s, bs => do
      let (n, bs) ← size s bs
      let (vs, bs) ← Step.times value n bs
      return (.list vs, bs)
  | .map s, bs => do
      let (n, bs) ← size s bs
      let (es, bs) ← Step.times (entryStep value) n bs
      return (.map (Entries.ofPairs es), bs)
  | .extension s, bs => extension s bs
  | .unused, _ => .error (.unknownCode c)

/-- A value inside at most `levels` others. Every level takes at least one byte, so an
input of `levels` bytes is never refused for its nesting. -/
def valueStep : Nat → Step Error Value
  | 0, _ => .error .endOfInput
  | levels + 1, bs => do
      let (c, bs) ← code bs
      valueOf (valueStep levels) c (Form.ofCode c) bs

/-- The value at the front of an input, and the rest. -/
def read : Step Error Value := fun bs => valueStep bs.length bs

/-- The value at the front of an input, and how many bytes it takes. -/
def readPrefix : PrefixReader Value :=
  PrefixReader.ofRest fun bs => (read bs).mapError Error.toFailure

/-- The codec of MessagePack values. -/
def codec : Codec Value where
  decode := exact readPrefix
  encode v := ⟨v.writes, none⟩

end RoundTrip.Msgpack
