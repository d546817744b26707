import RoundTrip.Entries
import RoundTrip.Cbor.Reader

/-!
# Writing CBOR

Heads and floating-point numbers take their shortest form, lengths are definite, and times
are texts. In canonical mode the entries of a map are in increasing order of the bytes of
their keys.

Main definitions: `Value.encode`, `codec`.
-/

set_option autoImplicit false

namespace RoundTrip.Cbor

/-! ## Heads -/

/-- A head with its argument in the shortest form. -/
def shortHead (major : Major) (n : Nat) : Bytes :=
  let start (info : Nat) : UInt8 := UInt8.ofNat (major.code * 32 + info)
  if n < 24 then [start n]
  else if n < 0x100 then start 24 :: Bytes.bigEndian 1 n
  else if n < 0x10000 then start 25 :: Bytes.bigEndian 2 n
  else if n < 0x100000000 then start 26 :: Bytes.bigEndian 4 n
  else start 27 :: Bytes.bigEndian 8 n

/-- A string with its length. -/
def shortString (kind : StringKind) (bs : Bytes) : Bytes :=
  shortHead kind.major bs.length ++ bs

/-! ## Numbers -/

/-- An integer: a head of its own when its argument fits 64 bits, and the bytes of the
argument under tag 2 or 3 otherwise. -/
def integer : Int → Bytes
  | .ofNat n =>
      if n < wordCount then shortHead .unsigned n
      else shortHead .tag 2 ++ shortString .bytes (Bytes.ofNat n)
  | .negSucc n =>
      if n < wordCount then shortHead .negative n
      else shortHead .tag 3 ++ shortString .bytes (Bytes.ofNat n)

/-- A floating-point number in the shortest format that holds it. -/
def float (bits : UInt64) : Bytes :=
  let n := Binary.double.unpack bits.toNat
  match Binary.half.exact? n with
  | some b => 0xf9 :: Bytes.bigEndian 2 b
  | none =>
      match Binary.single.exact? n with
      | some b => 0xfa :: Bytes.bigEndian 4 b
      | none => 0xfb :: Bytes.bigEndian 8 bits.toNat

/-- A simple value. -/
def simple (n : Nat) : Except Error Bytes :=
  if 24 ≤ n ∧ n < 32 then .error (.unsupportedSimple n) else .ok (shortHead .primitive n)

/-- The byte of nil. -/
def nilBytes : Bytes := [0xf6]

/-- A time as text; the unset time is nil. -/
def time (t : Instant) : Bytes :=
  if t.isUnset then nilBytes else shortString .text (Bytes.ofString (Timestamp.write t))

/-! ## Values -/

/-- The order in which the entries of a map are written. -/
inductive Order where
  /-- In increasing order of the bytes of their keys. -/
  | canonical
  /-- As the map holds them. -/
  | given
  deriving DecidableEq, Repr

/-- The entries of a map in the order in which they are written. Where keys have the same bytes, in
canonical order as well, the entries stay as the map hands them out, which it does in no particular
order. -/
def Order.arrange (o : Order) (es : List (Bytes × Bytes)) : List (Bytes × Bytes) :=
  match o with
  | canonical => Entries.sort es
  | given => es

mutual

/-- The bytes of a value. -/
def Value.encode (o : Order) : Value → Except Error Bytes
  | .nil => .ok nilBytes
  | .bool b => .ok [if b then 0xf5 else 0xf4]
  | .unsigned n => .ok (shortHead .unsigned n)
  | .signed n => .ok (integer n)
  | .big n => .ok (integer n)
  | .float bits => .ok (float bits)
  | .bytes bs => .ok (shortString .bytes bs)
  | .byteKey bs => .ok (shortString .bytes bs)
  | .text bs => .ok (shortString .text bs)
  | .simple n => simple n
  | .time t => .ok (time t)
  | .tag number content =>
      match number, content with
      -- a tag that was never filled in
      | 0, .nil => .ok nilBytes
      | number, content => do return shortHead .tag number ++ (← content.encode o)
  | .list vs => do return shortHead .array vs.length ++ (← encodeAll o vs []).flatten
  | .map es => do
      let written ← encodeEntries o es []
      return shortHead .map es.length ++ (o.arrange written).flatMap fun e => e.1 ++ e.2

/-- The bytes of each value of a list, behind those already written (in reverse). -/
def encodeAll (o : Order) : List Value → List Bytes → Except Error (List Bytes)
  | [], done => .ok done.reverse
  | v :: vs, done =>
      match v.encode o with
      | .ok bs => encodeAll o vs (bs :: done)
      | .error e => .error e

/-- The bytes of the keys and values of entries, behind those already written (in reverse). -/
def encodeEntries (o : Order) :
    List (Value × Value) → List (Bytes × Bytes) → Except Error (List (Bytes × Bytes))
  | [], done => .ok done.reverse
  | (k, v) :: es, done =>
      match k.encode o with
      | .error e => .error e
      | .ok key =>
          match v.encode o with
          | .error e => .error e
          | .ok value => encodeEntries o es ((key, value) :: done)

end

/-- The codec of CBOR values. -/
def codec (o : Order) : Codec Value where
  decode := exact readPrefix
  encode v := Emission.ofExcept ((v.encode o).mapError Error.toFailure)

end RoundTrip.Cbor
