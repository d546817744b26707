import RoundTrip.Codec
import RoundTrip.Entries
import RoundTrip.Msgpack.Value

/-!
# Writing MessagePack

Integers take their shortest form, floating-point numbers keep their width, lengths take
their shortest header, and maps are written in increasing order of keys. A code of one
byte is a write of its own, a code with its number is one block, and contents are one
block after it.

Main definition: `Value.writes`.
-/

set_option autoImplicit false

namespace RoundTrip.Msgpack

/-! ## Headers -/

/-- A code with a number of `width` bytes after it, as one block. -/
def numbered (code : UInt8) (width n : Nat) : Write := .block (code :: Bytes.bigEndian width n)

/-- A natural number in its shortest form. -/
def natural (n : Nat) : Write :=
  if n < 0x80 then .byte (UInt8.ofNat n)
  else if n < 0x100 then numbered 0xcc 1 n
  else if n < 0x10000 then numbered 0xcd 2 n
  else if n < 0x100000000 then numbered 0xce 4 n
  else numbered 0xcf 8 n

/-- A negative number `-1 - n` in its shortest form. -/
def negative (n : Nat) : Write :=
  if n < 0x20 then .byte (UInt8.ofNat (0xff - n))
  else if n < 0x80 then numbered 0xd0 1 (0xff - n)
  else if n < 0x8000 then numbered 0xd1 2 (0xffff - n)
  else if n < 0x80000000 then numbered 0xd2 4 (0xffffffff - n)
  else numbered 0xd3 8 (0xffffffffffffffff - n)

/-- An integer in its shortest form. -/
def integer : Int → Write
  | .ofNat n => natural n
  | .negSucc n => negative n

/-- The header of a text of `n` bytes. -/
def textHeader (n : Nat) : Write :=
  if n < 0x20 then .byte (UInt8.ofNat (0xa0 + n))
  else if n < 0x100 then numbered 0xd9 1 n
  else if n < 0x10000 then numbered 0xda 2 n
  else numbered 0xdb 4 n

/-- The header of a binary string of `n` bytes. -/
def binaryHeader (n : Nat) : Write :=
  if n < 0x100 then numbered 0xc4 1 n
  else if n < 0x10000 then numbered 0xc5 2 n
  else numbered 0xc6 4 n

/-- The header of a list of `n` values. -/
def listHeader (n : Nat) : Write :=
  if n < 0x10 then .byte (UInt8.ofNat (0x90 + n))
  else if n < 0x10000 then numbered 0xdc 2 n
  else numbered 0xdd 4 n

/-- The header of a map of `n` entries. -/
def mapHeader (n : Nat) : Write :=
  if n < 0x10 then .byte (UInt8.ofNat (0x80 + n))
  else if n < 0x10000 then numbered 0xde 2 n
  else numbered 0xdf 4 n

/-- A text: its header, then its bytes. -/
def text (bs : Bytes) : List Write := [textHeader bs.length, .block bs]

/-! ## Times -/

/-- The extension identifier of times. -/
def timeId : UInt8 := 0xff

/-- A time: 4 bytes of seconds when these suffice, 8 bytes for nanoseconds above 34 bits
of seconds, and 12 bytes otherwise. -/
def time (t : Instant) : List Write :=
  let seconds := unsignedWord t.seconds
  if seconds < 0x400000000 then
    let packed := t.nanos * 0x400000000 + seconds
    if packed < 0x100000000 then
      [.byte 0xd6, .byte timeId, .block (Bytes.bigEndian 4 packed)]
    else
      [.byte 0xd7, .byte timeId, .block (Bytes.bigEndian 8 packed)]
  else
    [.block [0xc7, 12], .byte timeId,
      .block (Bytes.bigEndian 4 t.nanos ++ Bytes.bigEndian 8 seconds)]

/-! ## Values -/

/-- One entry of a map, whose value has been written already. -/
def entry (e : Bytes × List Write) : List Write := text e.1 ++ e.2

mutual

/-- The writes that put out a value. -/
def Value.writes : Value → List Write
  | .nil => [.byte 0xc0]
  | .bool false => [.byte 0xc2]
  | .bool true => [.byte 0xc3]
  | .signed _ n => [integer n]
  | .unsigned _ n => [natural n]
  | .float32 bits => [numbered 0xca 4 bits.toNat]
  | .float64 bits => [numbered 0xcb 8 bits.toNat]
  | .text bs => text bs
  | .binary bs => [binaryHeader bs.length, .block bs]
  | .time t => time t
  | .list vs => listHeader vs.length :: (listWrites vs []).flatten
  | .map es => mapHeader es.length :: (Entries.sort (entryWrites es [])).flatMap entry

/-- The writes of each value of a list, behind those already made (in reverse). -/
def listWrites : List Value → List (List Write) → List (List Write)
  | [], done => done.reverse
  | v :: vs, done => listWrites vs (v.writes :: done)

/-- The keys of entries with the writes of their values, behind those already made (in
reverse). -/
def entryWrites :
    List (Bytes × Value) → List (Bytes × List Write) → List (Bytes × List Write)
  | [], done => done.reverse
  | (key, v) :: es, done => entryWrites es ((key, v.writes) :: done)

end

end RoundTrip.Msgpack
