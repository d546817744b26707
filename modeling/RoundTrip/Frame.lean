import RoundTrip.Codec

/-!
# Frames

A frame is one payload, or a batch of payloads with keys, behind length fields. All
numbers are big-endian:

- single: `01`, length (4 bytes), payload;
- batch: `02`, number of items (4 bytes), then for each item the length of its key
  (2 bytes, not zero), the key, the length of its payload (4 bytes), the payload.

Each frame has one encoding. `Frame.append` and `Frame.extend` write it behind other bytes and
`Frame.read` reads it from the front of an input.
-/

set_option autoImplicit false

namespace RoundTrip

/-! ## Frames and their sizes -/

/-- The first byte of a frame. -/
structure Frame.Kind where
  /-- The byte itself. -/
  code : UInt8
  deriving DecidableEq, Repr

/-- One payload of a batch, with its key. -/
structure Frame.Item where
  /-- The key, between 1 and 65535 bytes in a valid frame. -/
  key : Bytes
  /-- The payload; an absent payload is written like an empty one. -/
  payload : Option Bytes
  deriving DecidableEq, Repr

/-- A frame: the payload belongs to a single frame and the items to a batch, and the other
part is absent in a valid frame. -/
structure Frame where
  /-- Which of the two forms the frame has. -/
  kind : Frame.Kind
  /-- The payload of a single frame. -/
  payload : Option Bytes
  /-- The items of a batch. -/
  items : Option (List Frame.Item)
  deriving DecidableEq, Repr

namespace Frame

namespace Kind

/-- One payload. -/
def single : Kind := ⟨1⟩

/-- A batch of payloads with keys. -/
def batch : Kind := ⟨2⟩

/-- The name of a kind, or its number when it has none. -/
def name (k : Kind) : String :=
  if k = single then "single"
  else if k = batch then "batch"
  else "kind(" ++ toString k.code.toNat ++ ")"

end Kind

/-- Bytes of an optional part; an absent part has none. -/
def contents (part : Option Bytes) : Bytes := part.getD []

/-- Length of the fixed part at the front of a frame. -/
def headerLength : Nat := 5

/-- Length of the shortest item: two length fields and a key of one byte. -/
def minItemLength : Nat := 7

/-- Largest number that a length field of four bytes holds. -/
def maxLength : Nat := 0xffffffff

/-- Largest length of a key. -/
def maxKeyLength : Nat := 0xffff

/-- The encoded length of an item. -/
def Item.size (it : Item) : Nat := 2 + it.key.length + 4 + (contents it.payload).length

/-- The encoded length of a frame, which is not checked for validity. -/
def size (f : Frame) : Nat :=
  if f.kind = Kind.single then headerLength + (contents f.payload).length
  else if f.kind = Kind.batch then
    headerLength + (f.items.getD []).foldr (fun it n => it.size + n) 0
  else headerLength

/-! ## Writing -/

/-- Why a frame has no encoding. -/
inductive Misfit where
  /-- A single frame with items. -/
  | strayItems (count : Nat)
  /-- A payload whose length does not fit its field. -/
  | longPayload (length : Nat)
  /-- A batch with a payload of its own. -/
  | strayPayload
  /-- More items than their field can count. -/
  | manyItems (count : Nat)
  /-- A key that is empty or too long. -/
  | keyLength (index length : Nat)
  /-- An item's payload whose length does not fit its field. -/
  | longItem (index length : Nat)
  /-- A kind that is neither single nor batch. -/
  | unknownKind (kind : Kind)
  deriving DecidableEq, Repr

namespace Misfit

/-- The text of a misfit. -/
def message : Misfit → String
  | strayItems count => "single frame carries " ++ toString count ++ " items"
  | longPayload length => "payload of " ++ toString length ++ " bytes"
  | strayPayload => "batch frame carries a payload"
  | manyItems count => toString count ++ " items"
  | keyLength index length =>
      "item " ++ toString index ++ " key length " ++ toString length
  | longItem index length =>
      "item " ++ toString index ++ " payload of " ++ toString length ++ " bytes"
  | unknownKind kind => kind.name

/-- A misfit as the failure of a write. -/
def toFailure (m : Misfit) : Failure := .detailed .invalidFrame m.message

end Misfit

/-- The first item at fault, where `index` is the position of the first item. -/
def checkItems (index : Nat) : List Item → Option Misfit
  | [] => none
  | it :: its =>
      if it.key.length = 0 ∨ maxKeyLength < it.key.length then
        some (.keyLength index it.key.length)
      else if maxLength < (contents it.payload).length then
        some (.longItem index (contents it.payload).length)
      else checkItems (index + 1) its

/-- What keeps a frame from being written. -/
def check (f : Frame) : Option Misfit :=
  if f.kind = Kind.single then
    match f.items with
    | some its => some (.strayItems its.length)
    | none =>
        if maxLength < (contents f.payload).length then
          some (.longPayload (contents f.payload).length)
        else none
  else if f.kind = Kind.batch then
    if f.payload.isSome then some .strayPayload
    else
      let its := f.items.getD []
      if maxLength < its.length then some (.manyItems its.length)
      else checkItems 0 its
  else some (.unknownKind f.kind)

/-- The encoding of an item. -/
def Item.encode (it : Item) : Bytes :=
  Bytes.bigEndian 2 it.key.length ++ it.key
    ++ Bytes.bigEndian 4 (contents it.payload).length ++ contents it.payload

/-- The encoding of a frame that has passed `check`. -/
def encode (f : Frame) : Bytes :=
  f.kind.code ::
    if f.kind = Kind.single then
      Bytes.bigEndian 4 (contents f.payload).length ++ contents f.payload
    else
      Bytes.bigEndian 4 (f.items.getD []).length ++ (f.items.getD []).flatMap Item.encode

/-- Writes a frame behind other bytes. -/
def append (front : Bytes) (f : Frame) : Except Misfit Bytes :=
  match f.check with
  | some m => .error m
  | none => .ok (front ++ f.encode)

/-- What stands in place of other bytes after an attempt to write a frame behind them: a frame that
has no encoding leaves them as they are. -/
def extend (front : Bytes) (f : Frame) : Bytes × Option Misfit :=
  match append front f with
  | .ok out => (out, none)
  | .error m => (front, some m)

/-! ## Reading -/

/-- Why bytes are not a frame. -/
inductive Corruption where
  /-- Fewer bytes than a header. -/
  | shortHeader (length : Nat)
  /-- More items announced than the rest of the input can hold. -/
  | manyItems (count rest : Nat)
  /-- The input ends inside a length field of an item. -/
  | truncatedItem (index : Nat)
  /-- An item with a key of no bytes. -/
  | emptyKey (index : Nat)
  /-- A length that exceeds the rest of the input. -/
  | overrun (length rest : Nat)
  /-- A first byte that is neither single nor batch. -/
  | unknownKind (kind : Kind)
  deriving DecidableEq, Repr

namespace Corruption

/-- The text of a corruption. -/
def message : Corruption → String
  | shortHeader length => toString length ++ " bytes is shorter than the header"
  | manyItems count rest =>
      toString count ++ " items cannot fit in " ++ toString rest ++ " bytes"
  | truncatedItem index => "item " ++ toString index ++ " truncated"
  | emptyKey index => "item " ++ toString index ++ " has an empty key"
  | overrun length rest =>
      "length " ++ toString length ++ " exceeds remaining " ++ toString rest ++ " bytes"
  | unknownKind kind => "unknown " ++ kind.name

/-- A corruption as the failure of a read. -/
def toFailure (c : Corruption) : Failure := .detailed .corruptFrame c.message

end Corruption

/-- The next `length` bytes and the rest. -/
def span (length : Nat) (bs : Bytes) : Except Corruption (Bytes × Bytes) :=
  match bs.split length with
  | some r => .ok r
  | none => .error (.overrun length bs.length)

/-- A length field of the item at `index`. -/
def lengthField (width index : Nat) (bs : Bytes) : Except Corruption (Nat × Bytes) :=
  match bs.split width with
  | some (field, rest) => .ok (Bytes.toNat field, rest)
  | none => .error (.truncatedItem index)

/-- The item at `index`. -/
def readItem (index : Nat) (bs : Bytes) : Except Corruption (Item × Bytes) := do
  let (keyLength, bs) ← lengthField 2 index bs
  if keyLength = 0 then
    throw (.emptyKey index)
  let (key, bs) ← span keyLength bs
  let (length, bs) ← lengthField 4 index bs
  let (payload, bs) ← span length bs
  return (⟨key, some payload⟩, bs)

/-- The next `count` items behind those already read (in reverse), where `index` is the
position of the next one. -/
def readItems : (count index : Nat) → List Item → Bytes → Except Corruption (List Item × Bytes)
  | 0, _, done, bs => .ok (done.reverse, bs)
  | count + 1, index, done, bs =>
      match readItem index bs with
      | .ok (it, rest) => readItems count (index + 1) (it :: done) rest
      | .error c => .error c

/-- The frame at the front of an input, and the rest. -/
def read (bs : Bytes) : Except Corruption (Frame × Bytes) :=
  match bs.split headerLength with
  | some (code :: field, rest) =>
      let kind : Kind := ⟨code⟩
      let n := Bytes.toNat field
      if kind = Kind.single then do
        let (payload, rest) ← span n rest
        return (⟨kind, some payload, none⟩, rest)
      else if kind = Kind.batch then
        -- the announced number is compared with what the rest can hold before any item
        if rest.length / minItemLength < n then .error (.manyItems n rest.length)
        else do
          let (items, rest) ← readItems n 0 [] rest
          return (⟨kind, none, some items⟩, rest)
      else .error (.unknownKind kind)
  | _ => .error (.shortHeader bs.length)

/-- The frame at the front of an input, and how many bytes it takes. -/
def readPrefix : PrefixReader Frame :=
  PrefixReader.ofRest fun bs => (read bs).mapError Corruption.toFailure

/-- The codec of frames. -/
def codec : Codec Frame where
  decode := exact readPrefix
  encode f := Emission.ofExcept ((f.append []).mapError Misfit.toFailure)

end Frame

end RoundTrip
