import RoundTrip.Msgpack.Reader
import RoundTrip.Reading

/-!
# Readings in MessagePack

A reading is a map from field names to fields, or a list of its three fields in order; nil
and the empty list stand for a blank reading. Unknown fields are passed over, and of a
repeated field the last one counts.

Main definition: `readingCodec`.
-/

set_option autoImplicit false

namespace RoundTrip.Msgpack

/-! ## Passing over values -/

/-- Passes over a value of the given form after its code, where `skip` passes over the values
inside it. -/
def skipForm (skip : Step Error Unit) (c : UInt8) : Form → Step Error Unit
  | .small _, bs | .nil, bs | .bool _, bs => .ok ((), bs)
  | .unsigned w, bs | .signed w, bs => do return ((), (← piece w.bytes bs).2)
  | .float32, bs => do return ((), (← piece 4 bs).2)
  | .float64, bs => do return ((), (← piece 8 bs).2)
  | .text s, bs | .binary s, bs => do
      let (n, bs) ← size s bs
      return ((), (← piece n bs).2)
  | .list s, bs => do
      let (n, bs) ← size s bs
      return ((), (← Step.times skip n bs).2)
  | .map s, bs => do
      let (n, bs) ← size s bs
      return ((), (← Step.times skip (2 * n) bs).2)
  | .extension s, bs => do
      let (n, bs) ← size s bs
      -- the identifier and the contents are one piece
      return ((), (← piece (n + 1) bs).2)
  | .unused, _ => .error (.unknownSkipped c)

/-- Passes over a value inside at most `levels` others. -/
def skipStep : (levels : Nat) → Step Error Unit
  | 0, _ => .error .endOfInput
  | levels + 1, bs => do
      let (c, bs) ← code bs
      skipForm (skipStep levels) c (Form.ofCode c) bs

/-! ## Fields -/

/-- An integer of any width as a signed word of 64 bits; nil stands for zero. -/
def integerStep : Step Error Int := fun bs => do
  let (c, bs) ← code bs
  match Form.ofCode c with
  | .nil => return (0, bs)
  | .small n => return (n, bs)
  | .unsigned w =>
      let (n, bs) ← number w.bytes bs
      return (signedWord n, bs)
  | .signed w =>
      let (n, bs) ← number w.bytes bs
      return (signedOf w n, bs)
  | _ => throw (.invalidCode c .integer)

/-- A list of texts; nil stands for no answer. -/
def textsStep : Step Error (Option (List Bytes)) := fun bs => do
  let (c, bs) ← code bs
  match Form.ofCode c with
  | .nil => return (none, bs)
  | .list s =>
      let (n, bs) ← size s bs
      let (texts, bs) ← Step.times string n bs
      return (some texts, bs)
  | _ => throw (.invalidCode c .listLength)

/-- Reads a field into a reading. Nil in the place of tags leaves them as they are. -/
def fieldStep (r : Reading) : Reading.Field → Step Error Reading
  | .sensor, bs => do
      let (s, bs) ← string bs
      return ({ r with sensor := s }, bs)
  | .value, bs => do
      let (n, bs) ← integerStep bs
      return ({ r with value := n }, bs)
  | .tags, bs => do
      let (tags, bs) ← textsStep bs
      return ({ r with tags := tags.or r.tags }, bs)

/-! ## Records -/

/-- The next `n` named fields, read into a reading. -/
def namedFields (skip : Step Error Unit) : (n : Nat) → Reading → Step Error Reading
  | 0, r, bs => .ok (r, bs)
  | n + 1, r, bs =>
      match string bs with
      | .error e => .error e
      | .ok (name, bs) =>
          match Reading.Field.find? name with
          | some f =>
              match fieldStep r f bs with
              | .error e => .error e
              | .ok (r, bs) => namedFields skip n r bs
          | none =>
              match skip bs with
              | .error e => .error e
              | .ok ((), bs) => namedFields skip n r bs

/-- All fields in their order, read into a reading. -/
def orderedFields : List Reading.Field → Reading → Step Error Reading
  | [], r, bs => .ok (r, bs)
  | f :: fs, r, bs => do
      let (r, bs) ← fieldStep r f bs
      orderedFields fs r bs

/-- A reading inside an input of at most `length` bytes. -/
def readingStep (length : Nat) : Step Error Reading := fun bs => do
  let (c, bs) ← code bs
  match Form.ofCode c with
  | .nil => return (.blank, bs)
  | .map s =>
      let (n, bs) ← size s bs
      namedFields (skipStep length) n .blank bs
  | .list s =>
      match size s bs with
      | .error _ => throw (.notRecord c)
      | .ok (0, bs) => return (.blank, bs)
      | .ok (n, bs) =>
          if n = Reading.Field.all.length then orderedFields Reading.Field.all .blank bs
          else throw .fieldCount
  | _ => throw (.notRecord c)

/-- The reading at the front of an input, and how many bytes it takes. -/
def readingPrefix : PrefixReader Reading :=
  PrefixReader.ofRest fun bs => (readingStep bs.length bs).mapError Error.toFailure

/-! ## Writing -/

/-- The writes of a field. -/
def fieldWrites (r : Reading) : Reading.Field → List Write
  | .sensor => text r.sensor
  | .value => [integer r.value]
  | .tags =>
      match r.tags with
      | none => [.byte 0xc0]
      | some tags => listHeader tags.length :: tags.flatMap text

/-- The writes of a reading: a map of its fields in their order. -/
def readingWrites (r : Reading) : List Write :=
  mapHeader Reading.Field.all.length ::
    Reading.Field.all.flatMap fun f => text f.key ++ fieldWrites r f

/-- The codec of readings in MessagePack. -/
def readingCodec : Codec Reading where
  decode := exact readingPrefix
  encode r := ⟨readingWrites r, none⟩

end RoundTrip.Msgpack
