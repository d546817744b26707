import Std.Data.HashSet
import RoundTrip.Calendar.Timestamp
import RoundTrip.Cbor.Item
import RoundTrip.Cbor.Value

/-!
# The meaning of CBOR items

An item that is well-formed is interpreted as a value. Interpretation goes on after an
error and reports the first one, except that a repeated key ends its map and is reported
instead of what went wrong in that map before.

Tag 55799 marks its content as CBOR and is dropped in front of items, elements, keys and
values. Tags 0 and 1 are times, 2 and 3 are integers of any size, and the content of these
four is checked before anything inside a chain of tags is interpreted.

Main definitions: `Error`, `Item.interpret`, `readPrefix`.
-/

set_option autoImplicit false

namespace RoundTrip.Cbor

/-! ## Errors -/

/-- The tags whose content has to be of a certain type. -/
inductive TypedTag where
  /-- Tag 0: a time as text. -/
  | timestamp
  /-- Tag 1: a time in seconds. -/
  | epoch
  /-- Tags 2 and 3: an integer of any size. -/
  | bignum
  deriving DecidableEq, Repr

/-- The tag number of a typed tag in a message. -/
def TypedTag.number : TypedTag → String
  | timestamp => "0"
  | epoch => "1"
  | bignum => "2 or 3"

/-- What the content of a typed tag has to be. -/
def TypedTag.content : TypedTag → String
  | timestamp => "text string"
  | epoch => "integer or floating-point number"
  | bignum => "byte string"

/-- Why an item has no meaning. -/
inductive Error where
  | syntactic (e : SyntaxError)
  | invalidUtf8
  /-- Content of another type than its tag wants. -/
  | tagContent (tag : TypedTag) (found : Major)
  /-- A text of tag 0 that is no timestamp. -/
  | badTimestamp
  /-- Seconds beyond 64 bits. -/
  | timeRange (seconds : Int)
  /-- A key of a type that keys cannot have. -/
  | keyType (name : String)
  /-- A repeated key, and the position of the pair that repeats it. -/
  | duplicateKey (key : String) (index : Nat)
  /-- A key of a record that is neither text nor an integer. -/
  | fieldKeyType (major : Major)
  /-- A key `-1 - n` of a record beyond 64 bits. -/
  | fieldKeyRange (n : Nat)
  /-- A value that does not fit its place in a record. -/
  | mismatch
  /-- A simple value without an encoding. -/
  | unsupportedSimple (n : Nat)
  deriving DecidableEq, Repr

/-- An error as the failure of a read or write. -/
def Error.toFailure : Error → Failure
  | syntactic e => e.toFailure
  | invalidUtf8 => .plain "cbor: invalid UTF-8 string"
  | tagContent tag found =>
      .plain ("cbor: tag number " ++ tag.number ++ " must be followed by " ++ tag.content
        ++ ", got " ++ found.name)
  | badTimestamp => .plain "cbor error"
  | timeRange seconds =>
      .plain ("cbor: cannot unmarshal "
        ++ (if seconds < 0 then Major.negative.name else Major.unsigned.name)
        ++ " into Go value of type time.Time (" ++ toString seconds ++ " overflows Go's int64)")
  | keyType name => .plain ("cbor: invalid map key type: " ++ name)
  | duplicateKey key index =>
      .plain ("cbor: found duplicate map key " ++ key ++ " at map element index "
        ++ toString index)
  | fieldKeyType major =>
      .plain ("cbor: cannot unmarshal " ++ major.name
        ++ " into Go value of type string (map key is of type " ++ major.name
        ++ " and cannot be used to match struct field name)")
  | fieldKeyRange n =>
      .plain ("cbor: cannot unmarshal " ++ Major.negative.name
        ++ " into Go value of type int64 (-1-" ++ toString n ++ " overflows Go's int64)")
  | mismatch => .plain "cbor error"
  | unsupportedSimple n =>
      .plain ("cbor: unsupported value: SimpleValue(" ++ toString n ++ ")")

/-! ## Strings and numbers -/

/-- The contents of a string. -/
def Item.contents : Item → Bytes
  | .string _ _ cs => cs
  | .chunked _ chunks => (chunks.map (·.2)).flatten
  | _ => []

/-- The contents of a text, each part of which has to be UTF-8. -/
def Item.textContents : Item → Except Error Bytes
  | .string _ _ cs => if Utf8.isValid cs then .ok cs else .error .invalidUtf8
  | .chunked _ chunks =>
      if chunks.all fun c => Utf8.isValid c.2 then .ok (chunks.map (·.2)).flatten
      else .error .invalidUtf8
  | _ => .ok []

/-- The binary number of 64 bits in a primitive, if it is one. -/
def floatBits? (arg : Argument) : Option UInt64 :=
  match arg.width with
  | .two => some (UInt64.ofNat (Binary.convert Binary.half Binary.double arg.value))
  | .four => some (UInt64.ofNat (Binary.convert Binary.single Binary.double arg.value))
  | .eight => some (UInt64.ofNat arg.value)
  | _ => none

/-- The value of a primitive. -/
def primitive (arg : Argument) : Value :=
  match floatBits? arg with
  | some bits => .float bits
  | none =>
      match arg.value with
      | 20 => .bool false
      | 21 => .bool true
      | 22 => .nil
      | 23 => .nil
      | n => .simple n

/-- The number `-1 - n` as a word, or beyond it. -/
def negative (n : Nat) : Value :=
  if n < wordHalf then .signed (-1 - n) else .big (-1 - n)

/-! ## Times -/

/-- A time in whole seconds. -/
def epochInteger (seconds : Int) : Except Error Value :=
  if FitsWord seconds then
    .ok (.time (Instant.ofUnix seconds 0 .machine))
  else .error (.timeRange seconds)

/-- A time in seconds with a fraction. The fraction is scaled to nanoseconds in 64-bit binary
arithmetic and then cut; seconds beyond 64 bits become the least word. -/
def epochFloat (bits : UInt64) : Instant :=
  match Binary.double.unpack bits.toNat with
  | .finite negative c q =>
      let whole := if 0 ≤ q then c * Nat.pow 2 q.toNat else c / Nat.pow 2 (-q).toNat
      let part := if 0 ≤ q then 0 else c % Nat.pow 2 (-q).toNat
      let scaled := Binary.double.roundRatio (part * Instant.perSecond) (Nat.pow 2 (-q).toNat)
      let nanos : Nat :=
        match Binary.double.unpack scaled with
        | .finite _ c q => if 0 ≤ q then c * Nat.pow 2 q.toNat else c / Nat.pow 2 (-q).toNat
        | _ => 0
      let sign : Int := if negative then -1 else 1
      let seconds := sign * whole
      Instant.ofUnix (if FitsWord seconds then seconds else -wordHalf) (sign * nanos) .machine
  | _ => Instant.unset

/-- The time in the content of tag 0. -/
def timestampTag (content : Item) : Except Error Value := do
  let text ← content.textContents
  match Timestamp.read? text with
  | some t => .ok (.time t)
  | none => .error .badTimestamp

/-- The time in the content of tag 1. -/
def epochTag : Item → Except Error Value
  | .unsigned arg => epochInteger arg.value
  | .negative arg => epochInteger (-1 - arg.value)
  | .primitive arg =>
      match floatBits? arg with
      | some bits => .ok (.time (epochFloat bits))
      | none => .error (.tagContent .epoch .primitive)
  | item => .error (.tagContent .epoch item.major)

/-! ## Tags -/

/-- The tag that marks its content as CBOR. -/
def selfDescribed : Nat := 55799

/-- What is wrong with the content of a tag. -/
def contentError? (number : Nat) (content : Item) : Option Error :=
  match number with
  | 0 => if content.major = .text then none else some (.tagContent .timestamp content.major)
  | 1 =>
      match content with
      | .unsigned _ | .negative _ => none
      | .primitive arg =>
          if (floatBits? arg).isSome then none else some (.tagContent .epoch .primitive)
      | item => some (.tagContent .epoch item.major)
  | 2 | 3 => if content.major = .bytes then none else some (.tagContent .bignum content.major)
  | _ => none

/-- The first tag of a chain whose content has the wrong type. -/
def chainError? : Item → Option Error
  | .tag arg content =>
      match contentError? arg.value content with
      | some e => some e
      | none => chainError? content
  | _ => none

/-! ## Maps -/

/-- A map under construction. -/
structure Partial where
  /-- The entries, last one first. -/
  entries : List (Value × Value) := []
  /-- The identities of their keys. -/
  seen : Std.HashSet Bytes := ∅
  /-- The position of the next pair. -/
  index : Nat := 0
  /-- The first error. -/
  error : Option Error := none

namespace Partial

/-- Goes on after an error. -/
def fail (p : Partial) (e : Error) : Partial :=
  { p with index := p.index + 1, error := some (p.error.getD e) }

/-- A key of this map is equal to the given one. -/
def has (p : Partial) (key : Value) : Bool :=
  match key.identity? with
  | some i => p.seen.contains i
  | none => false

/-- One entry more. -/
def add (p : Partial) (key value : Value) : Partial :=
  { p with
    entries := (key, value) :: p.entries
    seen := match key.identity? with
      | some i => p.seen.insert i
      | none => p.seen
    index := p.index + 1 }

/-- The finished map. -/
def finish (p : Partial) : Except Error Value :=
  match p.error with
  | some e => .error e
  | none => .ok (.map p.entries.reverse)

end Partial

/-! ## Values -/

mutual

/-- The meaning of an item; with `strip`, tags that mark it as CBOR are dropped. -/
def Item.interpret (strip : Bool) : Item → Except Error Value
  | .unsigned arg => .ok (.unsigned arg.value)
  | .negative arg => .ok (negative arg.value)
  | .string .bytes _ cs => .ok (.bytes cs)
  | .string .text arg cs => do return .text (← (Item.string .text arg cs).textContents)
  | .chunked .bytes chunks => .ok (.bytes (Item.chunked .bytes chunks).contents)
  | .chunked .text chunks => do return .text (← (Item.chunked .text chunks).textContents)
  | .array _ items => do return .list (← interpretAll items [])
  | .map _ pairs => interpretPairs pairs {}
  | .primitive arg => .ok (primitive arg)
  | .tag arg content =>
      if strip ∧ arg.value = selfDescribed then content.interpret true
      else
        match chainError? (.tag arg content) with
        | some e => .error e
        | none =>
            match arg.value with
            | 0 => timestampTag content
            | 1 => epochTag content
            | 2 => .ok (.big (Bytes.toNat content.contents))
            | 3 => .ok (.big (-1 - Bytes.toNat content.contents))
            | number => do return .tag number (← content.interpret false)

/-- The meanings of the items of an array, behind those already found (in reverse). -/
def interpretAll : List Item → List Value → Except Error (List Value)
  | [], done => .ok done.reverse
  | item :: items, done =>
      match item.interpret true with
      | .ok v => interpretAll items (v :: done)
      | .error e => .error e

/-- The map of a list of pairs, added to one under construction. -/
def interpretPairs : List (Item × Item) → Partial → Except Error Value
  | [], p => p.finish
  | (key, value) :: pairs, p =>
      match key.interpret true with
      | .error e => interpretPairs pairs (p.fail e)
      | .ok k =>
          match k.key? with
          | none => interpretPairs pairs (p.fail (.keyType k.keyTypeName))
          | some k =>
              match value.interpret true with
              | .error e => interpretPairs pairs (p.fail e)
              | .ok v =>
                  if p.has k then .error (.duplicateKey k.literal p.index)
                  else interpretPairs pairs (p.add k v)

end

/-- The item at the front of an input and its meaning, and the rest. -/
def read (bs : Bytes) : Except Error (Value × Bytes) := do
  let (item, rest) ← (Item.read bs).mapError .syntactic
  let v ← item.interpret true
  return (v, rest)

/-- The value at the front of an input, and how many bytes it takes. -/
def readPrefix : PrefixReader Value :=
  PrefixReader.ofRest fun bs => (read bs).mapError Error.toFailure

end RoundTrip.Cbor
