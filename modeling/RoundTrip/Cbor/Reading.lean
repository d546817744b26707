import RoundTrip.Cbor.Writer
import RoundTrip.Reading

/-!
# Readings in CBOR

A reading is a map from field names to fields. Names match exactly or else up to case, and a
second key for a field is refused like any other repeated key. Keys that name no field are
passed over, and integer keys too; any other key is an error. Nil leaves a field blank.

Reading goes on after an error and reports the first one, except that a repeated key ends
the map and is reported instead.

Main definition: `readingCodec`.
-/

set_option autoImplicit false

namespace RoundTrip.Cbor

/-! ## Fields -/

/-- The item below any tags that mark it as CBOR. -/
def Item.stripped : Item → Item
  | .tag arg content => if arg.value = selfDescribed then content.stripped else .tag arg content
  | item => item

/-- Nil and undefined. -/
def isNil (arg : Argument) : Bool :=
  (floatBits? arg).isNone && (arg.value == 22 || arg.value == 23)

/-- An item to be read as a certain type: `leaf` reads what is no tag. Tags are passed over, in
any depth, except that integers of any size are taken as such by `bignum`. -/
def untag {α : Type} (leaf : Item → Except Error α) (bignum : Int → Except Error α) :
    Item → Except Error α
  | .tag arg content =>
      if arg.value = selfDescribed then untag leaf bignum content
      else
        match chainError? (.tag arg content) with
        | some e => .error e
        | none =>
            match arg.value with
            | 2 => bignum (Bytes.toNat content.contents)
            | 3 => bignum (-1 - Bytes.toNat content.contents)
            | _ => untag leaf bignum content
  | item => leaf item

/-- The error of an item of the wrong type; a text is read before its type is looked at. -/
def misfit {α : Type} (item : Item) : Except Error α :=
  match item with
  | .string .text _ _ | .chunked .text _ => do
      let _ ← item.textContents
      .error .mismatch
  | _ => .error .mismatch

/-- A text; nil stands for no answer. -/
def textField (item : Item) : Except Error (Option Bytes) :=
  untag (fun item =>
    match item with
    | .string .text _ _ | .chunked .text _ => do return some (← item.textContents)
    | .primitive arg => if isNil arg then .ok none else .error .mismatch
    | item => misfit item) (fun _ => .error .mismatch) item

/-- An integer has to fit a signed word of 64 bits. -/
def wordField (n : Int) : Except Error (Option Int) :=
  if FitsWord n then .ok (some n) else .error .mismatch

/-- An integer, or a simple value in its place; nil stands for no answer. -/
def integerField (item : Item) : Except Error (Option Int) :=
  untag (fun item =>
    match item with
    | .unsigned arg => wordField arg.value
    | .negative arg => wordField (-1 - arg.value)
    | .primitive arg =>
        if isNil arg then .ok none
        else
          match primitive arg with
          | .simple n => .ok (some n)
          | _ => .error .mismatch
    | item => misfit item) wordField item

/-- The texts of a list behind those already read (in reverse); nil stands for an empty one. -/
def textFields : List Item → List Bytes → Except Error (List Bytes)
  | [], done => .ok done.reverse
  | item :: items, done =>
      match textField item with
      | .ok t => textFields items (t.getD [] :: done)
      | .error e => .error e

/-- A list of texts; nil stands for no list. -/
def tagsField (item : Item) : Except Error (Option (List Bytes)) :=
  untag (fun item =>
    match item with
    | .array _ items => do return some (← textFields items [])
    | .primitive arg => if isNil arg then .ok none else .error .mismatch
    | item => misfit item) (fun _ => .error .mismatch) item

/-- Reads a field into a reading. -/
def setField (r : Reading) (f : Reading.Field) (item : Item) : Except Error Reading :=
  match f with
  | .sensor => do return { r with sensor := (← textField item).getD r.sensor }
  | .value => do return { r with value := (← integerField item).getD r.value }
  | .tags => do return { r with tags := ← tagsField item }

/-! ## Keys -/

/-- A value that can be a key as it stands. -/
def Value.isHashable : Value → Bool
  | .bytes _ | .big _ | .list _ | .map _ => false
  | .tag _ content => content.isHashable
  | _ => true

/-- What a key of a map says. -/
inductive RecordKey where
  /-- A field, and the name by which a repetition of it is reported. -/
  | field (f : Reading.Field) (name : Bytes)
  /-- A key that names no field. -/
  | other (key : Value)
  /-- A key that is wrong, but is still compared with other keys. -/
  | wrong (e : Error) (key : Value)
  /-- A key that is wrong and cannot be compared. -/
  | unusable (e : Error)

/-- What a key with the given text says. -/
def textKey (name : Bytes) : RecordKey :=
  match Reading.Field.find? name with
  | some f => .field f f.key
  | none =>
      match Reading.Field.findFolded? name with
      | some f => .field f name
      | none => .other (.text name)

/-- What a key says. Integers name no field and are compared as signed words of 64 bits. -/
def recordKey (key : Item) : RecordKey :=
  match key with
  | .string .text _ _ | .chunked .text _ =>
      match key.textContents with
      | .ok name => textKey name
      | .error e => .unusable e
  | .unsigned arg => .other (.signed (signedWord arg.value))
  | .negative arg =>
      if arg.value < wordHalf then .other (.signed (-1 - arg.value))
      else .unusable (.fieldKeyRange arg.value)
  | key =>
      match key.interpret true with
      | .ok k =>
          if k.isHashable then .wrong (.fieldKeyType key.major) k
          else .unusable (.fieldKeyType key.major)
      | .error _ => .unusable (.fieldKeyType key.major)

/-! ## Records -/

/-- A reading under construction. -/
structure Draft where
  reading : Reading := .blank
  /-- The fields that have been read. -/
  found : List Reading.Field := []
  /-- The other keys, as a map under construction. -/
  others : Partial := {}

namespace Draft

/-- Goes on after an error. -/
def fail (d : Draft) (e : Error) : Draft := { d with others := d.others.fail e }

/-- Goes on after a pair without a field. -/
def pass (d : Draft) (key : Value) : Draft := { d with others := d.others.add key .nil }

/-- Goes on after a field. -/
def set (d : Draft) (f : Reading.Field) (result : Except Error Reading) : Draft :=
  let d := { d with found := f :: d.found }
  match result with
  | .ok r => { d with reading := r, others := { d.others with index := d.others.index + 1 } }
  | .error e => d.fail e

end Draft

/-- Adds the pairs of a map to a reading. -/
def readPairs : List (Item × Item) → Draft → Except Error Reading
  | [], d =>
      match d.others.error with
      | some e => .error e
      | none => .ok d.reading
  | (key, value) :: pairs, d =>
      let passKey (d : Draft) (k : Value) (index : Nat) : Except Error Draft :=
        if d.others.has k then .error (.duplicateKey k.literal index) else .ok (d.pass k)
      let next : Except Error Draft :=
        match recordKey key with
        | .field f name =>
            if d.found.contains f then
              .error (.duplicateKey (Value.text name).literal d.others.index)
            else .ok (d.set f (setField d.reading f value))
        | .other k => passKey d k d.others.index
        | .wrong e k =>
            let failed := { d.others with error := some (d.others.error.getD e) }
            passKey { d with others := failed } k d.others.index
        | .unusable e => .ok (d.fail e)
      match next with
      | .ok d => readPairs pairs d
      | .error e => .error e

/-- The reading that an item stands for; nil is a blank one. -/
def Item.reading (item : Item) : Except Error Reading :=
  untag (fun item =>
    match item with
    | .map _ pairs => readPairs pairs {}
    | .primitive arg => if isNil arg then .ok .blank else .error .mismatch
    | item => misfit item) (fun _ => .error .mismatch) item

/-- The reading at the front of an input, and how many bytes it takes. -/
def readingPrefix : PrefixReader Reading :=
  PrefixReader.ofRest fun bs => Except.mapError Error.toFailure do
    let (item, rest) ← (Item.read bs).mapError .syntactic
    return (← item.reading, rest)

/-! ## Writing -/

/-- A reading as a map. -/
def ofReading (r : Reading) : Value :=
  .map [(.text Reading.Field.sensor.key, .text r.sensor),
    (.text Reading.Field.value.key, .signed r.value),
    (.text Reading.Field.tags.key,
      match r.tags with
      | none => .nil
      | some tags => .list (tags.map .text))]

/-- The codec of readings in canonical CBOR. -/
def readingCodec : Codec Reading where
  decode := exact readingPrefix
  encode r := Emission.ofExcept (((ofReading r).encode .canonical).mapError Error.toFailure)

end RoundTrip.Cbor
