import RoundTrip.Protobuf.Message

/-!
# Writing messages

Known fields come first, in the order of their numbers, then those that were kept unread.
The entries of a struct are in increasing order of their names and always have both a name
and a value.

A message has many encodings; a codec accepts only inputs that are as long as the encoding
that it would write, and have no unknown fields in the outermost message.

Main definitions: `Struct.encode`, `Struct.codec`, `Text.codec`.
-/

set_option autoImplicit false

namespace RoundTrip.Protobuf

/-! ## Bytes of messages -/

/-- The entry of a struct whose value has been written already. -/
def entryBytes (e : Bytes × Bytes) : Bytes :=
  lengthPrefixed 1 (lengthPrefixed 1 e.1 ++ lengthPrefixed 2 e.2)

mutual

/-- The bytes of a value. -/
def Value.encode : Value → Bytes
  | .mk kind unknown => kind.encode ++ unknown

/-- The bytes of the field that says what a value is. -/
def Kind.encode : Kind → Bytes
  | .unset => []
  | .null n => tag 1 0 ++ varintBytes (unsignedWord n)
  | .number bits => tag 2 1 ++ Bytes.littleEndian 8 bits.toNat
  | .text bs => lengthPrefixed 3 bs
  | .bool b => tag 4 0 ++ [if b then 1 else 0]
  | .struct fields unknown =>
      lengthPrefixed 5
        ((Entries.sort (encodeFields fields [])).flatMap entryBytes ++ unknown)
  | .list values unknown =>
      lengthPrefixed 6 ((encodeValues values []).flatMap (lengthPrefixed 1) ++ unknown)

/-- The names of fields with the bytes of their values, behind those already written (in
reverse). -/
def encodeFields : List (Bytes × Value) → List (Bytes × Bytes) → List (Bytes × Bytes)
  | [], done => done.reverse
  | (name, v) :: fields, done => encodeFields fields ((name, v.encode) :: done)

/-- The bytes of each value of a list, behind those already written (in reverse). -/
def encodeValues : List Value → List Bytes → List Bytes
  | [], done => done.reverse
  | v :: vs, done => encodeValues vs (v.encode :: done)

end

/-- The bytes of a struct. -/
def Struct.encode (s : Struct) : Bytes :=
  (Entries.sort (encodeFields s.fields [])).flatMap entryBytes ++ s.unknown

/-- The bytes of a text; an empty one is left out. -/
def Text.encode (t : Text) : Bytes :=
  (if t.value.isEmpty then [] else lengthPrefixed 1 t.value) ++ t.unknown

/-! ## Texts in messages -/

mutual

/-- All texts inside a value are UTF-8. -/
def Value.isUtf8 : Value → Bool
  | .mk kind _ => kind.isUtf8

/-- All texts inside the kind of a value are UTF-8. -/
def Kind.isUtf8 : Kind → Bool
  | .text bs => Utf8.isValid bs
  | .struct fields _ => fieldsAreUtf8 fields
  | .list values _ => valuesAreUtf8 values
  | _ => true

/-- All names and texts inside fields are UTF-8. -/
def fieldsAreUtf8 : List (Bytes × Value) → Bool
  | [] => true
  | (name, v) :: fields => Utf8.isValid name && v.isUtf8 && fieldsAreUtf8 fields

/-- All texts inside values are UTF-8. -/
def valuesAreUtf8 : List Value → Bool
  | [] => true
  | v :: vs => v.isUtf8 && valuesAreUtf8 vs

end

/-! ## Codecs -/

/-- Accepts a message whose input had the given length: no fields are unknown, and the
encoding is as long as the input. -/
def accept {α : Type} (unknown encoding : α → Bytes) (length : Nat) (m : α) :
    Except Failure α :=
  if 0 < (unknown m).length then
    .error (.detailed .unknownFields (toString (unknown m).length ++ " byte(s)"))
  else if (encoding m).length ≠ length then
    .error (.detailed .nonCanonical ("message encodes to " ++ toString (encoding m).length
      ++ " bytes, input has " ++ toString length))
  else .ok m

/-- The codec of structs. -/
def Struct.codec : Codec Struct where
  decode bs := do
    let m ← (Struct.read bs).mapError Error.toFailure
    accept Struct.unknown Struct.encode bs.length m
  encode s :=
    if fieldsAreUtf8 s.fields then Emission.once s.encode
    else Emission.fail Error.invalidUtf8.toFailure
  refused := Failure.summarized errorText

/-- The codec of texts. -/
def Text.codec : Codec Text where
  decode bs := do
    let m ← (Text.read bs).mapError Error.toFailure
    accept Text.unknown Text.encode bs.length m
  encode t :=
    if Utf8.isValid t.value then Emission.once t.encode
    else Emission.fail Error.invalidUtf8.toFailure
  refused := Failure.summarized errorText

end RoundTrip.Protobuf
