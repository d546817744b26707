import RoundTrip.Bytes

/-!
# Readings

A reading is a record with three fields: the sensor, the value it gave, and tags. Every
self-describing format writes it under the same field names.

Main definition: `Reading`.
-/

set_option autoImplicit false

namespace RoundTrip

/-- One value of a sensor. -/
structure Reading where
  /-- The name of the sensor. -/
  sensor : Bytes
  /-- The value, a signed word of 64 bits. -/
  value : Int
  /-- The tags; having no tags is not the same as having an empty list of them. -/
  tags : Option (List Bytes)
  deriving DecidableEq, Repr, Inhabited

namespace Reading

/-- The reading with nothing filled in. -/
def blank : Reading := ⟨[], 0, none⟩

/-- The fields of a reading. -/
inductive Field where
  | sensor | value | tags
  deriving DecidableEq, Repr

namespace Field

/-- All fields in their order. -/
def all : List Field := [sensor, value, tags]

/-- The name of a field. -/
def name : Field → String
  | sensor => "sensor"
  | value => "value"
  | tags => "tags"

/-- The bytes of the name of a field. -/
def key (f : Field) : Bytes := Bytes.ofString f.name

/-- The field with exactly the given name. -/
def find? (key : Bytes) : Option Field := all.find? fun f => f.key == key

end Field

/-- An upper-case ASCII letter in lower case; every other byte as it is. -/
def lowerByte (b : UInt8) : UInt8 := if 0x41 ≤ b ∧ b ≤ 0x5a then b + 0x20 else b

/-- The field whose name is the given one up to the case of ASCII letters. -/
def Field.findFolded? (key : Bytes) : Option Field := find? (key.map lowerByte)

end Reading

end RoundTrip
