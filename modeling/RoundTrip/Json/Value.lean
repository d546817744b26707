import RoundTrip.Codec

/-!
# JSON values

Strings and keys are byte strings, because a document may hold bytes that are not UTF-8.

Main definitions: `Value`, `Error`.
-/

set_option autoImplicit false

namespace RoundTrip.Json

/-- A JSON value. Reading gives numbers of 64 bits only. -/
inductive Value where
  | null
  | bool (b : Bool)
  /-- A binary number of 64 bits. -/
  | number (bits : UInt64)
  /-- A binary number of 32 bits. -/
  | number32 (bits : UInt32)
  | integer (n : Int)
  | string (bs : Bytes)
  | array (vs : List Value)
  | object (entries : List (Bytes × Value))
  deriving Repr, Inhabited

/-- Why a document cannot be read, or a value not be written. -/
inductive Error where
  /-- The document breaks the grammar. -/
  | malformed
  /-- A number is too large for its place. -/
  | outOfRange
  /-- A number that JSON has no numeral for. -/
  | notFinite
  deriving DecidableEq, Repr

/-- The text of every failure that has to do with JSON as such. -/
def errorText : String := "json error"

/-- An error as the failure of a read or write. -/
def Error.toFailure (_ : Error) : Failure := .plain errorText

/-- The bytes that may stand between the parts of a document. -/
def isSpace (b : UInt8) : Bool := b == 0x20 || b == 0x09 || b == 0x0a || b == 0x0d

end RoundTrip.Json
