import RoundTrip.Bytes
import RoundTrip.Log.Entry

/-!
# Log records

A record is an entry as a logger takes it. Texts are byte strings and need not be UTF-8, and a field
may have a value of any kind: values of other kinds than the plain ones come with the ways in which
the loggers print them. What a logger does not print as a value at all, such as a function or a
group of attributes, is no value here.

Main definitions: `Plain`, `Value`, `Record`, `Entry.record`.
-/

set_option autoImplicit false

namespace RoundTrip.Log

/-- A value of a kind that the loggers know. -/
inductive Plain where
  | null
  | bool (b : Bool)
  | integer (n : Int)
  | text (bs : Bytes)
  | texts (bss : List Bytes)
  /-- A failure with nothing but a message. -/
  | failure (message : Bytes)
  deriving DecidableEq, Repr

/-- The text of a plain value. -/
def Plain.shown : Plain → Bytes
  | null => Bytes.ofString "<nil>"
  | bool b => Bytes.ofString (if b then "true" else "false")
  | integer n => Bytes.ofString (toString n)
  | text bs => bs
  | texts bss => Bytes.ofString "[" ++ (Bytes.ofString " ").intercalate bss ++ Bytes.ofString "]"
  | failure message => message

/-- How the loggers print a value of another kind. -/
structure Printed where
  /-- The members of an object that show the value: what stands behind the key in the name of each,
  and its text. A failure with causes or details of its own has one for them behind the one for its
  message, and a value that cannot be put into an object has one that says why. -/
  console : List (Bytes × Bytes)
  /-- The text of a pair, before it is quoted. -/
  pairs : Bytes
  /-- The text of an attribute, as it stands in a line. A value that is taken for nothing has
  none. -/
  attributes : Option Bytes
  /-- No value is left out of an object. -/
  console_ne_nil : console ≠ []
  deriving DecidableEq, Repr

/-- The value of a field. -/
inductive Value where
  | plain (p : Plain)
  | other (printed : Printed)
  deriving DecidableEq, Repr

/-- A key and its value. -/
abbrev Property := Bytes × Value

/-- One entry of a log. -/
structure Record where
  severity : Severity
  message : Bytes
  fields : List Property
  deriving DecidableEq, Repr

/-! ## Entries of runs -/

/-- The value of a field of an entry. -/
def Datum.plain : Datum → Plain
  | null => .null
  | bool b => .bool b
  | integer n => .integer n
  | text s => .text (Bytes.ofString s)
  | texts ss => .texts (ss.map Bytes.ofString)
  | failure message => .failure (Bytes.ofString message)

/-- An entry with the bytes of its texts. -/
def Entry.record (e : Entry) : Record where
  severity := e.severity
  message := Bytes.ofString e.message
  fields := e.fields.map fun f => (Bytes.ofString f.1, .plain f.2.plain)

end RoundTrip.Log
