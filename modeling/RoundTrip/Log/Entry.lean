/-!
# Log entries

An entry has a severity, a message and fields. The order of the fields does not matter: every
layout writes them in increasing order of their keys.

Main definitions: `Severity`, `Datum`, `Entry`.
-/

set_option autoImplicit false

namespace RoundTrip.Log

/-- How serious an entry is. -/
inductive Severity where
  | debug | info | warn | error
  deriving DecidableEq, Repr

namespace Severity

/-- The severities from the least to the most serious one. -/
def all : List Severity := [debug, info, warn, error]

/-- The word for a severity. -/
def word : Severity → String
  | debug => "debug"
  | info => "info"
  | warn => "warn"
  | error => "error"

/-- The place of a severity on the scale of thresholds. -/
def rank : Severity → Int
  | debug => -4
  | info => 0
  | warn => 4
  | error => 8

end Severity

/-- The value of a field. -/
inductive Datum where
  | null
  | bool (b : Bool)
  | integer (n : Int)
  | text (s : String)
  | texts (ss : List String)
  /-- A failure, by its message. -/
  | failure (message : String)
  deriving DecidableEq, Repr

/-- A field of an entry. -/
abbrev Field := String × Datum

/-- One entry of a log. -/
structure Entry where
  severity : Severity
  message : String
  fields : List Field
  deriving DecidableEq, Repr

end RoundTrip.Log
