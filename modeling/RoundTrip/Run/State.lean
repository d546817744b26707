/-!
# States and kinds of a run

A run of the harness moves through a fixed row of states; a failure of a run has a
kind. Both travel as one byte, so a byte outside the named ones is a value too and
is shown by its number.

Main definitions: `State` and `State.name`, `Kind` and `Kind.name`, `Site` (where in
a run a failure arose).
-/

set_option autoImplicit false

namespace RoundTrip.Run

/-! ## States -/

/-- A state of a run: the last step that was completed. -/
structure State where
  /-- Position of the state in the row of states. -/
  code : UInt8
  deriving DecidableEq, Repr

namespace State

/-- Nothing has been done yet. -/
def start : State := ⟨0⟩

/-- Both paths are known. -/
def argsParsed : State := ⟨1⟩

/-- The input is open. -/
def inputOpened : State := ⟨2⟩

/-- The input has been read to its end. -/
def inputRead : State := ⟨3⟩

/-- The input has been decoded to a value. -/
def decoded : State := ⟨4⟩

/-- The output exists and is empty. -/
def outputCreated : State := ⟨5⟩

/-- The value has been handed to the output's buffer. -/
def encoded : State := ⟨6⟩

/-- Every byte has reached the output. -/
def flushed : State := ⟨7⟩

/-- The run is complete. -/
def done : State := ⟨8⟩

/-- The names of the states, in the order in which a run reaches them. -/
def names : List String :=
  ["start", "args_parsed", "input_opened", "input_read", "decoded", "output_created",
    "encoded", "flushed", "done"]

/-- The name of a state, or its number when it has none. -/
def name (s : State) : String :=
  match names[s.code.toNat]? with
  | some n => n
  | none => "state(" ++ toString s.code.toNat ++ ")"

end State

/-! ## Kinds of failure -/

/-- Why a run failed. -/
structure Kind where
  /-- Number of the kind. -/
  code : UInt8
  deriving DecidableEq, Repr

namespace Kind

/-- A path is missing on the command line. -/
def configuration : Kind := ⟨1⟩

/-- Storage refused a step. -/
def io : Kind := ⟨2⟩

/-- The codec refused the input. -/
def decode : Kind := ⟨3⟩

/-- The name of a kind, or its number when it has none. -/
def name (k : Kind) : String :=
  if k = configuration then "configuration"
  else if k = io then "io"
  else if k = decode then "decode"
  else "kind(" ++ toString k.code.toNat ++ ")"

end Kind

/-! ## Sites -/

/-- Where in a run a failure arose. -/
structure Site where
  /-- Class of the failure. -/
  kind : Kind
  /-- Last state reached before the failing step. -/
  state : State
  /-- What was being done, such as `open input file`. -/
  op : String
  /-- The file involved; empty for a failure of the arguments. -/
  path : String
  deriving DecidableEq, Repr

/-- A refused input is the expected outcome of feeding in invalid data; every other
failure means that the surroundings are broken. -/
def Site.recoverable (s : Site) : Bool := decide (s.kind = Kind.decode)

end RoundTrip.Run
