import RoundTrip.Bytes
import RoundTrip.Failure
import RoundTrip.Text.Digits

/-!
# Storage as a run sees it

A run opens one input and creates one output. What it meets there is data: an opened input is
its contents and the failures of reading and closing it; a created output is a rule that says how
much of each offered block it takes. A run reads its whole input before it creates its output, so
both answers can be taken from the storage as it was at the start.

Main definitions: `Source`, `Sink`, `Sink.take`, `Storage`, `Call`.
-/

set_option autoImplicit false

namespace RoundTrip.Run

/-! ## Inputs -/

/-- An opened input. -/
structure Source where
  /-- What can be read. -/
  contents : Bytes
  /-- The failure behind the last byte that can be read, if there is one. -/
  failure : Option Failure
  /-- The failure of closing the input. A run does not look at it. -/
  closeFailure : Option Failure := none
  deriving DecidableEq, Repr

/-- All of an input, or the failure that reading it meets. -/
def Source.read (s : Source) : Except Failure Bytes :=
  match s.failure with
  | none => .ok s.contents
  | some e => .error e

/-! ## Outputs -/

/-- A created output. -/
structure Sink where
  /-- The greatest number of bytes that are stored in all, and the failure of the write that
  goes beyond it. -/
  capacity : Option (Nat × Failure)
  /-- The greatest number of bytes that one write stores. A write of more bytes stores that many
  and does not fail. -/
  atOnce : Option Nat
  /-- The output is a regular file, which is synchronised after the last write. -/
  regular : Bool
  /-- The failure of a look at the output's status. -/
  statusFailure : Option Failure
  /-- The failure of synchronising the output. -/
  syncFailure : Option Failure
  /-- The failure of closing the output. -/
  closeFailure : Option Failure
  deriving DecidableEq, Repr

namespace Sink

/-- A regular file that takes everything. -/
def ideal : Sink := ⟨none, none, true, none, none, none⟩

/-- How many bytes of a write of `offered` bytes the output would store if there were room. -/
def wanted (s : Sink) (offered : Nat) : Nat :=
  match s.atOnce with
  | some n => min n offered
  | none => offered

/-- How many bytes of a write of `offered` bytes are stored when `size` bytes are stored
already, and the failure of the write. -/
def take (s : Sink) (size offered : Nat) : Nat × Option Failure :=
  match s.capacity with
  | none => (s.wanted offered, none)
  | some (capacity, e) =>
      if size + s.wanted offered ≤ capacity then (s.wanted offered, none)
      else (capacity - size, some e)

theorem wanted_le (s : Sink) (offered : Nat) : s.wanted offered ≤ offered := by
  unfold wanted
  split <;> omega

/-- A write stores no more than it is offered. -/
theorem take_le (s : Sink) (size offered : Nat) : (s.take size offered).1 ≤ offered := by
  have le := s.wanted_le offered
  unfold take
  split
  · exact le
  · split
    · exact le
    · dsimp only
      omega

end Sink

/-! ## Storage -/

/-- What opening and creating files meets. -/
structure Storage where
  /-- Opens a file for reading. -/
  openInput : String → Except Failure Source
  /-- Creates a file or empties an existing one. -/
  create : String → Except Failure Sink

/-! ## Calls -/

/-- A call that a run makes on its storage. -/
inductive Call where
  | openInput (path : String)
  | close (path : String)
  /-- Creation of the output with the given permission bits. -/
  | create (path : String) (permission : Nat)
  /-- A write that offers the given number of bytes. -/
  | write (offered : Nat)
  | status
  | sync
  deriving DecidableEq, Repr

/-- The text of a call. -/
def Call.text : Call → String
  | openInput path => "open " ++ path
  | close path => "close " ++ path
  | create path permission =>
      "openfile " ++ path ++ " wronly|create|trunc " ++ Text.octal permission
  | write offered => "write " ++ toString offered
  | status => "stat"
  | sync => "sync"

end RoundTrip.Run
