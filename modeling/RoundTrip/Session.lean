import RoundTrip.Store.Files

/-!
# Sessions

A program at work on files under a plan of faults, with a logger and an error stream. The steps are
taken one after the other: an entry is handed to the logger when it arises, an output is there from
its creation on and grows while it is written, what was opened is closed behind the entries that
were logged while it was open, and the diagnostics come last. The logger may write to the same
stream.

Main definitions: `Listener`, `World`, `perform`, `main`.
-/

set_option autoImplicit false

namespace RoundTrip.Session

open RoundTrip.Run RoundTrip.Store

/-! ## Loggers -/

/-- A logger that remembers a value of type `σ`: how it changes with an entry, and what is written
about the entry to the error stream. -/
structure Listener (σ : Type) where
  hear : σ → Log.Entry → σ × String

namespace Listener

/-- The logger that discards everything. -/
def deaf : Listener Unit := ⟨fun _ _ => ((), "")⟩

/-- The logger that remembers the entries and writes nothing. -/
def recording : Listener (List Log.Entry) := ⟨fun entries e => (entries ++ [e], "")⟩

/-- The logger that writes lines from its threshold on. -/
def writing (logger : Log.Logger) : Listener Unit := ⟨fun _ e => ((), logger.write e)⟩

/-- The logger of a configuration, which may have none. -/
def ofLogger? : Option Log.Logger → Listener Unit
  | none => deaf
  | some logger => writing logger

end Listener

/-! ## Worlds -/

/-- What a program can change. -/
structure World (σ : Type) where
  files : Files
  /-- The calls on the files so far. -/
  calls : List Call
  /-- What the logger remembers. -/
  memory : σ
  /-- What has been written to the error stream. -/
  stream : String

namespace World

variable {σ : Type}

/-- The world before a program starts. -/
def start (files : Files) (memory : σ) : World σ := ⟨files, [], memory, ""⟩

/-- The world after further calls. -/
def called (w : World σ) (calls : List Call) : World σ := { w with calls := w.calls ++ calls }

/-- The world after an entry. -/
def heard (l : Listener σ) (w : World σ) (e : Log.Entry) : World σ :=
  { w with memory := (l.hear w.memory e).1, stream := w.stream ++ (l.hear w.memory e).2 }

/-- The world after a text on the error stream. -/
def said (w : World σ) (text : String) : World σ := { w with stream := w.stream ++ text }

/-- The world with a file in place. -/
def stored (w : World σ) (path : String) (bs : Bytes) : World σ :=
  { w with files := w.files.insert path bs }

end World

/-! ## Steps -/

section Steps

variable {σ α : Type} (l : Listener σ) (faults : Faults)

/-- Hands an entry to the logger. -/
def log (e : Log.Entry) : StateM (World σ) Unit := modify fun w => w.heard l e

/-- Makes calls on the files. -/
def call (calls : List Call) : StateM (World σ) Unit := modify fun w => w.called calls

/-- Writes to the error stream. -/
def say (text : String) : StateM (World σ) Unit := modify fun w => w.said text

/-- Logs that a state has been reached. -/
def advance (state : State) (fields : List Log.Field) : StateM (World σ) Unit :=
  log l (reached state fields)

/-- Logs a failure at a site. -/
def fail (site : Site) (e : Failure) : StateM (World σ) Failure := do
  log l (failed site e)
  return .atSite site e

/-- Reads all of an opened input. -/
def readSource (path : String) (source : Source) : StateM (World σ) (Except Failure Bytes) :=
  match source.read with
  | .error e => Except.error <$> fail l (readSite path) e
  | .ok input => do
      advance l .inputRead [("bytes", .integer input.length)]
      return .ok input

/-- Opens the input, reads all of it and closes it. -/
def readInput (path : String) : StateM (World σ) (Except Failure Bytes) := do
  call [.openInput path]
  match ((← get).files.storage faults).openInput path with
  | .error e => return .error (← fail l (openSite path) e)
  | .ok source =>
      advance l .inputOpened []
      let answer ← readSource l path source
      call [.close path]
      return answer

/-- Brings what has happened to an output into the world: the writes since it was last looked at,
and its contents. -/
def deliver (path : String) (before after : Output) : StateM (World σ) Unit :=
  modify fun w =>
    (w.called (after.calls.drop before.calls.length)).stored path after.contents

/-- Flushes an output and looks at it for the last time. -/
def flushOutput (path : String) (b : Buffer) : StateM (World σ) (Option Failure) := do
  deliver path b.output b.flush.output
  match b.flush.failure with
  | some e => some <$> fail l (flushSite path) e
  | none =>
      call (settle b.flush.output.sink).1
      match (settle b.flush.output.sink).2 with
      | some e => some <$> fail l (flushSite path) e
      | none =>
          advance l .flushed [("bytes", .integer b.flush.output.size)]
          return none

/-- Hands an emission to an output, which stays open. -/
def fillOutput (o : Options) (path : String) (sink : Sink) (refused : Failure → Failure)
    (emission : Emission) : StateM (World σ) (Option Failure) := do
  let b := (Buffer.new o.bufferCapacity sink).emit emission.writes
  deliver path (.new sink) b.output
  match emission.failure.or (b.failure.map refused) with
  | some e => some <$> fail l (encodeSite path) e
  | none =>
      advance l .encoded []
      flushOutput l path b

/-- Creates the output, writes to it and closes it. A failure of the closing counts when there was
no other one before. -/
def writeOutput (o : Options) (path : String) (refused : Failure → Failure)
    (emission : Emission) : StateM (World σ) (Option Failure) := do
  call [.create path o.outputPermission]
  match ((← get).files.storage faults).create path with
  | .error e => some <$> fail l (createSite path) e
  | .ok sink =>
      modify fun w => w.stored path []
      advance l .outputCreated []
      let failure ← fillOutput l o path sink refused emission
      call [.close path]
      match failure, sink.closeFailure with
      | none, some e => some <$> fail l (closeSite path) e
      | failure, _ => return failure

/-- Writes the output, after which a run is complete. -/
def produce (o : Options) (path : String) (refused : Failure → Failure)
    (emission : Emission) : StateM (World σ) (Option Failure) := do
  match ← writeOutput l faults o path refused emission with
  | some e => return some e
  | none =>
      advance l .done []
      return none

/-! ## Programs -/

/-- Logs the arguments, after a warning when some of them are ignored. -/
def announce (a : Arguments) : StateM (World σ) Unit := do
  if !a.extra.isEmpty then
    log l (extraArguments a.extra)
  advance l .argsParsed [("input", .text a.input), ("output", .text a.output)]

/-- Reads the input, decodes it and writes the output. -/
def process (codec : Codec α) (o : Options) (a : Arguments) :
    StateM (World σ) (Option Failure) := do
  match ← readInput l faults a.input with
  | .error e => return some e
  | .ok input =>
      match codec.decode input with
      | .error e => some <$> fail l (decodeSite a.input) e
      | .ok value =>
          advance l .decoded []
          produce l faults o a.output codec.refused (codec.encode value)

/-- Takes the steps of a run. -/
def perform (codec : Option (Codec α)) (o : Options) (args : List String) :
    StateM (World σ) (Option Failure) :=
  match codec with
  | none => return some (.plain "unictest: codec is required")
  | some codec =>
      match Arguments.parse args with
      | .error e => some <$> fail l argumentSite e
      | .ok a => do
          announce l a
          process l faults codec o a

/-- Performs a run, says how it ended, and returns the status. -/
def main (codec : Option (Codec α)) (o : Options) (args : List String) :
    StateM (World σ) Nat := do
  let failure ← perform l faults codec o args
  say (diagnostics args failure)
  return exitStatus failure

end Steps

end RoundTrip.Session
