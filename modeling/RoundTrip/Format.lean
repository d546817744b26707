import RoundTrip.Cbor.Writer
import RoundTrip.Frame
import RoundTrip.Json.Writer
import RoundTrip.Msgpack.Reader
import RoundTrip.Protobuf.Writer
import RoundTrip.Run.Harness

/-!
# Formats

The formats that have a harness of their own. The name of a harness ends in the name of its
format.

Main definitions: `Format`, `Format.ofProgram?`, `Format.run`, `runProgram`.
-/

set_option autoImplicit false

namespace RoundTrip

/-- A format with a harness. -/
inductive Format where
  | frame | cbor | msgpack | json | protobuf
  deriving DecidableEq, Repr

namespace Format

/-- All formats. -/
def all : List Format := [frame, cbor, msgpack, json, protobuf]

/-- The name of a format. -/
def name : Format → String
  | frame => "frame"
  | cbor => "cbor"
  | msgpack => "msgpack"
  | json => "json"
  | protobuf => "proto"

/-- The format that the name of a program ends in, behind a hyphen. -/
def ofProgram? (program : String) : Option Format :=
  all.find? fun f => program.endsWith ("-" ++ f.name)

/-- The run of the harness of a format. CBOR is written with its keys in order. -/
def run (f : Format) (config : Config) (o : Run.Options) (storage : Run.Storage)
    (args : List String) : Run.Report :=
  match f with
  | frame => Run.run (some (config.apply Frame.codec)) o storage args
  | cbor => Run.run (some (config.apply (Cbor.codec .canonical))) o storage args
  | msgpack => Run.run (some (config.apply Msgpack.codec)) o storage args
  | json => Run.run (some (config.apply Json.codec)) o storage args
  | protobuf => Run.run (some (config.apply Protobuf.Struct.codec)) o storage args

end Format

/-- The run of the harness that a command line names by its program. -/
def runProgram (config : Config) (storage : Run.Storage) (args : List String) : Run.Report :=
  match Format.ofProgram? (Run.programName args) with
  | some f => f.run config .default storage args
  | none => Run.run (none : Option (Codec Unit)) .default storage args

end RoundTrip
