import RoundTrip.Config
import RoundTrip.Run.Buffer
import RoundTrip.Run.Report

/-!
# The run of a harness

A run reads a file, decodes it, and writes the decoded value to another file. Every step has its
state and its words; the first step that fails ends the run. The output is created after the input
has been decoded, so an input that is refused leaves the output as it was.

Main definitions: `Options`, `Arguments`, `run`, `diagnostics`, `transcript`.
-/

set_option autoImplicit false

namespace RoundTrip.Run

/-! ## Options and arguments -/

/-- How a run writes its output. -/
structure Options where
  /-- Permission bits of a created output; zero stands for the default. -/
  permission : Nat
  /-- Size of the output's buffer; a size that is not positive stands for the default. -/
  bufferSize : Int
  deriving DecidableEq, Repr

namespace Options

/-- The options of a run that is given none. -/
def default : Options := ⟨0, 0⟩

/-- The permission bits of a created output: those given, or read for all and write for the
owner. -/
def outputPermission (o : Options) : Nat := if o.permission = 0 then 0x1a4 else o.permission

/-- The size of the output's buffer: the one given, or 64 KiB. -/
def bufferCapacity (o : Options) : Nat := if o.bufferSize ≤ 0 then 65536 else o.bufferSize.toNat

end Options

/-- The two paths of a run and the arguments behind them. -/
structure Arguments where
  input : String
  output : String
  extra : List String
  deriving DecidableEq, Repr

/-- The arguments on a command line, which starts with the name of the program. -/
def Arguments.parse : List String → Except Failure Arguments
  | _ :: input :: rest =>
      if input.isEmpty then .error (.known .missingInput)
      else
        match rest with
        | output :: extra =>
            if output.isEmpty then .error (.known .missingOutput) else .ok ⟨input, output, extra⟩
        | [] => .error (.known .missingOutput)
  | _ => .error (.known .missingInput)

/-! ## Sites -/

/-- The site of a missing argument. -/
def argumentSite : Site := ⟨.configuration, .start, "parse arguments", ""⟩

/-- The site of opening the input. -/
def openSite (path : String) : Site := ⟨.io, .argsParsed, "open input file", path⟩

/-- The site of reading the input. -/
def readSite (path : String) : Site := ⟨.io, .inputOpened, "read input file", path⟩

/-- The site of decoding the input. -/
def decodeSite (path : String) : Site := ⟨.decode, .inputRead, "decode input file", path⟩

/-- The site of creating the output. -/
def createSite (path : String) : Site := ⟨.io, .decoded, "create output file", path⟩

/-- The site of encoding the value. -/
def encodeSite (path : String) : Site := ⟨.io, .outputCreated, "encode output file", path⟩

/-- The site of bringing the last bytes to the output. -/
def flushSite (path : String) : Site := ⟨.io, .encoded, "flush output file", path⟩

/-- The site of closing the output. -/
def closeSite (path : String) : Site := ⟨.io, .flushed, "close output file", path⟩

/-! ## Steps -/

/-- The last look at an output whose bytes are all stored: its status and, for a regular file, a
synchronisation. -/
def settle (sink : Sink) : List Call × Option Failure :=
  match sink.statusFailure with
  | some e => ([.status], some e)
  | none => if sink.regular then ([.status, .sync], sink.syncFailure) else ([.status], none)

/-- Closes an output to which everything has been written. -/
def finish (path : String) (sink : Sink) : Report :=
  match sink.closeFailure with
  | some e => .stop (closeSite path) e
  | none => .complete

/-- Flushes and closes an output into which a value has been encoded. The report has the output as
it is then. -/
def conclude (path : String) (b : Buffer) : Report × Output :=
  let b := b.flush
  let report : Report :=
    match b.failure with
    | some e => .stop (flushSite path) e
    | none =>
        match settle b.output.sink with
        | (calls, some e) => (Report.stop (flushSite path) e).called calls
        | (calls, none) =>
            ((finish path b.output.sink).after .flushed
              [("bytes", .integer b.output.size)]).called calls
  (report.after .encoded [], b.output)

/-- Writes an emission to a created output. The output is closed whatever happens before. -/
def writeOutput (o : Options) (path : String) (sink : Sink) (refused : Failure → Failure)
    (emission : Emission) : Report :=
  let b := (Buffer.new o.bufferCapacity sink).emit emission.writes
  let (report, output) :=
    match emission.failure.or (b.failure.map refused) with
    | some e => (Report.stop (encodeSite path) e, b.output)
    | none => conclude path b
  { (report.after .outputCreated []) with
    calls := output.calls ++ report.calls ++ [.close path]
    stored := some (path, output.contents) }

/-- Creates the output and writes an emission to it. -/
def createOutput (o : Options) (storage : Storage) (path : String) (refused : Failure → Failure)
    (emission : Emission) : Report :=
  let report :=
    match storage.create path with
    | .error e => Report.stop (createSite path) e
    | .ok sink => writeOutput o path sink refused emission
  report.called [.create path o.outputPermission]

/-- Decodes the input and goes on with the output. -/
def convert {α : Type} (codec : Codec α) (o : Options) (storage : Storage) (a : Arguments)
    (input : Bytes) : Report :=
  match codec.decode input with
  | .error e => .stop (decodeSite a.input) e
  | .ok value =>
      (createOutput o storage a.output codec.refused (codec.encode value)).after .decoded []

/-- Opens and reads the input and goes on with its contents. A failure to close the input does not
count, since nothing has been written to it. -/
def process {α : Type} (codec : Codec α) (o : Options) (storage : Storage) (a : Arguments) :
    Report :=
  match storage.openInput a.input with
  | .error e => (Report.stop (openSite a.input) e).called [.openInput a.input]
  | .ok source =>
      let report :=
        match source.read with
        | .error e => Report.stop (readSite a.input) e
        | .ok input =>
            (convert codec o storage a input).after .inputRead [("bytes", .integer input.length)]
      (report.after .inputOpened []).called [.openInput a.input, .close a.input]

/-- The run of a harness on a command line. A harness without a codec does nothing. -/
def run {α : Type} (codec : Option (Codec α)) (o : Options) (storage : Storage)
    (args : List String) : Report :=
  match codec with
  | none => ⟨some (.plain "unictest: codec is required"), [], [], none⟩
  | some codec =>
      match Arguments.parse args with
      | .error e => .stop argumentSite e
      | .ok a =>
          ((process codec o storage a).after .argsParsed
            [("input", .text a.input), ("output", .text a.output)]).logged
            (if a.extra.isEmpty then [] else [extraArguments a.extra])

/-! ## Diagnostics -/

/-- The last name of a path, without the slashes behind it. -/
def baseName (path : String) : String :=
  match path.toList.reverse.dropWhile (· == '/') with
  | [] => "/"
  | name => String.ofList (name.takeWhile (· != '/')).reverse

/-- The name of the program on a command line. -/
def programName : List String → String
  | [] => "unictest"
  | path :: _ => if path.isEmpty then "unictest" else baseName path

/-- The line that says how a program is called. -/
def usage (args : List String) : String :=
  "Usage: " ++ programName args ++ " <input-file> <output-file>\n"

/-- What a program says about the end of its run: nothing after success, else the failure, and how
it is called when an argument is missing. -/
def diagnostics (args : List String) : Option Failure → String
  | none => ""
  | some e =>
      e.message ++ "\n" ++
        if e.site?.any (·.kind == Kind.configuration) then usage args else ""

/-- The lines that a logger writes during a run. -/
def Report.logLines (r : Report) (logger : Option Log.Logger) : String :=
  match logger with
  | none => ""
  | some l => String.join (r.entries.map l.write)

/-- Everything that a program writes to its error stream: its log and the diagnostics. -/
def transcript (logger : Option Log.Logger) (args : List String) (r : Report) : String :=
  r.logLines logger ++ diagnostics args r.failure

end RoundTrip.Run
