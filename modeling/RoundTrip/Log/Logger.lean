import RoundTrip.Log.Layout
import RoundTrip.Text.Words
import RoundTrip.Word

/-!
# Loggers

A logger writes the entries from a threshold on in its layout. Each layout has its own words
for thresholds; the layout of attributes also takes an offset behind the word.

Main definitions: `Logger`, `Logger.print`, `Logger.write`, `Logger.ofLevel`.
-/

set_option autoImplicit false

namespace RoundTrip.Log

/-- A log with a layout and a threshold. -/
structure Logger where
  layout : Layout
  /-- Entries of a lower rank are left out. -/
  threshold : Int
  deriving DecidableEq, Repr

namespace Logger

/-- The logger that writes entries from the given severity on. -/
def ofSeverity (layout : Layout) (s : Severity) : Logger := ⟨layout, s.rank⟩

/-- The bytes that a logger puts out for a record. -/
def print (l : Logger) (r : Record) : Bytes :=
  if l.threshold ≤ r.severity.rank then l.layout.line r else []

/-- What a logger writes for an entry. -/
def write (l : Logger) (e : Entry) : String := Utf8.text (l.print e.record)

end Logger

/-! ## Levels -/

/-- Thresholds above all entries. -/
def aboveAll : Int := 12

/-- Thresholds below all entries. -/
def belowAll : Int := -8

/-- The threshold of a word of the console layout. -/
def consoleThreshold? (level : String) : Option Int :=
  match Text.lowered level with
  | "" => some Severity.info.rank
  | "debug" => some Severity.debug.rank
  | "info" => some Severity.info.rank
  | "warn" => some Severity.warn.rank
  | "error" => some Severity.error.rank
  | "dpanic" | "panic" | "fatal" => some aboveAll
  | _ => none

/-- The threshold of a word of the layout of pairs. -/
def pairsThreshold? (level : String) : Option Int :=
  match Text.lowered level with
  | "trace" => some belowAll
  | "debug" => some Severity.debug.rank
  | "info" => some Severity.info.rank
  | "warn" | "warning" => some Severity.warn.rank
  | "error" => some Severity.error.rank
  | "panic" | "fatal" => some aboveAll
  | _ => none

/-- Why a level of the layout of attributes is none. -/
inductive LevelError where
  | unknownName
  /-- The offset is no number. -/
  | badOffset (offset : String) (e : Text.NumeralError)
  deriving DecidableEq, Repr

/-- The text of a level error. -/
def LevelError.message : LevelError → String
  | unknownName => "unknown name"
  | badOffset offset e =>
      "strconv.Atoi: parsing " ++ Text.quotedString offset ++ ": " ++ e.message

/-- The threshold of a name of the layout of attributes. -/
def attributesBase? (name : String) : Option Int :=
  match Text.raised name with
  | "DEBUG" => some Severity.debug.rank
  | "INFO" => some Severity.info.rank
  | "WARN" => some Severity.warn.rank
  | "ERROR" => some Severity.error.rank
  | _ => none

/-- The offset behind a name, with its sign; a name that stands alone has none. -/
def levelOffset (offset : String) : Except LevelError Int :=
  if offset.isEmpty then .ok 0 else (Text.integer offset).mapError (.badOffset offset)

/-- The threshold of a level of the layout of attributes: a name and an optional offset. -/
def attributesThreshold (level : String) : Except LevelError Int := do
  let isName (c : Char) : Bool := c != '+' && c != '-'
  let offset ← levelOffset (String.ofList (level.toList.dropWhile isName))
  match attributesBase? (String.ofList (level.toList.takeWhile isName)) with
  | some base => return signedWord (base + offset)
  | none => throw .unknownName

/-- The logger of a layout at a level, or the text that says why there is none. -/
def Logger.ofLevel (layout : Layout) (level : String) : Except String Logger :=
  match layout with
  | .console =>
      match consoleThreshold? level with
      | some t => .ok ⟨layout, t⟩
      | none => .error ("unrecognized level: " ++ Text.quotedString level)
  | .pairs =>
      match pairsThreshold? level with
      | some t => .ok ⟨layout, t⟩
      | none => .error ("not a valid logrus Level: " ++ Text.quotedString level)
  | .attributes =>
      match attributesThreshold level with
      | .ok t => .ok ⟨layout, t⟩
      | .error e =>
          .error ("slog: level string " ++ Text.quotedString level ++ ": " ++ e.message)

end RoundTrip.Log
