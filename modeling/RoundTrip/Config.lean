import RoundTrip.Codec
import RoundTrip.Log.Logger

/-!
# Configuration

A harness is configured by three texts: the level and the layout of its log, and the greatest
length of an input. A text that says nothing valid stands for the default: no log, the console
layout, no limit.

Main definitions: `Config.parse`, `Config.logger?`, `Config.apply`.
-/

set_option autoImplicit false

namespace RoundTrip

/-- The configuration of a harness. -/
structure Config where
  /-- The severity from which on entries are logged; without one nothing is. -/
  level : Option Log.Severity
  /-- The layout of log lines. -/
  layout : Log.Layout
  /-- The greatest length of an input; zero for no limit. -/
  maxInput : Nat
  deriving DecidableEq, Repr

namespace Config

/-- The word for a layout. -/
def layoutWord : Log.Layout → String
  | .console => "zap"
  | .pairs => "logrus"
  | .attributes => "slog"

/-- The word for the level of a log; no log has the empty word. -/
def levelWord (level : Option Log.Severity) : String := (level.map Log.Severity.word).getD ""

/-- The severity that a text names. -/
def parseLevel (s : String) : Option Log.Severity :=
  Log.Severity.all.find? fun l => l.word == Text.lowered (Text.trimmed s)

/-- The layout that a text names. -/
def parseLayout (s : String) : Log.Layout :=
  ([.console, .pairs, .attributes].find? fun l =>
    layoutWord l == Text.lowered (Text.trimmed s)).getD .console

/-- The limit that a text gives. -/
def parseMax (s : String) : Nat :=
  match Text.integer (Text.trimmed s) with
  | .ok n => n.toNat
  | .error _ => 0

/-- The configuration that three texts give. -/
def parse (level layout max : String) : Config :=
  ⟨parseLevel level, parseLayout layout, parseMax max⟩

/-- The logger of a configuration: none without a level, and none when its layout has no such
level. -/
def logger? (c : Config) : Option Log.Logger :=
  if (levelWord c.level).isEmpty then none
  else (Log.Logger.ofLevel c.layout (levelWord c.level)).toOption

/-- A configuration limits the length of inputs. -/
def isLimited (c : Config) : Bool := decide (0 < c.maxInput)

/-- A codec under the limit of a configuration. -/
def apply {α : Type} (c : Config) (codec : Codec α) : Codec α :=
  if c.isLimited then codec.limit c.maxInput else codec

end Config

end RoundTrip
