import RoundTrip.Entries
import RoundTrip.Log.Record
import RoundTrip.Text.Quoted

/-!
# Log lines

Three layouts turn a record into a line.

- `console`: severity, message and an object of the fields, between tabs. A byte that belongs to no
  character is shown as the replacement character.
- `pairs`: `level`, `msg` and the fields as pairs. A value is quoted when it has a character
  outside a small set; a field with the name of a fixed part gets another name.
- `attributes`: the same with upper-case severities. Keys and values are quoted when they are
  empty or hold a space, `=`, a quote or something that cannot be printed; a field named
  `time` is left out.

Fields are in increasing order of their keys. Main definition: `Layout.line`.
-/

set_option autoImplicit false

namespace RoundTrip.Log

/-- The layout of log lines. -/
inductive Layout where
  | console | pairs | attributes
  deriving DecidableEq, Repr

/-! ## Console lines -/

/-- A glyph inside a string of an object. -/
def consoleGlyph : Utf8.Glyph → String
  | .stray _ => "\\ufffd"
  | .char c =>
      if c = '"' ∨ c = '\\' then String.ofList ['\\', c]
      else if c = '\n' then "\\n"
      else if c = '\r' then "\\r"
      else if c = '\t' then "\\t"
      else if c.toNat < 0x20 then "\\u" ++ Text.paddedHex 4 c.toNat
      else String.singleton c

/-- A string of an object. -/
def consoleString (bs : Bytes) : String :=
  (Utf8.glyphs bs).foldl (fun out g => out ++ consoleGlyph g) "\"" ++ "\""

/-- A plain value in an object. -/
def consolePlain : Plain → String
  | .null => "null"
  | .bool b => if b then "true" else "false"
  | .integer n => toString n
  | .text bs => consoleString bs
  | .failure message => consoleString message
  | .texts bss => "[" ++ ", ".intercalate (bss.map consoleString) ++ "]"

/-- The members of an object that show a value: what stands behind the key in the name of each, and
its text. -/
def consoleMembers : Value → List (Bytes × Bytes)
  | .plain p => [([], Bytes.ofString (consolePlain p))]
  | .other printed => printed.console

/-- The members of an object that show a field: their names and texts. -/
def consoleField (f : Property) : List (Bytes × Bytes) :=
  (consoleMembers f.2).map fun m => (f.1 ++ m.1, m.2)

/-- A member of an object. -/
def consoleMember (name text : Bytes) : Bytes :=
  Bytes.ofString (consoleString name) ++ Bytes.ofString ": " ++ text

/-- The severity at the front of a line. -/
def upperWord : Severity → String
  | .debug => "DEBUG"
  | .info => "INFO"
  | .warn => "WARN"
  | .error => "ERROR"

/-- A line of the console layout. -/
def consoleLine (r : Record) : Bytes :=
  let members := (Entries.sort r.fields).flatMap consoleField
  Bytes.ofString (upperWord r.severity ++ "\t") ++ r.message
    ++ (if members.isEmpty then []
        else Bytes.ofString "\t\x7b"
          ++ (Bytes.ofString ", ").intercalate (members.map fun m => consoleMember m.1 m.2)
          ++ Bytes.ofString "\x7d")
    ++ Bytes.ofString "\n"

/-! ## Pairs -/

/-- Glyphs that a value can hold without quotes. -/
def isBare : Utf8.Glyph → Bool
  | .stray _ => false
  | .char c => c.isAlphanum || c == '-' || c == '.' || c == '_' || c == '/' || c == '@' || c == '^'
      || c == '+'

/-- A value of a pair. -/
def pairValue (bs : Bytes) : Bytes :=
  if (Utf8.glyphs bs).all isBare then bs else Bytes.ofString (Text.quoted bs)

/-- A key and a value. -/
def pair (key value : Bytes) : Bytes := key ++ Bytes.ofString "=" ++ pairValue value

/-- The text of a value, before it is quoted. -/
def Value.shown : Value → Bytes
  | plain p => p.shown
  | other printed => printed.pairs

/-- The names of the fixed parts of a line. -/
def fixedNames : List Bytes := ["time", "msg", "level", "logrus_error"].map Bytes.ofString

/-- Gives a field with the given name another one, in which it replaces a field that has it. -/
def rename (fields : List Property) (name : Bytes) : List Property :=
  match fields.find? fun f => f.1 == name with
  | none => fields
  | some (_, v) =>
      let renamed := Bytes.ofString "fields." ++ name
      (renamed, v) :: fields.filter fun f => f.1 != name && f.1 != renamed

/-- The severity in a pair. -/
def pairWord : Severity → String
  | .debug => "debug"
  | .info => "info"
  | .warn => "warning"
  | .error => "error"

/-- A line of the layout of pairs. -/
def pairsLine (r : Record) : Bytes :=
  let level := pair (Bytes.ofString "level") (Bytes.ofString (pairWord r.severity))
  let message := if r.message.isEmpty then [] else [pair (Bytes.ofString "msg") r.message]
  let fields := (Entries.sort (fixedNames.foldl rename r.fields)).map fun f => pair f.1 f.2.shown
  (Bytes.ofString " ").intercalate (level :: message ++ fields) ++ Bytes.ofString "\n"

/-! ## Attributes -/

/-- Glyphs for which a text of an attribute is quoted. -/
def needsQuotes : Utf8.Glyph → Bool
  | .stray _ => true
  | .char c =>
      if c.toNat < 0x80 then c.toNat < 0x20 || c == ' ' || c == '=' || c == '"'
      else c == Utf8.replacement || !Text.isPrintable c

/-- A key or a text of an attribute. -/
def attributeText (bs : Bytes) : Bytes :=
  if bs.isEmpty || (Utf8.glyphs bs).any needsQuotes then Bytes.ofString (Text.quoted bs) else bs

/-- A value of an attribute. -/
def attributeValue : Value → Bytes
  | .plain p => attributeText p.shown
  | .other printed => printed.attributes.getD (attributeText Plain.null.shown)

/-- Values that are taken for nothing. -/
def Value.isNothing : Value → Bool
  | plain p => decide (p = .null)
  | other printed => printed.attributes.isNone

/-- A key and the text of its value. -/
def attributePair (key text : Bytes) : Bytes := attributeText key ++ Bytes.ofString "=" ++ text

/-- The name that the time of an entry would have. -/
def timeName : Bytes := Bytes.ofString "time"

/-- Fields that make no attribute: those of the name that the time of an entry would have, and
one with neither a key nor a value. -/
def isDropped (f : Property) : Bool := f.1 == timeName || (f.1.isEmpty && f.2.isNothing)

/-- A line of the layout of attributes. -/
def attributesLine (r : Record) : Bytes :=
  let level := attributePair (Bytes.ofString "level") (Bytes.ofString (upperWord r.severity))
  let message := attributePair (Bytes.ofString "msg") (attributeText r.message)
  let fields := (Entries.sort (r.fields.filter fun f => !isDropped f)).map fun f =>
    attributePair f.1 (attributeValue f.2)
  (Bytes.ofString " ").intercalate (level :: message :: fields) ++ Bytes.ofString "\n"

/-! ## Lines -/

/-- The line of a record. -/
def Layout.line : Layout → Record → Bytes
  | console => consoleLine
  | pairs => pairsLine
  | attributes => attributesLine

end RoundTrip.Log
