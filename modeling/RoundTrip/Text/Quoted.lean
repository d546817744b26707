import RoundTrip.Text.Digits
import RoundTrip.Text.Printable
import RoundTrip.Text.Utf8

/-!
# Quoted text

A byte string between double quotes. Printable characters stand as they are; quotes,
backslashes and the seven control characters with letters of their own are escaped by a
backslash; everything else is shown by its number.

Main definition: `quoted`.
-/

set_option autoImplicit false

namespace RoundTrip.Text

/-- The letter after a backslash that stands for a control character. -/
def escapeLetter? (c : Char) : Option Char :=
  match c.toNat with
  | 7 => some 'a'
  | 8 => some 'b'
  | 9 => some 't'
  | 10 => some 'n'
  | 11 => some 'v'
  | 12 => some 'f'
  | 13 => some 'r'
  | _ => none

/-- A character by its number, in the shortest of the three escapes. -/
def numericEscape (n : Nat) : String :=
  if n < 0x80 then "\\x" ++ paddedHex 2 n
  else if n < 0x10000 then "\\u" ++ paddedHex 4 n
  else "\\U" ++ paddedHex 8 n

/-- A glyph inside quotes. -/
def quotedGlyph : Utf8.Glyph → String
  | .stray b => "\\x" ++ paddedHex 2 b.toNat
  | .char c =>
      if c = '"' ∨ c = '\\' then String.ofList ['\\', c]
      else if isPrintable c then String.singleton c
      else
        match escapeLetter? c with
        | some letter => String.ofList ['\\', letter]
        | none => numericEscape c.toNat

/-- A byte string between double quotes. -/
def quoted (bs : Bytes) : String :=
  (Utf8.glyphs bs).foldl (fun s g => s ++ quotedGlyph g) "\"" ++ "\""

/-- A text between double quotes. -/
def quotedString (s : String) : String := quoted (Bytes.ofString s)

end RoundTrip.Text
