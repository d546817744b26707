import RoundTrip.Json.Reader
import RoundTrip.Text.Digits

/-!
# Writing JSON

Documents are written without white space, with the keys of every object in increasing order
of the text they read back as. Characters that are markup in other places (`<`, `>`, `&` and
the two line separators) are escaped, and a byte that is no UTF-8 is written as the escape of
the replacement character.

Main definitions: `Value.encode`, `codec`.
-/

set_option autoImplicit false

namespace RoundTrip.Json

/-! ## Strings -/

/-- An escape by the number of a character. -/
def numberEscape (n : Nat) : Bytes := Bytes.ofString ("\\u" ++ Text.paddedHex 4 n)

/-- A character inside a string. -/
def charBytes (c : Char) : Bytes :=
  if c = '"' ∨ c = '\\' then 0x5c :: Utf8.encode c
  else if c = '\n' then [0x5c, 0x6e]
  else if c = '\r' then [0x5c, 0x72]
  else if c = '\t' then [0x5c, 0x74]
  else if c.toNat < 0x20 ∨ c = '<' ∨ c = '>' ∨ c = '&' ∨ c.toNat = 0x2028 ∨ c.toNat = 0x2029 then
    numberEscape c.toNat
  else Utf8.encode c

/-- A glyph inside a string. -/
def glyphBytes : Utf8.Glyph → Bytes
  | .char c => charBytes c
  | .stray _ => numberEscape Utf8.replacement.toNat

/-- A string between quotes. -/
def quote (bs : Bytes) : Bytes := 0x22 :: ((Utf8.glyphs bs).flatMap glyphBytes ++ [0x22])

/-- What a string is when it has been written and read back: every byte that is no UTF-8 is
the replacement character. -/
def repaired (bs : Bytes) : Bytes :=
  (Utf8.glyphs bs).flatMap fun g =>
    match g with
    | .char c => Utf8.encode c
    | .stray _ => Utf8.encode Utf8.replacement

/-! ## Values -/

/-- Pieces with commas between them, before the rest of a document. -/
def separated : List Bytes → Bytes → Bytes
  | [], rest => rest
  | piece :: pieces, rest => piece ++ pieces.foldr (fun p out => 0x2c :: (p ++ out)) rest

/-- The members of an object with their written values, in the order of their keys. -/
def memberBytes (es : List (Bytes × Bytes)) : List Bytes :=
  (Entries.sort (es.map fun e => (repaired e.1, quote e.1 ++ 0x3a :: e.2))).map (·.2)

mutual

/-- The bytes of a value. -/
def Value.encode : Value → Except Error Bytes
  | .null => .ok (Bytes.ofString "null")
  | .bool b => .ok (Bytes.ofString (if b then "true" else "false"))
  | .number bits => numeralText Binary.double bits.toNat
  | .number32 bits => numeralText Binary.single bits.toNat
  | .integer n => .ok (Bytes.ofString (toString n))
  | .string bs => .ok (quote bs)
  | .array vs => do return 0x5b :: separated (← encodeAll vs []) [0x5d]
  | .object es => do return 0x7b :: separated (memberBytes (← encodeMembers es [])) [0x7d]

/-- The bytes of each value of a list, behind those already written (in reverse). -/
def encodeAll : List Value → List Bytes → Except Error (List Bytes)
  | [], done => .ok done.reverse
  | v :: vs, done =>
      match v.encode with
      | .ok bs => encodeAll vs (bs :: done)
      | .error e => .error e

/-- The keys of members and the bytes of their values, behind those already written (in
reverse). -/
def encodeMembers : List (Bytes × Value) → List (Bytes × Bytes) →
    Except Error (List (Bytes × Bytes))
  | [], done => .ok done.reverse
  | (key, v) :: es, done =>
      match v.encode with
      | .ok bs => encodeMembers es ((key, bs) :: done)
      | .error e => .error e

end

/-- The codec of JSON documents. -/
def codec : Codec Value where
  decode := decode fun size => valueStep size maxLevels
  encode v := Emission.ofExcept (v.encode.mapError Error.toFailure)
  refused := Failure.summarized errorText

end RoundTrip.Json
