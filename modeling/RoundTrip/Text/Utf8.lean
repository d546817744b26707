import RoundTrip.Bytes

/-!
# UTF-8

A byte string is a row of glyphs: characters in well-formed UTF-8, and single bytes that
belong to no character. Surrogates, overlong forms and numbers above `10FFFF` are not
well-formed, so each of their bytes stands alone.

Main definitions: `glyphs`, `isValid`, `encode`, `text`.
-/

set_option autoImplicit false

namespace RoundTrip.Utf8

/-- A character of a byte string, or a byte that belongs to none. -/
inductive Glyph where
  | char (c : Char)
  | stray (b : UInt8)
  deriving DecidableEq, Repr

/-! ## Multi-byte characters -/

/-- Continuation bytes carry six bits each. -/
def isContinuation (b : UInt8) : Bool := decide (0x80 ≤ b ∧ b ≤ 0xbf)

/-- The six bits of a continuation byte. -/
def low (b : UInt8) : Nat := b.toNat % 64

/-- The character of two bytes. -/
def two? (a b : UInt8) : Option Char :=
  if 0xc2 ≤ a ∧ a ≤ 0xdf ∧ isContinuation b then
    some (Char.ofNat (a.toNat % 32 * 64 + low b))
  else none

/-- The character of three bytes. The second byte is bounded so that no shorter form
exists and surrogates are left out. -/
def three? (a b c : UInt8) : Option Char :=
  if 0xe0 ≤ a ∧ a ≤ 0xef ∧ isContinuation b ∧ isContinuation c
      ∧ (a = 0xe0 → 0xa0 ≤ b) ∧ (a = 0xed → b ≤ 0x9f) then
    some (Char.ofNat (a.toNat % 16 * 4096 + low b * 64 + low c))
  else none

/-- The character of four bytes. The second byte is bounded so that no shorter form exists
and the number is at most `10FFFF`. -/
def four? (a b c d : UInt8) : Option Char :=
  if 0xf0 ≤ a ∧ a ≤ 0xf4 ∧ isContinuation b ∧ isContinuation c ∧ isContinuation d
      ∧ (a = 0xf0 → 0x90 ≤ b) ∧ (a = 0xf4 → b ≤ 0x8f) then
    some (Char.ofNat (a.toNat % 8 * 262144 + low b * 4096 + low c * 64 + low d))
  else none

/-! ## Rows of glyphs -/

/-- The glyph at the front of `a :: bs` and the number of bytes of `bs` that it takes. -/
def front (a : UInt8) (bs : Bytes) : Glyph × Nat :=
  if a < 0x80 then (.char (Char.ofNat a.toNat), 0)
  else
    match bs with
    | [] => (.stray a, 0)
    | b :: bs =>
        match two? a b with
        | some ch => (.char ch, 1)
        | none =>
            match bs with
            | [] => (.stray a, 0)
            | c :: bs =>
                match three? a b c with
                | some ch => (.char ch, 2)
                | none =>
                    match bs with
                    | [] => (.stray a, 0)
                    | d :: _ =>
                        match four? a b c d with
                        | some ch => (.char ch, 3)
                        | none => (.stray a, 0)

/-- The glyphs of a byte string behind those already found (in reverse), where the next
`skip` bytes belong to the glyph found last. -/
def glyphsLoop : (skip : Nat) → List Glyph → Bytes → List Glyph
  | _, done, [] => done.reverse
  | 0, done, a :: bs => glyphsLoop (front a bs).2 ((front a bs).1 :: done) bs
  | skip + 1, done, _ :: bs => glyphsLoop skip done bs

/-- The glyphs of a byte string, in order. -/
def glyphs (bs : Bytes) : List Glyph := glyphsLoop 0 [] bs

/-- Characters, as opposed to stray bytes. -/
def Glyph.isChar : Glyph → Bool
  | char _ => true
  | stray _ => false

/-- Byte strings that are well-formed UTF-8 throughout. -/
def isValid (bs : Bytes) : Bool := (glyphs bs).all Glyph.isChar

/-- The bytes of a character. -/
def encode (c : Char) : Bytes := String.utf8EncodeChar c

/-- The bytes of a glyph. -/
def Glyph.bytes : Glyph → Bytes
  | char c => encode c
  | stray b => [b]

/-- The character that stands for what cannot be read. -/
def replacement : Char := Char.ofNat 0xfffd

/-- The character that is seen for a glyph. -/
def Glyph.seen : Glyph → Char
  | char c => c
  | stray _ => replacement

/-- The text that is seen for a byte string. -/
def text (bs : Bytes) : String := String.ofList ((glyphs bs).map Glyph.seen)

end RoundTrip.Utf8
