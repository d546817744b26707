import RoundTrip.Text.Digits
import RoundTrip.Word

/-!
# Words and numerals in settings

Settings are single words around which white space does not count, and decimal numerals with
an optional sign. Words are compared with ASCII words up to case, so of the case maps only the
images in ASCII matter: besides the ASCII letters two characters have one in each direction.

Main definitions: `trimmed`, `lowered`, `raised`, `integer`.
-/

set_option autoImplicit false

namespace RoundTrip.Text

/-! ## White space -/

/-- White space: the ASCII blanks, the next-line control, and the space separators. -/
def isBlank (c : Char) : Bool :=
  let n := c.toNat
  decide (0x09 ≤ n ∧ n ≤ 0x0d) || n == 0x20 || n == 0x85 || n == 0xa0 || n == 0x1680
    || decide (0x2000 ≤ n ∧ n ≤ 0x200a) || n == 0x2028 || n == 0x2029 || n == 0x202f
    || n == 0x205f || n == 0x3000

/-- Characters without the white space at their front. -/
def withoutBlanks (cs : List Char) : List Char := cs.dropWhile isBlank

/-- A text without the white space around it. -/
def trimmed (s : String) : String :=
  String.ofList (withoutBlanks (withoutBlanks s.toList).reverse).reverse

/-! ## Case -/

/-- The lower case of a character, where it is an ASCII letter. -/
def lowerChar (c : Char) : Char :=
  if c.toNat = 0x130 then 'i'
  else if c.toNat = 0x212a then 'k'
  else c.toLower

/-- The upper case of a character, where it is an ASCII letter. -/
def upperChar (c : Char) : Char :=
  if c.toNat = 0x131 then 'I'
  else if c.toNat = 0x17f then 'S'
  else c.toUpper

/-- A word in lower case, for comparison with ASCII words. -/
def lowered (s : String) : String := String.ofList (s.toList.map lowerChar)

/-- A word in upper case, for comparison with ASCII words. -/
def raised (s : String) : String := String.ofList (s.toList.map upperChar)

/-! ## Numerals -/

/-- Why a text is not a number. -/
inductive NumeralError where
  /-- It is not a sign and ASCII digits. -/
  | invalidSyntax
  /-- It is beyond a signed word of 64 bits. -/
  | outOfRange
  deriving DecidableEq, Repr

/-- The text of a numeral error. -/
def NumeralError.message : NumeralError → String
  | invalidSyntax => "invalid syntax"
  | outOfRange => "value out of range"

/-- The value of an ASCII digit. -/
def digitValue? (c : Char) : Option Nat :=
  if '0' ≤ c ∧ c ≤ '9' then some (c.toNat - '0'.toNat) else none

/-- The number that digits make up after those of `value`. -/
def digitsValue? (value : Nat) : List Char → Option Nat
  | [] => some value
  | c :: cs =>
      match digitValue? c with
      | some d => digitsValue? (10 * value + d) cs
      | none => none

/-- The number of one digit or more. -/
def natural? : List Char → Option Nat
  | [] => none
  | cs => digitsValue? 0 cs

/-- The sign of a numeral, and the rest of it. -/
def signed : List Char → Bool × List Char
  | '-' :: cs => (true, cs)
  | '+' :: cs => (false, cs)
  | cs => (false, cs)

/-- The number of a numeral with an optional sign, within a signed word of 64 bits. -/
def integer (s : String) : Except NumeralError Int :=
  let (negative, digits) := signed s.toList
  match natural? digits with
  | none => .error .invalidSyntax
  | some n =>
      if negative then if n ≤ wordHalf then .ok (-(n : Int)) else .error .outOfRange
      else if n < wordHalf then .ok n else .error .outOfRange

end RoundTrip.Text
