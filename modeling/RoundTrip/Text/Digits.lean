/-!
# Numbers as digits

Numerals in the bases and widths that the texts of this library use.

Main definitions: `hexadecimal`, `octal`, `paddedHex`, `paddedDecimal`.
-/

set_option autoImplicit false

namespace RoundTrip.Text

/-- A number in base 16 with lower-case digits and no leading zero. -/
def hexadecimal (n : Nat) : String := String.ofList (Nat.toDigits 16 n)

/-- A number in base 8. -/
def octal (n : Nat) : String := String.ofList (Nat.toDigits 8 n)

/-- Digits with zeros before them up to the given width. -/
def pad (width : Nat) (digits : List Char) : List Char :=
  List.replicate (width - digits.length) '0' ++ digits

/-- A number in base 16 with at least `width` digits. -/
def paddedHex (width n : Nat) : String := String.ofList (pad width (Nat.toDigits 16 n))

/-- A number in base 10 with at least `width` digits. -/
def paddedDecimal (width n : Nat) : String := String.ofList (pad width (Nat.toDigits 10 n))

end RoundTrip.Text
