/-!
# Binary floating point

A binary format packs a sign, an exponent and a fraction into one number. This module
unpacks such numbers exactly, rounds fractions of naturals to a format (to nearest, ties
to even), and tells whether a number fits a format without loss.

Main definitions: `Format.unpack`, `Format.roundRatio`, `Format.pack`, `Format.exact?`.
-/

set_option autoImplicit false

namespace RoundTrip.Binary

/-- A binary interchange format. -/
structure Format where
  /-- Width of the exponent field. -/
  exponentBits : Nat
  /-- Width of the fraction field. -/
  fractionBits : Nat
  deriving DecidableEq, Repr

/-- The format of 16 bits. -/
def half : Format := ⟨5, 10⟩

/-- The format of 32 bits. -/
def single : Format := ⟨8, 23⟩

/-- The format of 64 bits. -/
def double : Format := ⟨11, 52⟩

/-- What a pattern of bits stands for. -/
inductive Number where
  | nan
  | infinite (negative : Bool)
  /-- The number `coefficient * 2 ^ exponent`, with its sign. -/
  | finite (negative : Bool) (coefficient : Nat) (exponent : Int)
  deriving DecidableEq, Repr

/-- The quotient of two naturals rounded to the nearest one, a tie to the even one. -/
def roundDiv (num den : Nat) : Nat :=
  let q := num / den
  let r := num % den
  if 2 * r < den ∨ (2 * r = den ∧ q % 2 = 0) then q else q + 1

/-- The exponent `e` with `2 ^ e ≤ num / den < 2 ^ (e + 1)`, for positive arguments. -/
def ratioLog2 (num den : Nat) : Int :=
  let a := num.log2
  let b := den.log2
  let reached := if b ≤ a then den * Nat.pow 2 (a - b) ≤ num else den ≤ num * Nat.pow 2 (b - a)
  if reached then (a : Int) - b else (a : Int) - b - 1

namespace Format

variable (f : Format)

/-- The weight of the last bit of the smallest numbers. -/
def minExponent : Int := 2 - Nat.pow 2 (f.exponentBits - 1) - f.fractionBits

/-- The pattern of positive infinity, which is also the least pattern that is not finite. -/
def infinityBits : Nat := (Nat.pow 2 f.exponentBits - 1) * Nat.pow 2 f.fractionBits

/-- The sign bit of a pattern. -/
def signBits (negative : Bool) : Nat :=
  if negative then Nat.pow 2 (f.exponentBits + f.fractionBits) else 0

/-- The number that a pattern stands for. -/
def unpack (bits : Nat) : Number :=
  let negative := bits / Nat.pow 2 (f.exponentBits + f.fractionBits) % 2 == 1
  let exponent := bits / Nat.pow 2 f.fractionBits % Nat.pow 2 f.exponentBits
  let fraction := bits % Nat.pow 2 f.fractionBits
  if exponent = Nat.pow 2 f.exponentBits - 1 then
    if fraction = 0 then .infinite negative else .nan
  else if exponent = 0 then .finite negative fraction f.minExponent
  else .finite negative (Nat.pow 2 f.fractionBits + fraction) (f.minExponent + (exponent - 1 : Nat))

/-- The pattern of the number nearest to `num / den`, a tie to the even pattern, and
infinity when the quotient is beyond the largest number. -/
def roundRatio (num den : Nat) : Nat :=
  if num = 0 then 0
  else
    -- the last bit has weight `minExponent + raise`, so that the coefficient fits the fraction
    let raise := (ratioLog2 num den - f.fractionBits - f.minExponent).toNat
    let exponent := f.minExponent + raise
    let coefficient :=
      if 0 ≤ exponent then roundDiv num (den * Nat.pow 2 exponent.toNat)
      else roundDiv (num * Nat.pow 2 (-exponent).toNat) den
    min (raise * Nat.pow 2 f.fractionBits + coefficient) f.infinityBits

/-- The pattern of `coefficient * 2 ^ exponent`, rounded. -/
def roundScaled (coefficient : Nat) (exponent : Int) : Nat :=
  if 0 ≤ exponent then f.roundRatio (coefficient * Nat.pow 2 exponent.toNat) 1
  else f.roundRatio coefficient (Nat.pow 2 (-exponent).toNat)

/-- The pattern of a number, rounded. -/
def pack : Number → Nat
  | .nan => f.infinityBits + Nat.pow 2 (f.fractionBits - 1)
  | .infinite negative => f.signBits negative + f.infinityBits
  | .finite negative coefficient exponent =>
      f.signBits negative + f.roundScaled coefficient exponent

end Format

/-- Equality of `c * 2 ^ q` and `c' * 2 ^ q'`. -/
def sameScaled (c : Nat) (q : Int) (c' : Nat) (q' : Int) : Bool :=
  if q ≤ q' then c == c' * Nat.pow 2 (q' - q).toNat else c * Nat.pow 2 (q - q').toNat == c'

/-- The pattern of a number that a format holds without loss. -/
def Format.exact? (f : Format) (n : Number) : Option Nat :=
  match n with
  | .finite _ c q =>
      match f.unpack (f.pack n) with
      | .finite _ c' q' => if sameScaled c q c' q' then some (f.pack n) else none
      | _ => none
  | n => some (f.pack n)

/-- A pattern of one format in another one, rounded where it has to be. -/
def convert (source target : Format) (bits : Nat) : Nat := target.pack (source.unpack bits)

end RoundTrip.Binary
