/-!
# Machine words

Integers as they are after passing through a word of 64 bits.

Main definitions: `signedWord`, `unsignedWord`, `FitsWord`. Main fact: `signedWord_eq`, integers
that fit are unchanged.
-/

set_option autoImplicit false

namespace RoundTrip

/-- The number of words of 64 bits. -/
def wordCount : Nat := 0x10000000000000000

/-- The number of words of 64 bits that are not negative as signed ones. -/
def wordHalf : Nat := 0x8000000000000000

/-- An integer as a signed word, which wraps. -/
def signedWord (n : Int) : Int := n.bmod wordCount

/-- An integer as an unsigned word, which wraps. -/
def unsignedWord (n : Int) : Nat := (n % wordCount).toNat

/-- An integer that a signed word holds. -/
abbrev FitsWord (n : Int) : Prop := -wordHalf ≤ n ∧ n < wordHalf

/-- Integers that fit a signed word are unchanged. -/
theorem signedWord_eq {n : Int} (fits : FitsWord n) : signedWord n = n :=
  Int.bmod_eq_of_le (by simp only [FitsWord, wordHalf, wordCount] at *; omega)
    (by simp only [FitsWord, wordHalf, wordCount] at *; omega)

end RoundTrip
