import RoundTrip.Proofs.Binary.Rounding

/-!
# Numbers that a shorter format holds

A number of 64 bits that a shorter format holds is found again when the shorter pattern is read:
the sign and the value are the same, and a value has one pattern only. A pattern that is no number
is found as such, with other bits perhaps.

Main statement: `convert_of_exact?`.
-/

set_option autoImplicit false

namespace RoundTrip.Binary

namespace Format

variable {f : Format} {c : Nat} {q : ℤ}

/-! ## Fields -/

theorem infinityBits_lt (f : Format) :
    f.infinityBits < 2 ^ (f.exponentBits + f.fractionBits) := by
  have hpos : 0 < 2 ^ f.fractionBits := Nat.pow_pos (by decide)
  have hlt : 2 ^ f.exponentBits - 1 < 2 ^ f.exponentBits :=
    Nat.sub_lt (Nat.pow_pos (by decide)) Nat.one_pos
  rw [infinityBits, pow_add]
  exact Nat.mul_lt_mul_of_pos_right hlt hpos

/-- The sign of a pattern is its highest bit. -/
theorem sign_of_signBits_add (f : Format) (negative : Bool) {x : Nat}
    (hx : x < 2 ^ (f.exponentBits + f.fractionBits)) :
    ((f.signBits negative + x) / Nat.pow 2 (f.exponentBits + f.fractionBits) % 2 == 1)
      = negative := by
  have hpos : 0 < 2 ^ (f.exponentBits + f.fractionBits) := Nat.pow_pos (by decide)
  rw [signBits]
  simp only [Nat.pow_eq]
  cases negative with
  | true =>
      rw [if_pos rfl, Nat.add_div_left _ hpos, Nat.div_eq_of_lt hx]
      rfl
  | false =>
      rw [if_neg (by decide), Nat.zero_add, Nat.div_eq_of_lt hx]
      rfl

theorem signBits_add_lt (f : Format) (negative : Bool) {x : Nat}
    (hx : x < 2 ^ (f.exponentBits + f.fractionBits)) :
    f.signBits negative + x < 2 ^ (f.exponentBits + f.fractionBits + 1) := by
  have hle : f.signBits negative ≤ 2 ^ (f.exponentBits + f.fractionBits) := by
    cases negative with
    | true => exact Nat.le_refl _
    | false => exact Nat.zero_le _
  rw [pow_succ]
  omega

/-- The number of a pattern has the sign of the pattern. -/
theorem negative_of_unpack {negative negative' : Bool} {x : Nat}
    (hx : x < 2 ^ (f.exponentBits + f.fractionBits))
    (h : f.unpack (f.signBits negative + x) = .finite negative' c q) : negative' = negative := by
  have hsign := f.sign_of_signBits_add negative hx
  unfold unpack at h
  dsimp only at h
  rw [hsign] at h
  split at h
  · split at h <;> cases h
  split at h
  · injection h with hnegative
    exact hnegative.symm
  · injection h with hnegative
    exact hnegative.symm

theorem roundScaled_le (f : Format) (c : Nat) (q : ℤ) : f.roundScaled c q ≤ f.infinityBits := by
  unfold roundScaled
  split
  · exact f.roundRatio_le _ _
  · exact f.roundRatio_le _ _

theorem roundScaled_zero (f : Format) (q : ℤ) : f.roundScaled 0 q = 0 := by
  unfold roundScaled
  split
  · rw [Nat.zero_mul, roundRatio, if_pos rfl]
  · rw [roundRatio, if_pos rfl]

theorem bits_of_unpack_infinite {bits : Nat} {negative : Bool}
    (hbits : bits < 2 ^ (f.exponentBits + f.fractionBits + 1))
    (h : f.unpack bits = .infinite negative) : bits = f.signBits negative + f.infinityBits := by
  have hsign := f.signBits_div hbits
  rw [f.mod_eq_fields] at hsign
  simp only [unpack, Nat.pow_eq] at h
  split at h
  · rename_i hexponent
    split at h
    · rename_i hfraction
      injection h with hnegative
      rw [hexponent, hfraction, Nat.add_zero, Nat.pow_eq, hnegative] at hsign
      exact hsign
    · cases h
  split at h
  · cases h
  · cases h

/-- A number is packed as its pattern, however it is scaled. -/
theorem pack_eq {bits : Nat} {negative : Bool} (h : f.Finite bits negative c q) {c' : Nat} {q' : ℤ}
    (hvalue : (c' : ℚ) * 2 ^ q' = c * 2 ^ q) : f.pack (.finite negative c' q') = bits := by
  rw [pack, h.bits_eq]
  congr 1
  by_cases hc : c = 0
  · subst hc
    have hq' : (2 : ℚ) ^ q' ≠ 0 := by positivity
    have hc' : c' = 0 := by simpa [hq'] using hvalue
    rw [hc', roundScaled_zero, h.normal.pattern_zero]
  · rw [roundScaled_eq h.normal (Nat.pos_of_ne_zero hc) hvalue, min_eq_left h.pattern_lt.le]

end Format

/-! ## Equal values -/

theorem eq_of_sameScaled {c c' : Nat} {q q' : ℤ} (h : sameScaled c q c' q' = true) :
    (c' : ℚ) * 2 ^ q' = c * 2 ^ q := by
  unfold sameScaled at h
  split at h
  · rename_i hle
    have hc : c = c' * 2 ^ (q' - q).toNat := beq_iff_eq.1 h
    rw [hc]
    push_cast
    rw [mul_assoc, ← zpow_natCast, Int.toNat_of_nonneg (by omega), ← zpow_add₀ two_ne_zero]
    congr 2
    omega
  · rename_i hle
    have hc : c * 2 ^ (q - q').toNat = c' := beq_iff_eq.1 h
    rw [← hc]
    push_cast
    rw [mul_assoc, ← zpow_natCast, Int.toNat_of_nonneg (by omega), ← zpow_add₀ two_ne_zero]
    congr 2
    omega

/-! ## Main statement -/

theorem convert_of_exact_finite {f : Format} {bits b : Nat} {negative : Bool} {c : Nat} {q : ℤ}
    (hfinite : double.Finite bits negative c q) (h : f.exact? (.finite negative c q) = some b) :
    b < 2 ^ (f.exponentBits + f.fractionBits + 1) ∧ convert f double b = bits := by
  have hround : f.roundScaled c q < 2 ^ (f.exponentBits + f.fractionBits) :=
    Nat.lt_of_le_of_lt (f.roundScaled_le c q) f.infinityBits_lt
  unfold Format.exact? at h
  dsimp only at h
  split at h
  · rename_i negative' c' q' hunpack
    split at h
    · rename_i hsame
      obtain rfl := Option.some.inj h
      obtain rfl : negative' = negative := Format.negative_of_unpack hround hunpack
      refine ⟨f.signBits_add_lt negative' hround, ?_⟩
      rw [convert, hunpack]
      exact Format.pack_eq hfinite (eq_of_sameScaled hsame)
    · cases h
  · cases h

/-- **A number that a shorter format holds is read back from its pattern there.** What is no number
is read back as no number. -/
theorem convert_of_exact? {f : Format} (hf : f = half ∨ f = single) {bits b : Nat}
    (hbits : bits < 2 ^ 64) (h : f.exact? (double.unpack bits) = some b) :
    b < 2 ^ (f.exponentBits + f.fractionBits + 1)
      ∧ (double.unpack bits = .nan ∧ double.unpack (convert f double b) = .nan
        ∨ convert f double b = bits) := by
  cases hnumber : double.unpack bits with
  | nan =>
      rw [hnumber] at h
      obtain rfl := Option.some.inj h
      rcases hf with rfl | rfl
      · exact ⟨by decide, .inl ⟨rfl, by decide⟩⟩
      · exact ⟨by decide, .inl ⟨rfl, by decide⟩⟩
  | infinite negative =>
      have hpattern := Format.bits_of_unpack_infinite (f := double) hbits hnumber
      rw [hnumber] at h
      obtain rfl := Option.some.inj h
      rw [hpattern]
      rcases hf with rfl | rfl <;> cases negative <;> exact ⟨by decide, .inr (by decide)⟩
  | finite negative c q =>
      have hfinite := Format.finite_of_unpack (f := double) hbits hnumber
      rw [hnumber] at h
      obtain ⟨hlt, hconvert⟩ := convert_of_exact_finite hfinite h
      exact ⟨hlt, .inr hconvert⟩

end RoundTrip.Binary
