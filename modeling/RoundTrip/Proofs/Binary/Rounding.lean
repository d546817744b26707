import Mathlib.Algebra.Order.Field.Power
import Mathlib.Algebra.Order.Ring.Rat
import Mathlib.Tactic.FieldSimp
import Mathlib.Tactic.Linarith
import Mathlib.Tactic.LinearCombination
import Mathlib.Tactic.NormNum
import Mathlib.Tactic.Positivity
import Mathlib.Tactic.Ring
import RoundTrip.Binary.Format

/-!
# Rounding to a binary format

Around each number of a format lies the interval of fractions that are rounded to it
(`Format.RoundsTo`). It reaches half way to the neighbours, its ends belong to it when the
coefficient is even, and the lower neighbour of a power of two is nearer. A fraction is rounded to
the number in whose interval it lies, whatever numerator and denominator stand for it.

Main statements: `Format.roundRatio_eq`, and `Format.finite_of_unpack`, which says of what number
and sign a pattern is made up.
-/

set_option autoImplicit false

namespace RoundTrip.Binary

/-! ## Quotients of naturals -/

/-- A quotient is rounded to `k` when it is at most a half away from it, and less than that when `k`
is odd. -/
theorem roundDiv_eq {num den k : Nat} (hden : 0 < den) (hlow : 2 * (k * den) ≤ 2 * num + den)
    (hhigh : 2 * num ≤ 2 * (k * den) + den)
    (hodd : k % 2 = 1 → 2 * (k * den) < 2 * num + den ∧ 2 * num < 2 * (k * den) + den) :
    roundDiv num den = k := by
  have hdiv := Nat.div_add_mod num den
  have hmod := Nat.mod_lt num hden
  rw [roundDiv]
  generalize num / den = q at *
  generalize num % den = r at *
  rw [Nat.mul_comm] at hdiv
  have hle : q ≤ k := by
    by_contra hlt
    have hmul := Nat.mul_le_mul_right den (Nat.not_le.1 hlt)
    rw [Nat.succ_mul] at hmul
    omega
  have hge : k ≤ q + 1 := by
    by_contra hlt
    have hmul := Nat.mul_le_mul_right den (Nat.not_le.1 hlt)
    rw [Nat.succ_mul, Nat.succ_mul] at hmul
    omega
  have hcases : k = q ∨ k = q + 1 := by omega
  rcases hcases with rfl | rfl
  · rw [if_pos (by omega)]
  · rw [Nat.add_mul, Nat.one_mul] at hlow hhigh hodd
    rw [if_neg (by omega)]

/-- The same for a quotient that is known as a fraction. -/
theorem roundDiv_eq_of_rat {num den k : Nat} {x : ℚ} (hden : 0 < den) (hx : (num : ℚ) = x * den)
    (hlow : (k : ℚ) - 1 / 2 ≤ x) (hhigh : x ≤ k + 1 / 2)
    (hodd : k % 2 = 1 → (k : ℚ) - 1 / 2 < x ∧ x < k + 1 / 2) : roundDiv num den = k := by
  have hpos : (0 : ℚ) < den := by exact_mod_cast hden
  apply roundDiv_eq hden
  · have h := mul_le_mul_of_nonneg_right hlow hpos.le
    have hcast : (2 * (k * den) : ℚ) ≤ 2 * num + den := by linarith
    exact_mod_cast hcast
  · have h := mul_le_mul_of_nonneg_right hhigh hpos.le
    have hcast : (2 * num : ℚ) ≤ 2 * (k * den) + den := by linarith
    exact_mod_cast hcast
  · intro hk
    have h := mul_lt_mul_of_pos_right (hodd hk).1 hpos
    have h' := mul_lt_mul_of_pos_right (hodd hk).2 hpos
    have hcast : (2 * (k * den) : ℚ) < 2 * num + den := by linarith
    have hcast' : (2 * num : ℚ) < 2 * (k * den) + den := by linarith
    exact ⟨by exact_mod_cast hcast, by exact_mod_cast hcast'⟩

/-- Scaling the smaller side by a power of two compares with the scaled other side. -/
theorem scaled_le_iff {num den a b : Nat} :
    (if b ≤ a then den * Nat.pow 2 (a - b) ≤ num else den ≤ num * Nat.pow 2 (b - a))
      ↔ (2 : ℚ) ^ ((a : ℤ) - b) * den ≤ num := by
  split
  · rename_i hle
    rw [← Nat.cast_sub hle, zpow_natCast, mul_comm, Nat.pow_eq]
    exact_mod_cast Iff.rfl
  · rename_i hlt
    have hle : a ≤ b := by omega
    have hinv : (2 : ℚ) ^ ((a : ℤ) - b) = ((2 : ℚ) ^ (b - a))⁻¹ := by
      rw [← zpow_natCast, Nat.cast_sub hle, ← zpow_neg, neg_sub]
    rw [hinv, inv_mul_le_iff₀ (by positivity), mul_comm, Nat.pow_eq]
    exact_mod_cast Iff.rfl

/-- The binary order of magnitude of a quotient. -/
theorem ratioLog2_spec {num den : Nat} (hnum : 0 < num) (hden : 0 < den) :
    (2 : ℚ) ^ ratioLog2 num den * den ≤ num ∧ (num : ℚ) < 2 ^ (ratioLog2 num den + 1) * den := by
  have ha : (2 : ℚ) ^ (num.log2 : ℤ) ≤ num := by
    rw [zpow_natCast]
    exact_mod_cast Nat.log2_self_le hnum.ne'
  have ha' : (num : ℚ) < 2 * 2 ^ (num.log2 : ℤ) := by
    rw [zpow_natCast, ← pow_succ']
    exact_mod_cast Nat.lt_log2_self
  have hb : (2 : ℚ) ^ (den.log2 : ℤ) ≤ den := by
    rw [zpow_natCast]
    exact_mod_cast Nat.log2_self_le hden.ne'
  have hb' : (den : ℚ) < 2 * 2 ^ (den.log2 : ℤ) := by
    rw [zpow_natCast, ← pow_succ']
    exact_mod_cast Nat.lt_log2_self
  have hscale : (2 : ℚ) ^ ((num.log2 : ℤ) - den.log2) * 2 ^ (den.log2 : ℤ)
      = 2 ^ (num.log2 : ℤ) := by
    rw [← zpow_add₀ two_ne_zero, sub_add_cancel]
  have hpos : (0 : ℚ) < 2 ^ ((num.log2 : ℤ) - den.log2) := by positivity
  by_cases h : (2 : ℚ) ^ ((num.log2 : ℤ) - den.log2) * den ≤ num
  · have hlog : ratioLog2 num den = (num.log2 : ℤ) - den.log2 := if_pos (scaled_le_iff.2 h)
    rw [hlog, zpow_add_one₀ two_ne_zero]
    have hmul := mul_le_mul_of_nonneg_left hb hpos.le
    rw [hscale] at hmul
    exact ⟨h, by linarith⟩
  · have hlog : ratioLog2 num den = (num.log2 : ℤ) - den.log2 - 1 :=
      if_neg (mt scaled_le_iff.1 h)
    rw [hlog, sub_add_cancel, zpow_sub_one₀ two_ne_zero]
    have hmul := mul_lt_mul_of_pos_left hb' hpos
    exact ⟨by linarith, not_le.1 h⟩

/-- The same for a quotient that is known as a fraction. -/
theorem ratioLog2_spec_of_rat {num den : Nat} {y : ℚ} (hden : 0 < den) (hpos : 0 < y)
    (hy : (num : ℚ) = y * den) :
    0 < num ∧ 2 ^ ratioLog2 num den ≤ y ∧ y < 2 ^ (ratioLog2 num den + 1) := by
  have hdenQ : (0 : ℚ) < den := by exact_mod_cast hden
  have hnum : 0 < num := by
    have hcast : (0 : ℚ) < num := by
      rw [hy]
      exact mul_pos hpos hdenQ
    exact_mod_cast hcast
  obtain ⟨hlow, hhigh⟩ := ratioLog2_spec hnum hden
  rw [hy, mul_le_mul_iff_left₀ hdenQ] at hlow
  rw [hy, mul_lt_mul_iff_left₀ hdenQ] at hhigh
  exact ⟨hnum, hlow, hhigh⟩

theorem two_pow_mul_zpow (n : ℕ) (q : ℤ) : (2 : ℚ) ^ n * 2 ^ q = 2 ^ (n + q) := by
  rw [← zpow_natCast, ← zpow_add₀ two_ne_zero]

theorem two_zpow_sub_two (q : ℤ) : (2 : ℚ) ^ (q - 2) = 2 ^ q / 4 := by
  rw [zpow_sub₀ two_ne_zero]
  norm_num

namespace Format

variable {f : Format} {c : Nat} {q : ℤ}

/-! ## Numbers of a format -/

/-- The coefficient fits the format, and it is not smaller than it has to be. -/
structure Normal (f : Format) (c : Nat) (q : ℤ) : Prop where
  coefficient_lt : c < 2 ^ (f.fractionBits + 1)
  exponent_le : f.minExponent ≤ q
  coefficient_le : f.minExponent < q → 2 ^ f.fractionBits ≤ c

/-- The pattern of `c * 2 ^ q`, without a sign. -/
def pattern (f : Format) (c : Nat) (q : ℤ) : Nat :=
  (q - f.minExponent).toNat * 2 ^ f.fractionBits + c

/-- Four times the distance from `c * 2 ^ q` down to where rounding changes, in units of `2 ^ q`. -/
def reach (f : Format) (c : Nat) (q : ℤ) : ℚ :=
  if c = 2 ^ f.fractionBits ∧ f.minExponent < q then 1 else 2

/-- The fraction `y` is rounded to `c * 2 ^ q`: it lies between the middles of the gaps on both
sides, which belong to the even coefficients. -/
structure RoundsTo (f : Format) (c : Nat) (q : ℤ) (y : ℚ) : Prop where
  lower : (4 * c - f.reach c q) * 2 ^ (q - 2) ≤ y
  upper : y ≤ (4 * c + 2) * 2 ^ (q - 2)
  strict : c % 2 = 1 → (4 * c - f.reach c q) * 2 ^ (q - 2) < y ∧ y < (4 * c + 2) * 2 ^ (q - 2)

theorem reach_pos : 0 < f.reach c q := by
  rw [reach]
  split <;> norm_num

theorem reach_le : f.reach c q ≤ 2 := by
  rw [reach]
  split <;> norm_num

/-- A fraction that is rounded to a number is at least half of its last bit. -/
theorem RoundsTo.two_zpow_le {y : ℚ} (h : f.RoundsTo c q y) (hc : 0 < c) : 2 ^ (q - 1) ≤ y := by
  have hcQ : (1 : ℚ) ≤ c := by exact_mod_cast hc
  have hunit : (0 : ℚ) < 2 ^ (q - 2) := by positivity
  have hreach := @reach_le f c q
  refine le_trans ?_ h.lower
  rw [show q - 1 = q - 2 + 1 by ring, zpow_add_one₀ two_ne_zero, mul_comm,
    mul_le_mul_iff_left₀ hunit]
  linarith

/-- It does not reach the next power of two. -/
theorem RoundsTo.lt_two_zpow {y : ℚ} (h : f.RoundsTo c q y) (hnormal : f.Normal c q) :
    y < 2 ^ ((f.fractionBits : ℤ) + 1 + q) := by
  have hunit : (0 : ℚ) < 2 ^ (q - 2) := by positivity
  have hcoefficient : (c : ℚ) + 1 ≤ 2 ^ (f.fractionBits + 1) := by
    exact_mod_cast hnormal.coefficient_lt
  have hpower : (2 : ℚ) ^ ((f.fractionBits : ℤ) + 1 + q)
      = 4 * 2 ^ (f.fractionBits + 1) * 2 ^ (q - 2) := by
    have hfour : (4 : ℚ) * 2 ^ (f.fractionBits + 1) = 2 ^ (f.fractionBits + 3) := by ring
    rw [hfour, two_pow_mul_zpow]
    congr 1
    push_cast
    ring
  rw [hpower]
  refine lt_of_le_of_lt h.upper ?_
  rw [mul_lt_mul_iff_left₀ hunit]
  linarith

/-- The coefficient that a fraction is rounded to when the last bit has weight `2 ^ e`. -/
theorem coefficient_eq {num den k : Nat} {e : ℤ} {x : ℚ} (hden : 0 < den)
    (hx : (num : ℚ) = x * 2 ^ e * den) (hlow : (k : ℚ) - 1 / 2 ≤ x) (hhigh : x ≤ k + 1 / 2)
    (hodd : k % 2 = 1 → (k : ℚ) - 1 / 2 < x ∧ x < k + 1 / 2) :
    (if 0 ≤ e then roundDiv num (den * Nat.pow 2 e.toNat)
      else roundDiv (num * Nat.pow 2 (-e).toNat) den) = k := by
  split
  · rename_i he
    have hpow : (2 : ℚ) ^ e = ((2 ^ e.toNat : ℕ) : ℚ) := by
      rw [← Int.toNat_of_nonneg he, zpow_natCast]
      push_cast
      rfl
    apply roundDiv_eq_of_rat (Nat.mul_pos hden (Nat.pow_pos (by decide))) _ hlow hhigh hodd
    rw [hx, hpow]
    push_cast
    ring
  · rename_i he
    have hpow : (2 : ℚ) ^ e * ((2 ^ (-e).toNat : ℕ) : ℚ) = 1 := by
      push_cast
      rw [← zpow_natCast, Int.toNat_of_nonneg (by omega), ← zpow_add₀ two_ne_zero]
      simp
    apply roundDiv_eq_of_rat hden _ hlow hhigh hodd
    rw [Nat.pow_eq]
    push_cast
    push_cast at hpow
    rw [hx]
    linear_combination (x * den) * hpow

/-- Rounding a fraction in units of `2 ^ q`. -/
theorem RoundsTo.coefficient_eq {num den : Nat} {y : ℚ} (h : f.RoundsTo c q y) (hden : 0 < den)
    (hy : (num : ℚ) = y * den) :
    (if 0 ≤ q then roundDiv num (den * Nat.pow 2 q.toNat)
      else roundDiv (num * Nat.pow 2 (-q).toNat) den) = c := by
  have hpos : (0 : ℚ) < 2 ^ q := by positivity
  have hreach := @reach_le f c q
  obtain ⟨hlower, hupper, hstrict⟩ := h
  rw [two_zpow_sub_two] at hlower hupper hstrict
  obtain ⟨x, rfl⟩ : ∃ x, y = x * 2 ^ q := ⟨y / 2 ^ q, by field_simp⟩
  have hcancel : ∀ a : ℚ, a * (2 ^ q / 4) = a / 4 * 2 ^ q := by
    intro a
    ring
  simp only [hcancel, mul_le_mul_iff_left₀ hpos, mul_lt_mul_iff_left₀ hpos]
    at hlower hupper hstrict
  apply Format.coefficient_eq hden hy
  · linarith
  · linarith
  · intro hodd
    have hboth := hstrict hodd
    exact ⟨by linarith [hboth.1], by linarith [hboth.2]⟩

theorem roundRatio_eq_of_raise {num den r k : Nat} (hnum : num ≠ 0)
    (hraise : (ratioLog2 num den - f.fractionBits - f.minExponent).toNat = r)
    (hcoefficient : (if 0 ≤ f.minExponent + r
        then roundDiv num (den * Nat.pow 2 (f.minExponent + r).toNat)
        else roundDiv (num * Nat.pow 2 (-(f.minExponent + r)).toNat) den) = k) :
    f.roundRatio num den = min (r * 2 ^ f.fractionBits + k) f.infinityBits := by
  simp only [roundRatio, if_neg hnum, hraise, hcoefficient]
  rfl

/-- Only the lower end of a power of two lies below that power. -/
theorem RoundsTo.eq_two_pow {y : ℚ} (h : f.RoundsTo c q y) (hmin : f.minExponent < q)
    (hlarge : 2 ^ f.fractionBits ≤ c) (hy : y < 2 ^ ((f.fractionBits : ℤ) + q)) :
    c = 2 ^ f.fractionBits ∧ (4 * 2 ^ f.fractionBits - 1) * 2 ^ (q - 2) ≤ y := by
  have hunit : (0 : ℚ) < 2 ^ (q - 2) := by positivity
  have hpower : (2 : ℚ) ^ ((f.fractionBits : ℤ) + q) = 4 * 2 ^ f.fractionBits * 2 ^ (q - 2) := by
    have hfour : (4 : ℚ) * 2 ^ f.fractionBits = 2 ^ (f.fractionBits + 2) := by ring
    rw [hfour, two_pow_mul_zpow]
    congr 1
    push_cast
    ring
  have hlt : (4 : ℚ) * c - f.reach c q < 4 * 2 ^ f.fractionBits := by
    rw [hpower] at hy
    exact (mul_lt_mul_iff_left₀ hunit).1 (lt_of_le_of_lt h.lower hy)
  have hreach := @reach_le f c q
  have hcast : ((4 * c : ℕ) : ℚ) < ((4 * 2 ^ f.fractionBits + 2 : ℕ) : ℚ) := by
    push_cast
    linarith
  have hc : c = 2 ^ f.fractionBits := by
    have hnat : 4 * c < 4 * 2 ^ f.fractionBits + 2 := by exact_mod_cast hcast
    omega
  refine ⟨hc, ?_⟩
  have hlower := h.lower
  rw [reach, if_pos ⟨hc, hmin⟩, hc] at hlower
  exact_mod_cast hlower

/-- Fractions right below a power of two have a finer unit, and are rounded up to it. -/
theorem roundRatio_eq_two_pow {num den : Nat} {y : ℚ} (hmin : f.minExponent < q) (hden : 0 < den)
    (hy : (num : ℚ) = y * den) (hlower : (4 * 2 ^ f.fractionBits - 1) * 2 ^ (q - 2) ≤ y)
    (hupper : y < 2 ^ ((f.fractionBits : ℤ) + q)) :
    f.roundRatio num den = min (f.pattern (2 ^ f.fractionBits) q) f.infinityBits := by
  have hone : (1 : ℚ) ≤ 2 ^ f.fractionBits := one_le_pow₀ one_le_two
  have hunit : (0 : ℚ) < 2 ^ (q - 2) := by positivity
  have hfine : (2 : ℚ) ^ (q - 2) = 2 ^ (q - 1) / 2 := by
    rw [show q - 2 = q - 1 - 1 by ring, zpow_sub_one₀ two_ne_zero]
    rfl
  have hhalf : (2 : ℚ) ^ ((f.fractionBits : ℤ) + q - 1) = 2 ^ f.fractionBits * 2 ^ (q - 1) := by
    rw [two_pow_mul_zpow]
    congr 1
    ring
  have hfull : (2 : ℚ) ^ ((f.fractionBits : ℤ) + q) = 2 ^ f.fractionBits * 2 ^ (q - 1) * 2 := by
    rw [← hhalf, ← zpow_add_one₀ two_ne_zero, sub_add_cancel]
  rw [hfine] at hlower
  have hpos : (0 : ℚ) < 2 ^ (q - 1) := by positivity
  -- the logarithm of the fraction is one below that of the number
  have hbottom : (2 : ℚ) ^ ((f.fractionBits : ℤ) + q - 1) ≤ y := by
    rw [hhalf]
    nlinarith
  have hypos : 0 < y := lt_of_lt_of_le (by positivity) hbottom
  obtain ⟨hnum, hlow, hhigh⟩ := ratioLog2_spec_of_rat hden hypos hy
  generalize hlog : ratioLog2 num den = e at hlow hhigh
  have he : (f.fractionBits : ℤ) + q - 1 < e + 1 :=
    (zpow_lt_zpow_iff_right₀ one_lt_two).1 (lt_of_le_of_lt hbottom hhigh)
  have he' : e < (f.fractionBits : ℤ) + q :=
    (zpow_lt_zpow_iff_right₀ one_lt_two).1 (lt_of_le_of_lt hlow hupper)
  have hpattern : f.pattern (2 ^ f.fractionBits) q
      = (q - 1 - f.minExponent).toNat * 2 ^ f.fractionBits + 2 ^ (f.fractionBits + 1) := by
    have hraise : (q - f.minExponent).toNat = (q - 1 - f.minExponent).toNat + 1 := by omega
    rw [pattern, hraise, pow_succ]
    ring
  rw [hpattern]
  apply roundRatio_eq_of_raise hnum.ne'
  · rw [hlog]
    congr 1
    omega
  · rw [Int.toNat_of_nonneg (by omega), add_sub_cancel]
    -- in the finer unit the number is a power of two again, which is even and so wins a tie
    obtain ⟨x, rfl⟩ : ∃ x, y = x * 2 ^ (q - 1) := ⟨y / 2 ^ (q - 1), by field_simp⟩
    have hx : 2 * 2 ^ f.fractionBits - 1 / 2 ≤ x := by
      apply (mul_le_mul_iff_left₀ hpos).1
      linarith
    have hx' : x < 2 * 2 ^ f.fractionBits := by
      apply (mul_lt_mul_iff_left₀ hpos).1
      linarith
    apply Format.coefficient_eq hden hy
    · push_cast
      rw [pow_succ]
      linarith
    · push_cast
      rw [pow_succ]
      linarith
    · intro hodd
      rw [pow_succ] at hodd
      omega

/-- **A fraction is rounded to the number in whose interval it lies.** -/
theorem roundRatio_eq {num den : Nat} {y : ℚ} (hnormal : f.Normal c q) (hc : 0 < c)
    (hden : 0 < den) (hy : (num : ℚ) = y * den) (h : f.RoundsTo c q y) :
    f.roundRatio num den = min (f.pattern c q) f.infinityBits := by
  have hypos : 0 < y := lt_of_lt_of_le (by positivity) (h.two_zpow_le hc)
  obtain ⟨hnum, hlow, hhigh⟩ := ratioLog2_spec_of_rat hden hypos hy
  generalize hlog : ratioLog2 num den = e at hlow hhigh
  have hbelow := h.lt_two_zpow hnormal
  have htop : e < f.fractionBits + 1 + q :=
    (zpow_lt_zpow_iff_right₀ one_lt_two).1 (lt_of_le_of_lt hlow hbelow)
  have hcoefficient := h.coefficient_eq hden hy
  by_cases hmin : f.minExponent < q
  · have hlarge := hnormal.coefficient_le hmin
    by_cases hreached : (2 : ℚ) ^ ((f.fractionBits : ℤ) + q) ≤ y
    · -- the fraction has the magnitude of the number
      have hbottom : (f.fractionBits : ℤ) + q < e + 1 :=
        (zpow_lt_zpow_iff_right₀ one_lt_two).1 (lt_of_le_of_lt hreached hhigh)
      rw [pattern]
      apply roundRatio_eq_of_raise hnum.ne'
      · rw [hlog]
        congr 1
        omega
      · rw [Int.toNat_of_nonneg (by omega), add_sub_cancel]
        exact hcoefficient
    · -- the fraction is below a power of two, and is rounded up to it
      rw [not_le] at hreached
      obtain ⟨rfl, hlower⟩ := h.eq_two_pow hmin hlarge hreached
      exact roundRatio_eq_two_pow hmin hden hy hlower hreached
  · -- at the least exponent there is no finer unit
    have hq : q = f.minExponent := by
      have hle := hnormal.exponent_le
      omega
    rw [pattern]
    apply roundRatio_eq_of_raise hnum.ne'
    · rw [hlog, hq]
      omega
    · rw [hq] at hcoefficient ⊢
      simpa using hcoefficient

/-! ## Patterns -/

theorem roundsTo_self (f : Format) (c : Nat) (q : ℤ) : f.RoundsTo c q (c * 2 ^ q) := by
  have hpos : (0 : ℚ) < 2 ^ q := by positivity
  have hreach := mul_pos (@reach_pos f c q) hpos
  have hlower : (4 * c - f.reach c q) * 2 ^ (q - 2) < (c : ℚ) * 2 ^ q := by
    rw [two_zpow_sub_two]
    linarith
  have hupper : (c : ℚ) * 2 ^ q < (4 * c + 2) * 2 ^ (q - 2) := by
    rw [two_zpow_sub_two]
    linarith
  exact ⟨hlower.le, hupper.le, fun _ => ⟨hlower, hupper⟩⟩

/-- A number that a format holds is not changed by rounding, however it is scaled. -/
theorem roundScaled_eq {c' : Nat} {q' : ℤ} (hnormal : f.Normal c q) (hc : 0 < c)
    (hvalue : (c' : ℚ) * 2 ^ q' = c * 2 ^ q) :
    f.roundScaled c' q' = min (f.pattern c q) f.infinityBits := by
  have hself := roundsTo_self f c q
  rw [roundScaled]
  split
  · rename_i hq
    refine roundRatio_eq hnormal hc Nat.one_pos ?_ hself
    rw [← hvalue, Nat.cast_one, mul_one, Nat.pow_eq]
    push_cast
    rw [← zpow_natCast, Int.toNat_of_nonneg hq]
  · rename_i hq
    refine roundRatio_eq hnormal hc (Nat.pow_pos (by decide)) ?_ hself
    have hcancel : (2 : ℚ) ^ q' * 2 ^ (-q').toNat = 1 := by
      rw [← zpow_natCast, Int.toNat_of_nonneg (by omega), ← zpow_add₀ two_ne_zero]
      simp
    rw [← hvalue, Nat.pow_eq]
    push_cast
    rw [mul_assoc, hcancel, mul_one]

theorem roundRatio_le (f : Format) (num den : Nat) : f.roundRatio num den ≤ f.infinityBits := by
  unfold roundRatio
  split
  · exact Nat.zero_le _
  · exact Nat.min_le_right _ _

/-- Zero has the least exponent, and no bits but the sign. -/
theorem Normal.pattern_zero (h : f.Normal 0 q) : f.pattern 0 q = 0 := by
  have hq : q = f.minExponent := by
    rcases h.exponent_le.lt_or_eq with hlt | heq
    · have hle := h.coefficient_le hlt
      exact absurd hle (Nat.not_le.2 (Nat.pow_pos (by decide)))
    · exact heq.symm
  rw [pattern, hq, Int.sub_self]
  simp

/-- What a pattern of a finite number is made of. -/
structure Finite (f : Format) (bits : Nat) (negative : Bool) (c : Nat) (q : ℤ) : Prop where
  normal : f.Normal c q
  pattern_lt : f.pattern c q < f.infinityBits
  bits_eq : bits = f.signBits negative + f.pattern c q

theorem signBits_div (f : Format) {bits : Nat}
    (h : bits < 2 ^ (f.exponentBits + f.fractionBits + 1)) :
    bits = f.signBits (bits / Nat.pow 2 (f.exponentBits + f.fractionBits) % 2 == 1)
      + bits % 2 ^ (f.exponentBits + f.fractionBits) := by
  have hdiv := Nat.div_add_mod bits (2 ^ (f.exponentBits + f.fractionBits))
  have hlt : bits / 2 ^ (f.exponentBits + f.fractionBits) < 2 := by
    rw [Nat.div_lt_iff_lt_mul (Nat.pow_pos (by decide)), mul_comm, ← pow_succ]
    exact h
  rw [signBits, Nat.pow_eq]
  generalize bits / 2 ^ (f.exponentBits + f.fractionBits) = s at *
  have hs : s = 0 ∨ s = 1 := by omega
  rcases hs with rfl | rfl
  · simpa using hdiv.symm
  · simpa using hdiv.symm

/-- A pattern without its sign is made up of the exponent and the fraction. -/
theorem mod_eq_fields (f : Format) (bits : Nat) :
    bits % 2 ^ (f.exponentBits + f.fractionBits)
      = bits / 2 ^ f.fractionBits % 2 ^ f.exponentBits * 2 ^ f.fractionBits
        + bits % 2 ^ f.fractionBits := by
  rw [add_comm f.exponentBits, pow_add, Nat.mod_mul]
  ring

/-- The patterns below that of infinity stand for finite numbers, whatever their sign is. -/
theorem exists_unpack_eq_finite {bits : Nat}
    (h : bits % 2 ^ (f.exponentBits + f.fractionBits) < f.infinityBits) :
    ∃ negative c q, f.unpack bits = .finite negative c q := by
  have hexponent : bits / 2 ^ f.fractionBits % 2 ^ f.exponentBits ≠ 2 ^ f.exponentBits - 1 := by
    intro heq
    rw [mod_eq_fields, heq, infinityBits] at h
    simp only [Nat.pow_eq] at h
    omega
  simp only [unpack, Nat.pow_eq, if_neg hexponent]
  split
  · exact ⟨_, _, _, rfl⟩
  · exact ⟨_, _, _, rfl⟩

theorem finite_of_unpack {bits : Nat} {negative : Bool}
    (hbits : bits < 2 ^ (f.exponentBits + f.fractionBits + 1))
    (h : f.unpack bits = .finite negative c q) : f.Finite bits negative c q := by
  have hsign := f.signBits_div hbits
  have hfields := f.mod_eq_fields bits
  have hexponent : bits / 2 ^ f.fractionBits % 2 ^ f.exponentBits < 2 ^ f.exponentBits :=
    Nat.mod_lt _ (Nat.pow_pos (by decide))
  have hfraction : bits % 2 ^ f.fractionBits < 2 ^ f.fractionBits :=
    Nat.mod_lt _ (Nat.pow_pos (by decide))
  simp only [unpack, Nat.pow_eq] at h
  rw [hfields] at hsign
  generalize bits / 2 ^ f.fractionBits % 2 ^ f.exponentBits = x at *
  generalize bits % 2 ^ f.fractionBits = m at *
  -- both kinds of numbers have the pattern that the fields make up
  have hlt : x ≠ 2 ^ f.exponentBits - 1 → x * 2 ^ f.fractionBits + m < f.infinityBits := by
    intro hx
    have hnext : x + 1 ≤ 2 ^ f.exponentBits - 1 := by omega
    have hmul := Nat.mul_le_mul_right (2 ^ f.fractionBits) hnext
    rw [Nat.add_mul, Nat.one_mul] at hmul
    rw [infinityBits]
    simp only [Nat.pow_eq]
    omega
  split at h
  · split at h
    · cases h
    · cases h
  · rename_i hx
    have hfinite := hlt hx
    split at h
    · rename_i hzero
      injection h with hnegative hc hq
      subst hnegative hc hq hzero
      have hpattern : f.pattern m f.minExponent = 0 * 2 ^ f.fractionBits + m := by
        simp [pattern]
      refine ⟨⟨?_, le_refl _, fun hmin => absurd hmin (lt_irrefl _)⟩, ?_, ?_⟩
      · rw [pow_succ]
        omega
      · rw [hpattern]
        exact hfinite
      · rw [hpattern]
        exact hsign
    · rename_i hpos
      injection h with hnegative hc hq
      subst hnegative hc hq
      have hpattern : f.pattern (2 ^ f.fractionBits + m) (f.minExponent + (x - 1 : Nat))
          = x * 2 ^ f.fractionBits + m := by
        obtain ⟨k, rfl⟩ : ∃ k, x = k + 1 := ⟨x - 1, by omega⟩
        simp only [pattern, add_sub_cancel_left, Int.toNat_natCast, Nat.add_sub_cancel]
        ring
      refine ⟨⟨?_, by omega, fun _ => Nat.le_add_right ..⟩, ?_, ?_⟩
      · rw [pow_succ]
        omega
      · rw [hpattern]
        exact hfinite
      · rw [hpattern]
        exact hsign

end Format

end RoundTrip.Binary
