import RoundTrip.Binary.Decimal
import RoundTrip.Proofs.Binary.Rounding

/-!
# The shortest numeral reads back

The shortest numeral of a number is searched on finer and finer decimal grids, for a point in the
interval of fractions that are rounded to the number. Within its 22 grids the search comes to one
whose points are closer than half the distance of two numbers, and such a grid is always hit. So the
numeral lies in the interval, and its digits are read as the number, wherever the point stands.

Main statements: `roundsTo_shortest`, `ofDigits_eq`.
-/

set_option autoImplicit false

namespace RoundTrip.Binary

/-! ## Grids -/

theorem Grid.holds_of_hit {g : Grid} {d : Nat} (h : g.hit? = some d) : g.holds d = true := by
  rw [Grid.hit?] at h
  split at h
  · cases h
  · cases h
    assumption
  · cases h
    assumption
  · rename_i hd hd'
    cases h
    split
    · exact hd
    · exact hd'

/-- A point above the number is hit when the points are closer than the upper end. -/
theorem Grid.exists_hit {g : Grid} (hunit : 0 < g.unit) (hlower : g.lower < g.value)
    (hupper : g.value + g.unit < g.upper) : ∃ d, g.hit? = some d := by
  have hnext : g.holds (g.value / g.unit + 1) = true := by
    have hdiv := Nat.div_add_mod g.value g.unit
    have hmod := Nat.mod_lt g.value hunit
    rw [Nat.mul_comm] at hdiv
    rw [Grid.holds, Nat.add_mul, Nat.one_mul]
    split
    · apply decide_eq_true
      omega
    · apply decide_eq_true
      omega
  rw [Grid.hit?, hnext]
  cases g.holds (g.value / g.unit) with
  | false => exact ⟨_, rfl⟩
  | true => exact ⟨_, rfl⟩

namespace Format

variable {f : Format} {c : Nat} {q : ℤ}

/-- The factor by which a grid is scaled. -/
def gridScale (q e : ℤ) : ℚ := 10 ^ (-e).toNat * 2 ^ (2 - q).toNat

theorem gridScale_pos (q e : ℤ) : 0 < gridScale q e := by
  rw [gridScale]
  positivity

theorem zpow_mul_pow_toNat {a : ℚ} (ha : a ≠ 0) (e : ℤ) : a ^ e * a ^ (-e).toNat = a ^ e.toNat := by
  rw [← zpow_natCast, ← zpow_natCast, ← zpow_add₀ ha]
  congr 1
  omega

theorem grid_unit (e : ℤ) : ((f.grid c q e).unit : ℚ) = 10 ^ e * gridScale q e := by
  have hten := zpow_mul_pow_toNat (a := 10) (by norm_num) e
  simp only [grid, gridScale, Nat.pow_eq]
  push_cast
  rw [← hten]
  ring

theorem grid_scale (e : ℤ) :
    ((Nat.pow 2 (q - 2).toNat * Nat.pow 10 (-e).toNat : ℕ) : ℚ) = 2 ^ (q - 2) * gridScale q e := by
  have htwo := zpow_mul_pow_toNat (a := 2) two_ne_zero (q - 2)
  rw [neg_sub] at htwo
  simp only [gridScale, Nat.pow_eq]
  push_cast
  rw [← htwo]
  ring

theorem grid_lower (hc : 0 < c) (e : ℤ) :
    ((f.grid c q e).lower : ℚ) = (4 * c - f.reach c q) * 2 ^ (q - 2) * gridScale q e := by
  have hscale := @grid_scale q e
  have hreach : ((4 * c - if c = Nat.pow 2 f.fractionBits ∧ f.minExponent < q then 1 else 2 : ℕ)
      : ℚ) = 4 * c - f.reach c q := by
    rw [reach]
    simp only [Nat.pow_eq]
    split
    · rw [Nat.cast_sub (by omega)]
      push_cast
      rfl
    · rw [Nat.cast_sub (by omega)]
      push_cast
      rfl
  simp only [grid]
  rw [Nat.cast_mul, hscale, hreach]
  ring

theorem grid_upper (e : ℤ) :
    ((f.grid c q e).upper : ℚ) = (4 * c + 2) * 2 ^ (q - 2) * gridScale q e := by
  have hscale := @grid_scale q e
  simp only [grid]
  rw [Nat.cast_mul, hscale]
  push_cast
  ring

theorem grid_value (e : ℤ) :
    ((f.grid c q e).value : ℚ) = 4 * c * 2 ^ (q - 2) * gridScale q e := by
  have hscale := @grid_scale q e
  simp only [grid]
  rw [Nat.cast_mul, hscale]
  push_cast
  ring

/-- A point of a grid that lies in the interval is rounded to the number. -/
theorem roundsTo_of_holds (hc : 0 < c) {e : ℤ} {d : Nat} (h : (f.grid c q e).holds d = true) :
    f.RoundsTo c q (d * 10 ^ e) := by
  have hscale := gridScale_pos q e
  have hpoint : ((d * (f.grid c q e).unit : ℕ) : ℚ) = d * 10 ^ e * gridScale q e := by
    rw [Nat.cast_mul, grid_unit, mul_assoc]
  rw [Grid.holds] at h
  -- without the common factor, the ends of the grid are those of the interval
  split at h
  · rename_i hclosed
    obtain ⟨hlow, hhigh⟩ := of_decide_eq_true h
    rw [← Nat.cast_le (α := ℚ), grid_lower hc, hpoint, mul_le_mul_iff_left₀ hscale] at hlow
    rw [← Nat.cast_le (α := ℚ), grid_upper, hpoint, mul_le_mul_iff_left₀ hscale] at hhigh
    refine ⟨hlow, hhigh, ?_⟩
    intro hodd
    have heven : c % 2 = 0 := by simpa [grid] using hclosed
    omega
  · obtain ⟨hlow, hhigh⟩ := of_decide_eq_true h
    rw [← Nat.cast_lt (α := ℚ), grid_lower hc, hpoint, mul_lt_mul_iff_left₀ hscale] at hlow
    rw [← Nat.cast_lt (α := ℚ), grid_upper, hpoint, mul_lt_mul_iff_left₀ hscale] at hhigh
    exact ⟨hlow.le, hhigh.le, fun _ => ⟨hlow, hhigh⟩⟩

/-- A grid that is fine enough is hit. -/
theorem exists_hit (hc : 0 < c) {e : ℤ} (he : (10 : ℚ) ^ e < 2 ^ (q - 1)) :
    ∃ d, (f.grid c q e).hit? = some d := by
  have hscale := gridScale_pos q e
  have hunit : (0 : ℚ) < (f.grid c q e).unit := by
    rw [grid_unit]
    positivity
  have hfine : (2 : ℚ) ^ (q - 1) = 2 * 2 ^ (q - 2) := by
    rw [mul_comm, ← zpow_add_one₀ two_ne_zero]
    congr 1
    ring
  have hstep : (10 : ℚ) ^ e * gridScale q e < 2 * 2 ^ (q - 2) * gridScale q e := by
    rw [← hfine]
    exact mul_lt_mul_of_pos_right he hscale
  apply Grid.exists_hit
  · exact_mod_cast hunit
  · rw [← Nat.cast_lt (α := ℚ), grid_lower hc, grid_value, mul_lt_mul_iff_left₀ hscale,
      mul_lt_mul_iff_left₀ (by positivity)]
    linarith [@reach_pos f c q]
  · rw [← Nat.cast_lt (α := ℚ)]
    push_cast
    rw [grid_value, grid_unit, grid_upper]
    linarith

/-- The search ends with a hit when one of its grids is hit. -/
theorem shortestFrom_holds {fuel k : Nat} {e : ℤ} (hk : k < fuel)
    (h : ∃ d, (f.grid c q (e - k)).hit? = some d) :
    (f.grid c q (f.shortestFrom c q fuel e).exponent).holds (f.shortestFrom c q fuel e).digits
      = true := by
  induction fuel generalizing k e with
  | zero => exact absurd hk (Nat.not_lt_zero k)
  | succ fuel ih =>
      rw [shortestFrom]
      split
      · rename_i d hhit
        exact Grid.holds_of_hit hhit
      · rename_i hnone
        cases k with
        | zero =>
            obtain ⟨d, hd⟩ := h
            rw [Nat.cast_zero, sub_zero, hnone] at hd
            cases hd
        | succ k =>
            apply ih (Nat.lt_of_succ_lt_succ hk)
            rw [sub_sub, add_comm 1]
            exact_mod_cast h

/-! ## Powers of ten and of two -/

theorem ten_pow_le (n : Nat) : 10 ^ n ≤ 2 ^ ((10 * n + 2) / 3) := by
  induction n using Nat.strongRecOn with
  | ind n ih =>
      match n with
      | 0 | 1 | 2 => decide
      | n + 3 =>
          have hexponent : (10 * (n + 3) + 2) / 3 = (10 * n + 2) / 3 + 10 := by omega
          calc 10 ^ (n + 3) = 10 ^ n * 1000 := by rw [pow_add]; norm_num
            _ ≤ 2 ^ ((10 * n + 2) / 3) * 1024 := Nat.mul_le_mul (ih n (by omega)) (by decide)
            _ = 2 ^ ((10 * (n + 3) + 2) / 3) := by rw [hexponent, pow_add]; norm_num

theorem two_pow_le (n : Nat) : 2 ^ (33 * n / 10) ≤ 10 ^ n := by
  induction n using Nat.strongRecOn with
  | ind n ih =>
      match n with
      | 0 | 1 | 2 | 3 | 4 | 5 | 6 | 7 | 8 | 9 => decide
      | n + 10 =>
          have hexponent : 33 * (n + 10) / 10 = 33 * n / 10 + 33 := by omega
          calc 2 ^ (33 * (n + 10) / 10) = 2 ^ (33 * n / 10) * 2 ^ 33 := by rw [hexponent, pow_add]
            _ ≤ 10 ^ n * 10 ^ 10 := Nat.mul_le_mul (ih n (by omega)) (by norm_num)
            _ = 10 ^ (n + 10) := by rw [pow_add]

/-- A power of ten below a power of two. -/
theorem ten_zpow_lt {e q : ℤ} (hpos : 0 ≤ e → (10 * e + 2) / 3 < q)
    (hneg : e < 0 → -q < 33 * -e / 10) : (10 : ℚ) ^ e < 2 ^ q := by
  rcases lt_or_ge e 0 with he | he
  · obtain ⟨n, rfl⟩ : ∃ n : ℕ, e = -n := ⟨(-e).toNat, by omega⟩
    have hpow : (2 : ℚ) ^ (33 * n / 10) ≤ 10 ^ n := by exact_mod_cast two_pow_le n
    have hexponent : -((33 * n / 10 : ℕ) : ℤ) < q := by
      have h := hneg he
      omega
    calc (10 : ℚ) ^ (-n : ℤ) = (10 ^ n)⁻¹ := by rw [zpow_neg, zpow_natCast]
      _ ≤ (2 ^ (33 * n / 10))⁻¹ := inv_anti₀ (by positivity) hpow
      _ = 2 ^ (-((33 * n / 10 : ℕ) : ℤ)) := by rw [zpow_neg, zpow_natCast]
      _ < 2 ^ q := zpow_lt_zpow_right₀ one_lt_two hexponent
  · obtain ⟨n, rfl⟩ : ∃ n : ℕ, e = n := ⟨e.toNat, by omega⟩
    have hpow : (10 : ℚ) ^ n ≤ 2 ^ ((10 * n + 2) / 3) := by exact_mod_cast ten_pow_le n
    have hexponent : (((10 * n + 2) / 3 : ℕ) : ℤ) < q := by
      have h := hpos he
      omega
    calc (10 : ℚ) ^ (n : ℤ) = 10 ^ n := zpow_natCast ..
      _ ≤ 2 ^ ((10 * n + 2) / 3) := hpow
      _ = 2 ^ (((10 * n + 2) / 3 : ℕ) : ℤ) := (zpow_natCast ..).symm
      _ < 2 ^ q := zpow_lt_zpow_right₀ one_lt_two hexponent

/-- A power of two that a power of ten reaches. -/
theorem two_zpow_le {e q : ℤ} (he : 0 ≤ e) (hq : q ≤ 33 * e / 10) : (2 : ℚ) ^ q ≤ 10 ^ e := by
  obtain ⟨n, rfl⟩ : ∃ n : ℕ, e = n := ⟨e.toNat, by omega⟩
  have hpow : (2 : ℚ) ^ (33 * n / 10) ≤ 10 ^ n := by exact_mod_cast two_pow_le n
  calc (2 : ℚ) ^ q ≤ 2 ^ ((33 * n / 10 : ℕ) : ℤ) := zpow_le_zpow_right₀ one_le_two (by omega)
    _ = 2 ^ (33 * n / 10) := zpow_natCast ..
    _ ≤ 10 ^ n := hpow
    _ = 10 ^ (n : ℤ) := (zpow_natCast ..).symm

end Format

/-! ## Digits -/

/-- The exponents of the finite numbers of 64 bits. -/
theorem double_exponent {c : Nat} {q : ℤ} (hnormal : double.Normal c q)
    (hfinite : double.pattern c q < double.infinityBits) : -1074 ≤ q ∧ q < 973 := by
  have hmin : double.minExponent = -1074 := by decide
  have hinfinity : double.infinityBits = 2047 * 2 ^ 52 := by decide
  have hle := hnormal.exponent_le
  rw [Format.pattern, hinfinity, hmin] at hfinite
  rw [hmin] at hle
  have hbits : double.fractionBits = 52 := rfl
  rw [hbits] at hfinite
  omega

theorem foldl_digits (ds : List Nat) (n : Nat) :
    ds.foldl (fun n d => 10 * n + d) n = n * 10 ^ ds.length + digitsToNat ds := by
  induction ds generalizing n with
  | nil => simp [digitsToNat]
  | cons d ds ih =>
      rw [List.foldl_cons, digitsToNat, List.foldl_cons, ih, ih (10 * 0 + d), List.length_cons,
        pow_succ]
      ring

theorem digitsToNat_cons (d : Nat) (ds : List Nat) :
    digitsToNat (d :: ds) = d * 10 ^ ds.length + digitsToNat ds := by
  rw [digitsToNat, List.foldl_cons, foldl_digits]
  simp

theorem digitsToNat_append (ds es : List Nat) :
    digitsToNat (ds ++ es) = digitsToNat ds * 10 ^ es.length + digitsToNat es := by
  rw [digitsToNat, List.foldl_append, foldl_digits]
  rfl

theorem digitsToNat_lt {ds : List Nat} (h : ∀ d ∈ ds, d < 10) :
    digitsToNat ds < 10 ^ ds.length := by
  induction ds with
  | nil => simp [digitsToNat]
  | cons d ds ih =>
      rw [List.forall_mem_cons] at h
      have hrest := ih h.2
      have hmul := Nat.mul_le_mul_right (10 ^ ds.length) (Nat.succ_le_of_lt h.1)
      rw [digitsToNat_cons, List.length_cons, pow_succ]
      rw [Nat.succ_mul] at hmul
      omega

/-- Zeros in front do not count. -/
theorem digitsToNat_dropWhile (ds : List Nat) :
    digitsToNat (ds.dropWhile (· == 0)) = digitsToNat ds := by
  induction ds with
  | nil => rfl
  | cons d ds ih =>
      by_cases hd : d = 0
      · rw [List.dropWhile_cons_of_pos (by simp [hd]), ih, digitsToNat_cons, hd]
        simp
      · rw [List.dropWhile_cons_of_neg (by simp [hd])]

/-- Digits without zeros in front have the magnitude that their number says. -/
theorem ten_pow_le_digitsToNat {ds : List Nat} (hne : ds.dropWhile (· == 0) ≠ []) :
    10 ^ ((ds.dropWhile (· == 0)).length - 1) ≤ digitsToNat ds := by
  rw [← digitsToNat_dropWhile]
  have hhead := List.head_dropWhile_not (· == 0) hne
  cases hds : ds.dropWhile (· == 0) with
  | nil => exact absurd hds hne
  | cons d es =>
      have hd : d ≠ 0 := by simpa [hds] using hhead
      rw [digitsToNat_cons, List.length_cons, Nat.add_sub_cancel]
      have hmul := Nat.mul_le_mul_right (10 ^ es.length) (Nat.one_le_iff_ne_zero.2 hd)
      omega

theorem dropWhile_ne_nil {ds : List Nat} (h : 0 < digitsToNat ds) :
    ds.dropWhile (· == 0) ≠ [] := by
  intro hnil
  rw [← digitsToNat_dropWhile, hnil] at h
  exact absurd h (Nat.lt_irrefl 0)

/-- A numeral lies below the power of ten that its digits reach up to. -/
theorem numeral_lt_zpow {ds : List Nat} (h : ∀ d ∈ ds, d < 10) (e : ℤ) :
    (digitsToNat ds : ℚ) * 10 ^ e < 10 ^ ((ds.dropWhile (· == 0)).length + e) := by
  have hlt : digitsToNat ds < 10 ^ (ds.dropWhile (· == 0)).length := by
    rw [← digitsToNat_dropWhile]
    exact digitsToNat_lt fun d hd => h d ((List.dropWhile_suffix _).subset hd)
  rw [zpow_add₀ (by norm_num), zpow_natCast, mul_lt_mul_iff_left₀ (by positivity)]
  exact_mod_cast hlt

/-- A numeral lies at or above the power of ten at which its first digit stands. -/
theorem zpow_le_numeral {ds : List Nat} (hne : ds.dropWhile (· == 0) ≠ []) (e : ℤ) :
    (10 : ℚ) ^ ((ds.dropWhile (· == 0)).length + e - 1) ≤ digitsToNat ds * 10 ^ e := by
  have hle := ten_pow_le_digitsToNat hne
  have hlength := List.length_pos_iff.2 hne
  rw [add_sub_right_comm, zpow_add₀ (by norm_num), ← Nat.cast_one, ← Nat.cast_sub hlength,
    zpow_natCast, mul_le_mul_iff_left₀ (by positivity)]
  exact_mod_cast hle

/-- What is rounded to a finite number other than zero has a magnitude within the reach of the
format. -/
theorem within_decimalReach {c : Nat} {q top : ℤ} {x : ℚ} (hnormal : double.Normal c q)
    (hc : 0 < c) (hfinite : double.pattern c q < double.infinityBits)
    (h : double.RoundsTo c q x) (habove : (10 : ℚ) ^ (top - 1) ≤ x) (hbelow : x < 10 ^ top) :
    -decimalReach ≤ top ∧ top ≤ decimalReach := by
  obtain ⟨hlow, hhigh⟩ := double_exponent hnormal hfinite
  have hleast := h.two_zpow_le hc
  have hmost := h.lt_two_zpow hnormal
  have hreach : decimalReach = 400 := rfl
  rw [hreach]
  constructor
  · -- `10 ^ -400` is far below half of the least number
    by_contra hsmall
    have hlt : (10 : ℚ) ^ top < 2 ^ (q - 1) := by
      apply Format.ten_zpow_lt
      · intro hpos
        omega
      · intro _
        omega
    linarith
  · -- `10 ^ 400` is far above the greatest
    by_contra hlarge
    have hbits : (double.fractionBits : ℤ) = 52 := rfl
    have hle : (2 : ℚ) ^ (52 + 1 + q) ≤ 10 ^ (top - 1) :=
      Format.two_zpow_le (by omega) (by omega)
    rw [hbits] at hmost
    linarith

/-- **Digits are read as the number to which they are rounded.** -/
theorem ofDigits_eq {c : Nat} {q : ℤ} {ds : List Nat} {e : ℤ} (hnormal : double.Normal c q)
    (hc : 0 < c) (hfinite : double.pattern c q < double.infinityBits) (hds : ∀ d ∈ ds, d < 10)
    (h : double.RoundsTo c q (digitsToNat ds * 10 ^ e)) :
    double.ofDigits ds e = double.pattern c q := by
  have hne : ds.dropWhile (· == 0) ≠ [] := by
    apply dropWhile_ne_nil
    have hpos : (0 : ℚ) < digitsToNat ds * 10 ^ e :=
      lt_of_lt_of_le (by positivity) (h.two_zpow_le hc)
    exact_mod_cast pos_of_mul_pos_left hpos (by positivity)
  obtain ⟨hbottom, htop⟩ := within_decimalReach hnormal hc hfinite h (zpow_le_numeral hne e)
    (numeral_lt_zpow hds e)
  have hmin := min_eq_left hfinite.le
  unfold Format.ofDigits
  dsimp only
  rw [if_neg, if_neg (not_lt.2 htop), digitsToNat_dropWhile]
  · split
    · rename_i he
      rw [← hmin]
      refine Format.roundRatio_eq hnormal hc Nat.one_pos ?_ h
      rw [Nat.cast_one, mul_one, Nat.pow_eq]
      push_cast
      rw [← zpow_natCast, Int.toNat_of_nonneg he]
    · rename_i he
      rw [← hmin]
      refine Format.roundRatio_eq hnormal hc (Nat.pow_pos (by decide)) ?_ h
      have hcancel := Format.zpow_mul_pow_toNat (a := 10) (by norm_num) e
      have hzero : e.toNat = 0 := by omega
      rw [hzero, pow_zero] at hcancel
      rw [Nat.pow_eq]
      push_cast
      rw [mul_assoc, hcancel, mul_one]
  · rintro (hempty | hlow)
    · rw [List.isEmpty_iff] at hempty
      exact hne hempty
    · exact absurd hbottom (not_le.2 hlow)

/-! ## The shortest numeral -/

/-- **The shortest numeral of a number of 64 bits is rounded to that number.** -/
theorem roundsTo_shortest {c : Nat} {q : ℤ} (hnormal : double.Normal c q) (hc : 0 < c)
    (hfinite : double.pattern c q < double.infinityBits) :
    double.RoundsTo c q ((double.shortest c q).digits * 10 ^ (double.shortest c q).exponent) := by
  obtain ⟨hlow, hhigh⟩ := double_exponent hnormal hfinite
  have hlog : c.log2 < 53 := (Nat.log2_lt hc.ne').2 hnormal.coefficient_lt
  apply Format.roundsTo_of_holds hc
  apply Format.shortestFrom_holds (k := 21) (by decide)
  apply Format.exists_hit hc
  apply Format.ten_zpow_lt
  · intro hpos
    push_cast at hpos ⊢
    omega
  · intro hneg
    push_cast at hneg ⊢
    omega

end RoundTrip.Binary
