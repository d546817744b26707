import RoundTrip.Calendar.Timestamp
import RoundTrip.Proofs.Binary.Shortest
import RoundTrip.Proofs.Text.Utf8

/-!
# Lengths of timestamps

The text of an instant has a bounded length when its nanoseconds and its offset are bounded, and
those of an instant that is read or counted from 1970 are. The date needs no bound: what clocks
show is a word of seconds, so the year of every instant has few digits.

Main statements: `Timestamp.length_write`, `Timestamp.read?_writable`.
-/

set_option autoImplicit false

namespace RoundTrip

/-! ## Instants -/

/-- Less than a second of nanoseconds, and an offset of no more than 25 hours. -/
structure Instant.Writable (t : Instant) : Prop where
  nanos_lt : t.nanos < perSecond
  offset_le : t.zone.offset.natAbs ≤ 90000

theorem Instant.writable_ofUnix (seconds nanos : Int) :
    (ofUnix seconds nanos .machine).Writable := by
  refine ⟨?_, Nat.zero_le _⟩
  have hpos : (0 : Int) < perSecond := by decide
  have hlt := Int.fmod_lt_of_pos nanos hpos
  have hnonneg := Int.fmod_nonneg_of_pos nanos hpos
  rw [ofUnix]
  dsimp only
  omega

/-- The date of a day has a year of no more than twenty digits, and so have its month and day. -/
theorem Date.ofDays_lt {days : Int} (h : days.natAbs < 10 ^ 18) :
    (Date.ofDays days).year.natAbs < 10 ^ 20 ∧ (Date.ofDays days).month < 10 ^ 20
      ∧ (Date.ofDays days).day < 10 ^ 20 := by
  have hcycle : (0 : Int) < cycle := by decide
  have hera := Int.fdiv_eq_ediv_of_nonneg (days + epochShift) hcycle.le
  have hday : ((days + epochShift).fmod cycle).toNat < 146097 := by
    have hlt := Int.fmod_lt_of_pos (days + epochShift) hcycle
    have hnonneg := Int.fmod_nonneg_of_pos (days + epochShift) hcycle
    rw [cycle] at hlt hnonneg ⊢
    omega
  unfold ofDays
  dsimp only
  rw [hera]
  generalize ((days + epochShift).fmod cycle).toNat = d at hday
  -- nothing but the number of cycles grows with the days
  have hyear : (d - d / 1460 + d / 36524 - d / 146096) / 365 < 300000 := by omega
  generalize (d - d / 1460 + d / 36524 - d / 146096) / 365 = year at hyear
  have hdayOfYear : d - (365 * year + year / 4 - year / 100) < 300000 := by omega
  generalize d - (365 * year + year / 4 - year / 100) = day at hdayOfYear
  have hmonth : (5 * day + 2) / 153 < 300000 := by omega
  generalize (5 * day + 2) / 153 = month at hmonth
  rw [cycle, epochShift]
  refine ⟨?_, ?_, ?_⟩
  · split <;> split <;> omega
  · split <;> omega
  · omega

namespace Timestamp

/-! ## Lengths -/

theorem length_paddedDecimal {width n : Nat} (hn : n < 10 ^ 20) (hwidth : width ≤ 20) :
    (Text.paddedDecimal width n).toList.length ≤ 20 := by
  have hlength := (Nat.length_toDigits_le_iff (b := 10) (by decide) (by decide)).2 hn
  rw [Text.paddedDecimal, Text.pad, String.toList_ofList, List.length_append,
    List.length_replicate]
  omega

theorem length_writeFraction {nanos : Nat} (h : nanos < Instant.perSecond) :
    (writeFraction nanos).toList.length ≤ 20 := by
  unfold writeFraction
  split
  · simp
  · have hlength : (Nat.toDigits 10 nanos).length ≤ 9 :=
      (Nat.length_toDigits_le_iff (by decide) (by decide)).2 h
    have hpad : (Text.pad 9 (Nat.toDigits 10 nanos)).length ≤ 9 := by
      rw [Text.pad, List.length_append, List.length_replicate]
      omega
    have hle := (List.dropWhile_suffix (· == '0')
      (l := (Text.pad 9 (Nat.toDigits 10 nanos)).reverse)).length_le
    have hpoint : ".".toList.length = 1 := rfl
    rw [List.length_reverse] at hle
    simp only [String.toList_append, String.toList_ofList, List.length_append, List.length_reverse]
    omega

theorem length_writeOffset {offset : Int} (h : offset.natAbs ≤ 90000) :
    (writeOffset offset).toList.length ≤ 50 := by
  unfold writeOffset
  split
  · simp
  · have hminutes : (offset.tdiv 60).natAbs ≤ 90000 := by
      rw [Int.natAbs_tdiv]
      exact Nat.le_trans (Nat.div_le_self _ _) h
    have htwo : ∀ n, n < 10 ^ 20 → (Text.paddedDecimal 2 n).toList.length ≤ 20 := fun n hn =>
      length_paddedDecimal hn (by decide)
    have hhours := htwo ((offset.tdiv 60).natAbs / 60) (by omega)
    have hrest := htwo ((offset.tdiv 60).natAbs % 60) (by omega)
    have hsign : (if offset.tdiv 60 < 0 then "-" else "+").toList.length = 1 := by
      split <;> rfl
    have hcolon : ":".toList.length = 1 := rfl
    simp only [String.toList_append, List.length_append]
    omega

theorem length_signedDecimal {n : Int} (h : n.natAbs < 10 ^ 20) :
    (signedDecimal 4 n).toList.length ≤ 21 := by
  have hdigits : (Text.paddedDecimal 4 n.natAbs).toList.length ≤ 20 :=
    length_paddedDecimal h (by decide)
  have hsign : (if n < 0 then "-" else "").toList.length ≤ 1 := by
    split <;> decide
  rw [signedDecimal, String.toList_append, List.length_append]
  omega

/-- **A timestamp is short.** The seconds that clocks show are a word counted from the earliest
moment, so the date is bounded for every instant. -/
theorem length_write {t : Instant} (h : t.Writable) : (write t).toList.length ≤ 300 := by
  have hword : (0 : Int) < wordCount := by decide
  have hlow := Int.emod_nonneg (t.seconds + t.zone.offset + Instant.absoluteShift) hword.ne'
  have hhigh := Int.emod_lt_of_pos (t.seconds + t.zone.offset + Instant.absoluteShift) hword
  have hshift : Instant.absoluteShift = 9223372028741760000 := by decide
  have hday : (0 : Int) < daySeconds := by decide
  unfold write
  dsimp only [Instant.civil]
  generalize (t.seconds + t.zone.offset + Instant.absoluteShift) % wordCount = shown at hlow hhigh
  rw [hshift]
  have hdays := Int.fdiv_eq_ediv_of_nonneg (shown - 9223372028741760000) hday.le
  have hsecond : ((shown - 9223372028741760000).fmod daySeconds).toNat < 86400 := by
    have hlt := Int.fmod_lt_of_pos (shown - 9223372028741760000) hday
    have hnonneg := Int.fmod_nonneg_of_pos (shown - 9223372028741760000) hday
    simp only [daySeconds] at hlt hnonneg ⊢
    omega
  have hbound : ((shown - 9223372028741760000).fdiv daySeconds).natAbs < 10 ^ 18 := by
    rw [hdays]
    simp only [daySeconds, wordCount] at hhigh ⊢
    omega
  generalize ((shown - 9223372028741760000).fmod daySeconds).toNat = second at hsecond
  generalize (shown - 9223372028741760000).fdiv daySeconds = days at hbound
  obtain ⟨hyear, hmonth, hday⟩ := Date.ofDays_lt hbound
  have htwo : ∀ n, n < 10 ^ 20 → (Text.paddedDecimal 2 n).toList.length ≤ 20 := fun n hn =>
    length_paddedDecimal hn (by decide)
  have hyear' := length_signedDecimal hyear
  have hmonth' := htwo _ hmonth
  have hday' := htwo _ hday
  have hhour := htwo (second / 3600) (by omega)
  have hminute := htwo (second / 60 % 60) (by omega)
  have hsec := htwo (second % 60) (by omega)
  have hfraction := length_writeFraction h.nanos_lt
  have hoffset := length_writeOffset h.offset_le
  have hmark : "-".toList.length = 1 ∧ "T".toList.length = 1 ∧ ":".toList.length = 1 :=
    ⟨rfl, rfl, rfl⟩
  simp only [String.toList_append, List.length_append]
  omega

/-! ## Reading -/

theorem digit?_lt {b : UInt8} {d : Nat} (h : digit? b = some d) : d < 10 := by
  unfold digit? at h
  split at h
  · rename_i hb
    obtain ⟨-, hle⟩ := hb
    have hle' := UInt8.le_iff_toNat_le.1 hle
    obtain rfl := Option.some.inj h
    simp only [UInt8.reduceToNat] at hle'
    omega
  · cases h

theorem digitRun_lt {done : List Nat} {bs : Bytes} (hdone : ∀ d ∈ done, d < 10) :
    ∀ d ∈ (digitRun done bs).1, d < 10 := by
  fun_induction digitRun done bs with
  | case1 done b rest d hd ih => exact ih (List.forall_mem_cons.2 ⟨digit?_lt hd, hdone⟩)
  | case2 done b rest hnone => exact fun d hd => hdone d (List.mem_reverse.1 hd)
  | case3 done => exact fun d hd => hdone d (List.mem_reverse.1 hd)

theorem fraction_lt (bs : Bytes) : (fraction bs).1 < Instant.perSecond := by
  have hpos : 0 < Instant.perSecond := by decide
  cases bs with
  | nil => exact hpos
  | cons m rest =>
      unfold fraction
      dsimp only
      by_cases hm : m = 0x2e ∨ m = 0x2c
      · rw [if_pos hm]
        rcases hrun : digitRun [] rest with ⟨ds, tail⟩
        cases ds with
        | nil => exact hpos
        | cons d ds =>
            have hrun' : ∀ x ∈ d :: ds, x < 10 := by
              have hlt : ∀ x ∈ (digitRun [] rest).1, x < 10 := digitRun_lt (by simp)
              rwa [hrun] at hlt
            have hlength : ((d :: ds).take 9).length ≤ 9 := List.length_take_le 9 _
            have hlt : Binary.digitsToNat ((d :: ds).take 9) < 10 ^ ((d :: ds).take 9).length :=
              Binary.digitsToNat_lt fun x hx => hrun' x (List.mem_of_mem_take hx)
            calc Binary.digitsToNat ((d :: ds).take 9) * 10 ^ (9 - ((d :: ds).take 9).length)
              _ < 10 ^ ((d :: ds).take 9).length * 10 ^ (9 - ((d :: ds).take 9).length) :=
                  Nat.mul_lt_mul_of_pos_right hlt (Nat.pow_pos (by decide))
              _ = 10 ^ 9 := by rw [← pow_add, Nat.add_sub_cancel' hlength]
      · rw [if_neg hm]
        exact hpos

theorem number_le {n least greatest : Nat} {bs rest : Bytes} {value : Nat}
    (h : number n least greatest bs = some (value, rest)) : value ≤ greatest := by
  simp only [number, Option.bind_eq_bind, Option.bind_eq_some_iff] at h
  obtain ⟨⟨v, tail⟩, -, h⟩ := h
  dsimp only at h
  split at h
  · rename_i hbounds
    cases h
    exact hbounds.2
  · cases h

theorem zoneOfOffset_offset (offset : Int) : (zoneOfOffset offset).offset = offset := by
  unfold zoneOfOffset
  split
  · rename_i hzero
    rw [hzero]
    rfl
  · rfl

theorem zone_offset_le {bs rest : Bytes} {z : Zone} (h : zone bs = some (z, rest)) :
    z.offset.natAbs ≤ 90000 := by
  unfold zone at h
  split at h
  · cases h
    exact Nat.zero_le _
  · rename_i sign tail _
    simp only [Option.bind_eq_bind, Option.bind_eq_some_iff] at h
    obtain ⟨⟨hours, _⟩, hhours, _, -, ⟨minutes, _⟩, hminutes, h⟩ := h
    have hhours' := number_le hhours
    have hminutes' := number_le hminutes
    dsimp only at h hhours' hminutes'
    split at h
    · cases h
      rw [zoneOfOffset_offset]
      omega
    split at h
    · cases h
      rw [zoneOfOffset_offset]
      omega
    · cases h
  · cases h

/-- **An instant that is read can be written in few bytes.** -/
theorem read?_writable {bs : Bytes} {t : Instant} (h : read? bs = some t) : t.Writable := by
  simp only [read?, Option.bind_eq_bind, Option.bind_eq_some_iff] at h
  obtain ⟨_, -, _, -, _, -, _, -, _, -, _, -, _, -, _, -, _, -, _, -, ⟨second, tail⟩, -,
    ⟨z, rest⟩, hzone, h⟩ := h
  dsimp only at h hzone
  split at h
  · obtain rfl := Option.some.inj h
    exact ⟨fraction_lt tail, zone_offset_le hzone⟩
  · cases h

end Timestamp

/-! ## Bytes -/

theorem Bytes.length_ofString_le (s : String) : (ofString s).length ≤ 4 * s.toList.length := by
  rw [ofString_eq]
  induction s.toList with
  | nil => simp
  | cons c cs ih =>
      have hc : (Utf8.encode c).length ≤ 4 := by
        rw [Utf8.encode_eq]
        split
        · simp
        split
        · simp
        split
        · simp
        · simp
      rw [List.flatMap_cons, List.length_append, List.length_cons]
      omega

end RoundTrip
