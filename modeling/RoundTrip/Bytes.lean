/-!
# Byte strings

Every format of this library is read from and written to lists of bytes. This
module holds what all of them share: fixed-width numbers in both byte orders, and
cutting a given number of bytes off the front of an input.

Main facts:

- `toNat_bigEndian`: a number that fits reads back from its big-endian bytes;
- `bigEndian_toNat`: a byte string is written back from the number it stands for;
- `split_eq`: `split` succeeds exactly when enough bytes are left, and then gives
  the first bytes and the rest;
- `append_of_split`: nothing is lost or invented by a cut.
-/

set_option autoImplicit false

namespace RoundTrip

/-- A byte string. -/
abbrev Bytes := List UInt8

namespace Bytes

/-- The bytes of a text in UTF-8. -/
def ofString (s : String) : Bytes := s.toUTF8.data.toList

/-! ## Fixed-width numbers -/

/-- The lowest `width` bytes of `n`, most significant first. -/
def bigEndian : Nat → Nat → Bytes
  | 0, _ => []
  | width + 1, n => UInt8.ofNat (n / Nat.pow 256 width) :: bigEndian width n

/-- The lowest `width` bytes of `n`, least significant first. -/
def littleEndian : Nat → Nat → Bytes
  | 0, _ => []
  | width + 1, n => UInt8.ofNat n :: littleEndian width (n / 256)

/-- The number whose big-endian digits are the given bytes. -/
def toNat (bs : Bytes) : Nat := bs.foldl (fun acc b => acc * 256 + b.toNat) 0

/-- The number whose little-endian digits are the given bytes. -/
def toNatLittle (bs : Bytes) : Nat := bs.foldr (fun b acc => acc * 256 + b.toNat) 0

/-- The lowest `width` bytes of `n` in front of others, most significant first. -/
def ofNatLoop : (width : Nat) → Nat → Bytes → Bytes
  | 0, _, bs => bs
  | width + 1, n, bs => ofNatLoop width (n / 256) (UInt8.ofNat n :: bs)

/-- The big-endian bytes of a number without leading zeros. -/
def ofNat (n : Nat) : Bytes := if n = 0 then [] else ofNatLoop (n.log2 / 8 + 1) n []

@[simp] theorem length_bigEndian (width n : Nat) : (bigEndian width n).length = width := by
  induction width with
  | zero => rfl
  | succ width ih => simp [bigEndian, ih]

/-- Reading digits after an accumulated value shifts that value to the left. -/
theorem foldl_toNat (bs : Bytes) (acc : Nat) :
    bs.foldl (fun acc b => acc * 256 + b.toNat) acc
      = acc * Nat.pow 256 bs.length + toNat bs := by
  induction bs generalizing acc with
  | nil => simp [toNat]
  | cons b bs ih =>
      simp only [List.foldl_cons, toNat, List.length_cons]
      rw [ih, ih (0 * 256 + b.toNat)]
      simp only [Nat.zero_mul, Nat.zero_add, Nat.pow_eq, Nat.pow_succ, Nat.add_mul]
      rw [Nat.mul_assoc, Nat.mul_comm 256, Nat.add_assoc]

/-- A number below `256 ^ width` reads back from its big-endian bytes. -/
theorem toNat_bigEndian (width n : Nat) : toNat (bigEndian width n) = n % Nat.pow 256 width := by
  induction width with
  | zero => simp [bigEndian, toNat, Nat.mod_one]
  | succ width ih =>
      have h : toNat (bigEndian (width + 1) n)
          = (UInt8.ofNat (n / Nat.pow 256 width)).toNat * Nat.pow 256 width
            + n % Nat.pow 256 width := by
        have step := foldl_toNat (bigEndian width n) (UInt8.ofNat (n / Nat.pow 256 width)).toNat
        rw [length_bigEndian, ih] at step
        simpa [bigEndian, toNat] using step
      rw [h, Nat.pow_eq, Nat.pow_eq, Nat.pow_succ, Nat.mod_mul]
      simp [Nat.mul_comm, Nat.add_comm]

/-- The first byte of a string is its most significant digit. -/
theorem toNat_cons (b : UInt8) (bs : Bytes) :
    toNat (b :: bs) = b.toNat * Nat.pow 256 bs.length + toNat bs := by
  have h := foldl_toNat bs (0 * 256 + b.toNat)
  rw [Nat.zero_mul, Nat.zero_add] at h
  simpa [toNat] using h

theorem toNat_append (as bs : Bytes) :
    toNat (as ++ bs) = toNat as * Nat.pow 256 bs.length + toNat bs := by
  rw [toNat, List.foldl_append, foldl_toNat]
  rfl

/-- A string of `n` bytes stands for a number below `256 ^ n`. -/
theorem toNat_lt (bs : Bytes) : toNat bs < Nat.pow 256 bs.length := by
  induction bs with
  | nil => simp [toNat]
  | cons b bs ih =>
      have hb : b.toNat + 1 ≤ 256 := b.toNat_lt
      have hmul := Nat.mul_le_mul_right (Nat.pow 256 bs.length) hb
      rw [toNat_cons, List.length_cons]
      simp only [Nat.pow_eq, Nat.pow_succ, Nat.add_mul, Nat.one_mul] at ih hmul ⊢
      omega

/-- Digits above the lowest `width` ones are not written. -/
theorem bigEndian_add_mul (width k n : Nat) :
    bigEndian width (k * Nat.pow 256 width + n) = bigEndian width n := by
  induction width generalizing k with
  | zero => rfl
  | succ width ih =>
      have hpos : 0 < 256 ^ width := Nat.pow_pos (by omega)
      have hsplit : k * Nat.pow 256 (width + 1) + n = k * 256 * Nat.pow 256 width + n := by
        simp only [Nat.pow_eq, Nat.pow_succ, Nat.mul_assoc, Nat.mul_comm 256]
      rw [hsplit, bigEndian, bigEndian, ih (k * 256)]
      simp only [Nat.pow_eq]
      rw [Nat.add_comm, Nat.add_mul_div_right _ _ hpos]
      congr 1
      apply UInt8.toNat_inj.1
      simp

/-- A byte string is written back from the number it stands for. -/
theorem bigEndian_toNat (bs : Bytes) : bigEndian bs.length (toNat bs) = bs := by
  induction bs with
  | nil => rfl
  | cons b bs ih =>
      have hpos : 0 < 256 ^ bs.length := Nat.pow_pos (by omega)
      have hlt := toNat_lt bs
      rw [toNat_cons, List.length_cons, bigEndian, bigEndian_add_mul, ih]
      simp only [Nat.pow_eq] at hlt ⊢
      rw [Nat.add_comm, Nat.add_mul_div_right _ _ hpos, Nat.div_eq_of_lt hlt, Nat.zero_add,
        UInt8.ofNat_toNat]

/-- A number below `256 ^ width` reads back from its little-endian bytes. -/
theorem toNatLittle_littleEndian (width n : Nat) :
    toNatLittle (littleEndian width n) = n % Nat.pow 256 width := by
  induction width generalizing n with
  | zero => simp [littleEndian, toNatLittle, Nat.mod_one]
  | succ width ih =>
      have hcons : toNatLittle (littleEndian (width + 1) n)
          = toNatLittle (littleEndian width (n / 256)) * 256 + (UInt8.ofNat n).toNat := rfl
      rw [hcons, ih, Nat.pow_eq, Nat.pow_eq, Nat.pow_succ, Nat.mul_comm (256 ^ width),
        Nat.mod_mul, UInt8.toNat_ofNat']
      omega

theorem toNat_ofNatLoop (width n : Nat) (bs : Bytes) :
    toNat (ofNatLoop width n bs) = n % Nat.pow 256 width * Nat.pow 256 bs.length + toNat bs := by
  induction width generalizing n bs with
  | zero => simp [ofNatLoop, Nat.mod_one]
  | succ width ih =>
      have hmod : n % 256 ^ (width + 1) = n % 256 + 256 * (n / 256 % 256 ^ width) := by
        rw [Nat.pow_succ, Nat.mul_comm, Nat.mod_mul]
      have hbyte : (UInt8.ofNat n).toNat = n % 256 := UInt8.toNat_ofNat'
      rw [ofNatLoop, ih, toNat_cons, List.length_cons, hbyte]
      simp only [Nat.pow_eq]
      rw [hmod, Nat.pow_succ, Nat.add_mul, Nat.mul_comm (256 ^ bs.length), ← Nat.mul_assoc,
        Nat.mul_comm (n / 256 % 256 ^ width)]
      omega

/-- A number reads back from its bytes without leading zeros. -/
theorem toNat_ofNat (n : Nat) : toNat (ofNat n) = n := by
  unfold ofNat
  split
  · rename_i hzero
    rw [hzero]
    rfl
  · have hlt : n < 2 ^ (8 * (n.log2 / 8 + 1)) := by
      have hlog := Nat.lt_log2_self (n := n)
      exact Nat.lt_of_lt_of_le hlog (Nat.pow_le_pow_right (by omega) (by omega))
    have hmod : n % Nat.pow 256 (n.log2 / 8 + 1) = n := by
      apply Nat.mod_eq_of_lt
      rwa [Nat.pow_mul] at hlt
    rw [toNat_ofNatLoop, hmod]
    simp [toNat]

theorem length_ofNatLoop (width n : Nat) (bs : Bytes) :
    (ofNatLoop width n bs).length = width + bs.length := by
  induction width generalizing n bs with
  | zero => simp [ofNatLoop]
  | succ width ih =>
      rw [ofNatLoop, ih, List.length_cons]
      omega

/-- No bytes that stand for a number are fewer than those without leading zeros. -/
theorem length_ofNat_toNat_le (bs : Bytes) : (ofNat (toNat bs)).length ≤ bs.length := by
  unfold ofNat
  split
  · exact Nat.zero_le _
  · rename_i hne
    have hlt : toNat bs < 2 ^ (8 * bs.length) := by
      rw [Nat.pow_mul]
      exact toNat_lt bs
    have hlog := (Nat.log2_lt hne).2 hlt
    rw [length_ofNatLoop, List.length_nil]
    omega

/-! ## Cutting off the front -/

/-- The next `n` bytes of an input, put behind those already collected (in reverse),
and what is left. -/
def splitLoop : Nat → Bytes → Bytes → Option (Bytes × Bytes)
  | 0, taken, rest => some (taken.reverse, rest)
  | _ + 1, _, [] => none
  | n + 1, taken, b :: rest => splitLoop n (b :: taken) rest

/-- The first `n` bytes and the rest, when there are that many. -/
def split (n : Nat) (bs : Bytes) : Option (Bytes × Bytes) := splitLoop n [] bs

theorem splitLoop_eq (n : Nat) (taken bs : Bytes) :
    splitLoop n taken bs =
      if n ≤ bs.length then some (taken.reverse ++ bs.take n, bs.drop n) else none := by
  induction n generalizing taken bs with
  | zero => simp [splitLoop]
  | succ n ih =>
      cases bs with
      | nil => simp [splitLoop]
      | cons b bs =>
          rw [splitLoop, ih]
          simp only [List.length_cons, Nat.add_le_add_iff_right, List.reverse_cons,
            List.append_assoc, List.cons_append, List.nil_append, List.take_succ_cons,
            List.drop_succ_cons]

theorem split_eq (n : Nat) (bs : Bytes) :
    split n bs = if n ≤ bs.length then some (bs.take n, bs.drop n) else none := by
  simp [split, splitLoop_eq]

/-- A cut keeps every byte, and its first part has the length asked for. -/
theorem append_of_split {n : Nat} {bs head rest : Bytes} (h : split n bs = some (head, rest)) :
    bs = head ++ rest ∧ head.length = n := by
  rw [split_eq] at h
  split at h
  · simp only [Option.some.injEq, Prod.mk.injEq] at h
    obtain ⟨rfl, rfl⟩ := h
    simp; omega
  · simp at h

/-- Cutting as many bytes as a string has gives back the string and what follows it. -/
theorem split_append (head rest : Bytes) :
    split head.length (head ++ rest) = some (head, rest) := by
  simp [split_eq]

/-! ## Order -/

/-- Byte strings in dictionary order, a string before its extensions. -/
def le : Bytes → Bytes → Bool
  | [], _ => true
  | _ :: _, [] => false
  | a :: as, b :: bs => if a = b then le as bs else decide (a < b)

end Bytes

end RoundTrip
