import RoundTrip.Proofs.Json.Locality
import RoundTrip.Proofs.Text.Utf8

/-!
# The strings of JSON read back

Characters are written as they are or as escapes, and a stray byte as the escape of the replacement
character. The reader takes each of them for the bytes of the character (`spelled_charBytes`), so a
string is read back repaired: unchanged when it is UTF-8, and with shorter quotes otherwise.

Main statements: `stringRest_quote`, `quote_repaired_length`.
-/

set_option autoImplicit false

namespace RoundTrip.Json

open Utf8

/-! ## Pieces of strings -/

/-- Inside a string the bytes `piece` are read as the bytes `e`, whatever surrounds them. -/
def Spelled (piece e : Bytes) : Prop :=
  ∀ (k : Nat) (escaped : Bool) (done rest : Bytes), piece.length ≤ k →
    ∃ j escaped', k - piece.length ≤ j
      ∧ stringLoop true k escaped done (piece ++ rest)
        = stringLoop true j escaped' (e.reverse ++ done) rest

theorem spelled_nil : Spelled [] [] := fun k escaped _ _ _ => ⟨k, escaped, Nat.le_refl _, rfl⟩

theorem Spelled.append {p p' e e' : Bytes} (h : Spelled p e) (h' : Spelled p' e') :
    Spelled (p ++ p') (e ++ e') := by
  intro k escaped done rest hk
  rw [List.length_append] at hk
  obtain ⟨j, escaped₁, hj, hfront⟩ := h k escaped done (p' ++ rest) (by omega)
  obtain ⟨i, escaped₂, hi, hback⟩ := h' j escaped₁ (e.reverse ++ done) rest (by omega)
  refine ⟨i, escaped₂, by rw [List.length_append]; omega, ?_⟩
  rw [List.append_assoc, hfront, hback, List.reverse_append, List.append_assoc]

theorem spelled_flatMap {α : Type} {piece e : α → Bytes} (as : List α)
    (h : ∀ a ∈ as, Spelled (piece a) (e a)) : Spelled (as.flatMap piece) (as.flatMap e) := by
  induction as with
  | nil => exact spelled_nil
  | cons a as ih =>
      rw [List.forall_mem_cons] at h
      exact h.1.append (ih h.2)

/-- The bytes that a string may hold as they are. -/
def isPlain (b : UInt8) : Prop := 0x20 ≤ b ∧ b ≠ 0x22 ∧ b ≠ 0x5c

theorem spelled_byte {b : UInt8} (hb : isPlain b) : Spelled [b] [b] := by
  intro k escaped done rest hk
  obtain ⟨k, rfl⟩ : ∃ i, k = i + 1 := ⟨k - 1, by simp at hk; omega⟩
  refine ⟨k, escaped, by simp, ?_⟩
  obtain ⟨hcontrol, hquote, hslash⟩ := hb
  have hcontrol' : ¬ (true = true ∧ ¬ escaped = true ∧ b < 0x20) := by
    rintro ⟨-, -, hlt⟩
    exact absurd hcontrol (UInt8.not_le.2 hlt)
  rw [List.singleton_append, stringLoop, if_neg hquote, if_neg hslash, if_neg hcontrol']
  rfl

theorem spelled_plain {bs : Bytes} (h : ∀ b ∈ bs, isPlain b) : Spelled bs bs := by
  have hbytes : Spelled (bs.flatMap fun b => [b]) (bs.flatMap fun b => [b]) :=
    spelled_flatMap bs fun b hb => spelled_byte (h b hb)
  simpa using hbytes

theorem spelled_escape {tail e : Bytes} (h : ∀ rest, escape? (tail ++ rest) = some (e, rest)) :
    Spelled (0x5c :: tail) e := by
  intro k escaped done rest hk
  obtain ⟨k, rfl⟩ : ∃ i, k = i + 1 := ⟨k - 1, by simp at hk; omega⟩
  refine ⟨k, true, by simp, ?_⟩
  rw [List.cons_append, stringLoop, if_neg (by decide), if_pos rfl]
  simp only [h rest]

/-! ## Escapes by number -/

/-- The last digit of a padded number, and the number without it. -/
theorem pad_toDigits_succ {b : Nat} (hb : 1 < b) (n : Nat) {width : Nat} (hwidth : 1 ≤ width) :
    Text.pad (width + 1) (Nat.toDigits b n)
      = Text.pad width (Nat.toDigits b (n / b)) ++ [Nat.digitChar (n % b)] := by
  by_cases hn : n < b
  · obtain ⟨w, rfl⟩ : ∃ w, width = w + 1 := ⟨width - 1, by omega⟩
    rw [Nat.toDigits_of_lt_base hn, Nat.div_eq_of_lt hn, Nat.mod_eq_of_lt hn,
      Nat.toDigits_of_lt_base (by omega)]
    have hzero : Nat.digitChar 0 = '0' := rfl
    simp [Text.pad, hzero, List.replicate_succ']
  · rw [Nat.toDigits_of_base_le hb (by omega)]
    simp [Text.pad]

/-- The byte of a hexadecimal digit. -/
def hexByte (d : Nat) : UInt8 := UInt8.ofNat (Nat.digitChar d).toNat

theorem hexDigit?_hexByte {d : Nat} (h : d < 16) : hexDigit? (hexByte d) = some d := by
  have hdigits : ∀ d < 16, hexDigit? (hexByte d) = some d := by decide
  exact hdigits d h

theorem encode_hexDigit {d : Nat} (h : d < 16) : Utf8.encode (Nat.digitChar d) = [hexByte d] := by
  have hascii : ∀ d < 16, (Nat.digitChar d).toNat < 0x80 := by decide
  exact encode_ascii (hascii d h)

theorem numberEscape_eq {n : Nat} (h : n < 0x10000) :
    numberEscape n = [0x5c, 0x75, hexByte (n / 16 / 16 / 16), hexByte (n / 16 / 16 % 16),
      hexByte (n / 16 % 16), hexByte (n % 16)] := by
  have hdigits : Text.pad 4 (Nat.toDigits 16 n) = [Nat.digitChar (n / 16 / 16 / 16),
      Nat.digitChar (n / 16 / 16 % 16), Nat.digitChar (n / 16 % 16), Nat.digitChar (n % 16)] := by
    rw [pad_toDigits_succ (by decide) n (by decide), pad_toDigits_succ (by decide) _ (by decide),
      pad_toDigits_succ (by decide) _ (by decide), Nat.toDigits_of_lt_base (by omega)]
    rfl
  have hslash : Bytes.ofString "\\u" = [0x5c, 0x75] := by
    rw [Bytes.ofString_eq]
    rfl
  rw [numberEscape, Bytes.ofString_append, hslash, Text.paddedHex, hdigits, Bytes.ofString_ofList]
  simp only [List.flatMap_cons, List.flatMap_nil, List.cons_append, List.nil_append]
  rw [encode_hexDigit (by omega), encode_hexDigit (by omega), encode_hexDigit (by omega),
    encode_hexDigit (by omega)]
  rfl

theorem spelled_numberEscape {c : Char} (h : c.toNat < 0x10000) :
    Spelled (numberEscape c.toNat) (Utf8.encode c) := by
  rw [numberEscape_eq h]
  apply spelled_escape
  intro rest
  have hsurrogate : isSurrogate c.toNat = false := by
    have hvalid := toNat_valid c
    simp only [isSurrogate, decide_eq_false_iff_not]
    omega
  have hchar : unitBytes c.toNat = Utf8.encode c := by
    rw [unitBytes, hsurrogate, if_neg (by decide), Char.ofNat_toNat]
  have hhex : hex4? ([hexByte (c.toNat / 16 / 16 / 16), hexByte (c.toNat / 16 / 16 % 16),
      hexByte (c.toNat / 16 % 16), hexByte (c.toNat % 16)] ++ rest) = some (c.toNat, rest) := by
    simp only [List.cons_append, List.nil_append, hex4?]
    rw [hexDigit?_hexByte (by omega), hexDigit?_hexByte (by omega), hexDigit?_hexByte (by omega),
      hexDigit?_hexByte (by omega)]
    simp
    omega
  simp only [List.cons_append, List.nil_append] at hhex
  simp only [List.cons_append, List.nil_append, escape?, hhex, hsurrogate, hchar]
  rfl

/-! ## Characters -/

theorem le_of_mem_encode {c : Char} (hc : 0x80 ≤ c.toNat) {b : UInt8} (hb : b ∈ Utf8.encode c) :
    0x80 ≤ b.toNat := by
  rw [encode_eq, if_neg (by omega)] at hb
  split at hb
  · simp only [List.mem_cons, List.not_mem_nil, or_false] at hb
    rcases hb with rfl | rfl <;> rw [UInt8.toNat_ofNat'] <;> omega
  split at hb
  · simp only [List.mem_cons, List.not_mem_nil, or_false] at hb
    rcases hb with rfl | rfl | rfl <;> rw [UInt8.toNat_ofNat'] <;> omega
  · simp only [List.mem_cons, List.not_mem_nil, or_false] at hb
    rcases hb with rfl | rfl | rfl | rfl <;> rw [UInt8.toNat_ofNat'] <;> omega

/-- A character that needs no escape has plain bytes only. -/
theorem isPlain_of_mem_encode {c : Char} (hcontrol : 0x20 ≤ c.toNat) (hquote : c.toNat ≠ 0x22)
    (hslash : c.toNat ≠ 0x5c) {b : UInt8} (hb : b ∈ Utf8.encode c) : isPlain b := by
  have hbyte : 0x20 ≤ b.toNat ∧ b.toNat ≠ 0x22 ∧ b.toNat ≠ 0x5c := by
    by_cases hc : c.toNat < 0x80
    · rw [encode_ascii hc, List.mem_singleton] at hb
      rw [hb, UInt8.toNat_ofNat', Nat.mod_eq_of_lt (by omega)]
      exact ⟨hcontrol, hquote, hslash⟩
    · have hle := le_of_mem_encode (Nat.le_of_not_lt hc) hb
      omega
  refine ⟨UInt8.le_iff_toNat_le.2 hbyte.1, ?_, ?_⟩
  · rintro rfl
    exact hbyte.2.1 rfl
  · rintro rfl
    exact hbyte.2.2 rfl

/-- A character is read as it is written. -/
theorem spelled_charBytes (c : Char) : Spelled (charBytes c) (Utf8.encode c) := by
  unfold charBytes
  split
  · rename_i hc
    rcases hc with rfl | rfl
    · exact spelled_escape fun rest => rfl
    · exact spelled_escape fun rest => rfl
  rename_i hquote
  split
  · rename_i hc
    subst hc
    exact spelled_escape fun rest => rfl
  split
  · rename_i hc
    subst hc
    exact spelled_escape fun rest => rfl
  split
  · rename_i hc
    subst hc
    exact spelled_escape fun rest => rfl
  split
  · rename_i hc
    apply spelled_numberEscape
    rcases hc with hc | rfl | rfl | rfl | hc | hc
    · omega
    · decide
    · decide
    · decide
    · omega
    · omega
  · rename_i hc
    simp only [not_or] at hquote hc
    have hnot : ∀ {a : Char}, c ≠ a → c.toNat ≠ a.toNat := by
      intro a hne heq
      exact hne (Char.toNat_inj.1 heq)
    exact spelled_plain fun b hb =>
      isPlain_of_mem_encode (Nat.le_of_not_lt hc.1) (hnot hquote.1) (hnot hquote.2) hb

/-! ## Repaired strings -/

theorem repaired_eq (bs : Bytes) :
    repaired bs = ((glyphs bs).map Glyph.seen).flatMap Utf8.encode := by
  rw [repaired, List.flatMap_map]
  congr 1
  funext g
  cases g with
  | char c => rfl
  | stray b => rfl

theorem isValid_repaired (bs : Bytes) : isValid (repaired bs) = true :=
  isValid_iff.2 ⟨_, repaired_eq bs⟩

theorem repaired_of_isValid {bs : Bytes} (h : isValid bs = true) : repaired bs = bs := by
  obtain ⟨cs, rfl⟩ := isValid_iff.1 h
  rw [repaired_eq, glyphs_flatMap, List.map_map]
  congr 1
  exact List.map_id'' (fun c => rfl) cs

theorem spelled_glyphBytes (g : Glyph) : Spelled (glyphBytes g) (Utf8.encode g.seen) := by
  cases g with
  | char c => exact spelled_charBytes c
  | stray b => exact spelled_numberEscape (by decide)

/-- **A string is read back repaired**, after its opening quote. -/
theorem stringRest_quote (bs s : Bytes) {m : Nat} (hm : (quote bs).length ≤ m + 1) :
    ∃ body, quote bs = 0x22 :: body ∧ stringRest m true (body ++ s) = .ok (repaired bs, s) := by
  have hspelled : Spelled ((glyphs bs).flatMap glyphBytes) (repaired bs) := by
    rw [repaired_eq, List.flatMap_map]
    exact spelled_flatMap _ fun g _ => spelled_glyphBytes g
  rw [quote, List.length_cons, List.length_append, List.length_singleton] at hm
  refine ⟨_, rfl, ?_⟩
  obtain ⟨j, escaped, hj, hloop⟩ := hspelled m false [] (0x22 :: s) (by omega)
  obtain ⟨i, rfl⟩ : ∃ i, j = i + 1 := ⟨j - 1, by omega⟩
  rw [stringRest, List.append_assoc, List.singleton_append, hloop, stringLoop, if_pos rfl]
  simp

/-! ## Lengths -/

theorem length_charBytes_seen (g : Glyph) :
    (charBytes g.seen).length ≤ (glyphBytes g).length
      ∧ (g.isChar = false → (charBytes g.seen).length < (glyphBytes g).length) := by
  cases g with
  | char c => exact ⟨Nat.le_refl _, fun h => by cases h⟩
  | stray b =>
      -- the replacement character has three bytes, and its escape six
      have hshort : (charBytes replacement).length = 3 := by decide
      have hescape : (numberEscape replacement.toNat).length = 6 := by
        rw [numberEscape_eq (by decide)]
        rfl
      simp only [Glyph.seen, glyphBytes, hshort, hescape]
      exact ⟨by decide, fun _ => by decide⟩

theorem length_row_seen (gs : List Glyph) :
    (gs.flatMap fun g => charBytes g.seen).length ≤ (gs.flatMap glyphBytes).length
      ∧ (gs.all Glyph.isChar = false →
        (gs.flatMap fun g => charBytes g.seen).length
          < (gs.flatMap glyphBytes).length) := by
  induction gs with
  | nil => exact ⟨Nat.le_refl _, fun h => by cases h⟩
  | cons g gs ih =>
      have hg := length_charBytes_seen g
      simp only [List.flatMap_cons, List.length_append, List.all_cons]
      refine ⟨by omega, ?_⟩
      intro h
      rcases Bool.and_eq_false_iff.1 h with h | h
      · have hlt := hg.2 h
        omega
      · have hlt := ih.2 h
        omega

/-- **A repaired string is not written longer**, and shorter when it was not UTF-8 before. -/
theorem quote_repaired_length (bs : Bytes) :
    (quote (repaired bs)).length ≤ (quote bs).length
      ∧ (isValid bs = false → (quote (repaired bs)).length < (quote bs).length) := by
  have hrepaired : (quote (repaired bs)).length
      = ((glyphs bs).flatMap fun g => charBytes g.seen).length + 2 := by
    rw [quote, repaired_eq, glyphs_flatMap, List.flatMap_map, List.flatMap_map]
    simp [glyphBytes]
  have hquote : (quote bs).length = ((glyphs bs).flatMap glyphBytes).length + 2 := by
    simp [quote]
  have hrow := length_row_seen (glyphs bs)
  rw [hrepaired, hquote]
  refine ⟨by omega, ?_⟩
  intro h
  have hlt := hrow.2 h
  omega

end RoundTrip.Json
