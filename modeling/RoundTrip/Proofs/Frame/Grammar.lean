import Mathlib.Data.Nat.Digits.Defs
import RoundTrip.Proofs.Frame.Encoding

/-!
# The grammar of frames

The format of frames as a grammar of byte strings, without a reader or a writer: length fields are
numerals to the base 256, and a word is put together from fields and contents.

Main statement: `decode_ok_iff_word`, the codec accepts exactly the words of the grammar.
-/

set_option autoImplicit false

namespace RoundTrip.Frame

open Bytes

/-! ## Words -/

/-- The field `field` has `width` bytes, which are the digits of `n` to the base 256, the most
significant one first. -/
structure Numeral (width n : Nat) (field : Bytes) : Prop where
  length_eq : field.length = width
  value_eq : Nat.ofDigits 256 (field.reverse.map UInt8.toNat) = n

/-- An item: `klen | key | vlen | payload`, with a key of at least one byte. -/
inductive ItemWord : Bytes → Prop
  | mk {klen key vlen payload : Bytes} :
      Numeral 2 key.length klen → 1 ≤ key.length → Numeral 4 payload.length vlen →
        ItemWord (klen ++ key ++ vlen ++ payload)

/-- A frame: `01 | vlen | payload`, or `02 | n |` and `n` items. -/
inductive Word : Bytes → Prop
  | single {vlen payload : Bytes} :
      Numeral 4 payload.length vlen → Word (0x01 :: (vlen ++ payload))
  | batch {count : Bytes} {items : List Bytes} :
      Numeral 4 items.length count → (∀ w ∈ items, ItemWord w) →
        Word (0x02 :: (count ++ items.flatten))

/-! ## Numerals -/

theorem ofDigits_eq_toNat (field : Bytes) :
    Nat.ofDigits 256 (field.reverse.map UInt8.toNat) = toNat field := by
  rw [List.map_reverse]
  induction field with
  | nil => rfl
  | cons b field ih =>
      rw [List.map_cons, Nat.ofDigits_reverse_cons, ih, List.length_map, toNat_cons, Nat.pow_eq,
        Nat.mul_comm, Nat.add_comm]

/-- A field spells a number when it is what the number is written as. -/
theorem numeral_iff {width n : Nat} {field : Bytes} :
    Numeral width n field ↔ n < Nat.pow 256 width ∧ field = bigEndian width n := by
  constructor
  · rintro ⟨rfl, rfl⟩
    rw [ofDigits_eq_toNat]
    exact ⟨toNat_lt field, (bigEndian_toNat field).symm⟩
  · rintro ⟨hlt, rfl⟩
    refine ⟨length_bigEndian width n, ?_⟩
    rw [ofDigits_eq_toNat, toNat_bigEndian, Nat.mod_eq_of_lt hlt]

/-! ## Words are encodings -/

theorem itemWord_iff {w : Bytes} : ItemWord w ↔ ∃ it : Item, it.Fits ∧ it.encode = w := by
  constructor
  · rintro ⟨hklen, hpos, hvlen⟩
    rename_i klen key vlen payload
    obtain ⟨hlt₁, rfl⟩ := numeral_iff.1 hklen
    obtain ⟨hlt₂, rfl⟩ := numeral_iff.1 hvlen
    simp only [Nat.pow_eq] at hlt₁ hlt₂
    refine ⟨⟨key, some payload⟩, ⟨hpos, ?_, ?_⟩, rfl⟩
    · simp only [maxKeyLength]
      omega
    · simp only [maxLength, contents_some]
      omega
  · rintro ⟨it, ⟨hpos, hkey, hpayload⟩, rfl⟩
    simp only [maxKeyLength, maxLength] at hkey hpayload
    refine .mk (numeral_iff.2 ⟨?_, rfl⟩) hpos (numeral_iff.2 ⟨?_, rfl⟩)
    · simp only [Nat.pow_eq]
      omega
    · simp only [Nat.pow_eq]
      omega

/-- Words of items that stand one behind the other are the encodings of a list of items. -/
theorem forall_itemWord {ws : List Bytes} (h : ∀ w ∈ ws, ItemWord w) :
    ∃ its : List Item, (∀ it ∈ its, it.Fits) ∧ its.map Item.encode = ws := by
  induction ws with
  | nil => exact ⟨[], by simp⟩
  | cons w ws ih =>
      rw [List.forall_mem_cons] at h
      obtain ⟨it, hfits, rfl⟩ := itemWord_iff.1 h.1
      obtain ⟨its, hits, rfl⟩ := ih h.2
      exact ⟨it :: its, List.forall_mem_cons.2 ⟨hfits, hits⟩, rfl⟩

/-- The words of the grammar are the encodings of frames. -/
theorem word_iff {bs : Bytes} : Word bs ↔ ∃ f : Frame, f.Encodable ∧ f.encode = bs := by
  constructor
  · intro h
    cases h with
    | @single vlen payload hvlen =>
        obtain ⟨hlt, rfl⟩ := numeral_iff.1 hvlen
        simp only [Nat.pow_eq] at hlt
        refine ⟨⟨.single, some payload, none⟩, .single ?_, rfl⟩
        simp only [maxLength, contents_some]
        omega
    | @batch count items hcount hitems =>
        obtain ⟨its, hits, rfl⟩ := forall_itemWord hitems
        rw [List.length_map] at hcount
        obtain ⟨hlt, rfl⟩ := numeral_iff.1 hcount
        simp only [Nat.pow_eq] at hlt
        refine ⟨⟨.batch, none, some its⟩, .batch ?_ hits, ?_⟩
        · simp only [maxLength, Option.getD_some]
          omega
        · rw [← List.flatMap_def]
          rfl
  · rintro ⟨f, hencodable, rfl⟩
    cases hencodable with
    | @single payload hlength =>
        simp only [maxLength] at hlength
        have hvlen : Numeral 4 (contents payload).length
            (bigEndian 4 (contents payload).length) := by
          refine numeral_iff.2 ⟨?_, rfl⟩
          simp only [Nat.pow_eq]
          omega
        exact Word.single hvlen
    | @batch items hcount hits =>
        simp only [maxLength] at hcount
        have hword : Word (0x02 :: (bigEndian 4 (items.getD []).length
            ++ ((items.getD []).map Item.encode).flatten)) := by
          refine .batch (numeral_iff.2 ⟨?_, by rw [List.length_map]⟩) ?_
          · rw [List.length_map]
            simp only [Nat.pow_eq]
            omega
          · rw [List.forall_mem_map]
            exact fun it hit => itemWord_iff.2 ⟨it, hits it hit, rfl⟩
        rw [← List.flatMap_def] at hword
        exact hword

/-- **The codec accepts exactly the words of the grammar.** -/
theorem decode_ok_iff_word {bs : Bytes} : (∃ f, codec.decode bs = .ok f) ↔ Word bs := by
  rw [word_iff]
  constructor
  · rintro ⟨f, h⟩
    obtain ⟨hencodable, -, rfl⟩ := decode_eq_ok_iff.1 h
    exact ⟨f, hencodable, rfl⟩
  · rintro ⟨f, hencodable, rfl⟩
    obtain ⟨hencodable', hnormal, hencode⟩ := hencodable.normalized
    exact ⟨f.normalized, decode_eq_ok_iff.2 ⟨hencodable', hnormal, hencode.symm⟩⟩

end RoundTrip.Frame
