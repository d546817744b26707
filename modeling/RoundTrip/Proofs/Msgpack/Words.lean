import Mathlib.Algebra.Order.Ring.Int
import RoundTrip.Proofs.Entries
import RoundTrip.Proofs.Msgpack.Locality
import RoundTrip.Proofs.Reading.Words

/-!
# Words of MessagePack

What the writer puts out for a value without values inside it is a word of the reader: it is read
as that value in front of every rest. For integers it is read as the same integer, perhaps of
another width. `Found` is the one account of what a successful read can have found, with the bounds
that the widths of the length fields and numbers put on it.

Main statements: `reads_integer`, `reads_time`, `valueStep_found`.
-/

set_option autoImplicit false

namespace RoundTrip.Msgpack

open Step

/-! ## Pieces -/

theorem reads_piece (bs : Bytes) : Reads (piece bs.length) bs bs := by
  intro s
  rw [piece, Bytes.split_append]

theorem reads_number {width n : Nat} (h : n < Nat.pow 256 width) :
    Reads (number width) (Bytes.bigEndian width n) n := by
  have hpiece := reads_piece (Bytes.bigEndian width n)
  rw [Bytes.length_bigEndian] at hpiece
  have hnumber := hpiece.returning Bytes.toNat
  rwa [Bytes.toNat_bigEndian, Nat.mod_eq_of_lt h] at hnumber

/-- The bytes `head` announce a value of the given form and length. -/
def Opens (form : Size → Form) (head : Bytes) (n : Nat) : Prop :=
  ∃ c field s, head = c :: field ∧ Form.ofCode c = form s ∧ Reads (size s) field n

theorem opens_code {form : Size → Form} {c : UInt8} {n : Nat}
    (h : Form.ofCode c = form (.given n)) : Opens form (Write.byte c).bytes n :=
  ⟨c, [], .given n, rfl, h, fun _ => rfl⟩

theorem opens_field {form : Size → Form} {c : UInt8} {width n : Nat}
    (h : Form.ofCode c = form (.field width)) (hn : n < Nat.pow 256 width) :
    Opens form (numbered c width n).bytes n :=
  ⟨c, Bytes.bigEndian width n, .field width, rfl, h, reads_number hn⟩

theorem ofCode_ofNat {n : Nat} (h : n < 256) :
    Form.ofCode (UInt8.ofNat n) =
      if n < 0x80 then .small n
      else if n < 0x90 then .map (.given (n - 0x80))
      else if n < 0xa0 then .list (.given (n - 0x90))
      else if n < 0xc0 then .text (.given (n - 0xa0))
      else if n < 0xe0 then .ofLongCode n
      else .small ((n : Int) - 256) := by
  simp only [Form.ofCode, UInt8.toNat_ofNat', Nat.mod_eq_of_lt h]

theorem textHeader_opens {n : Nat} (h : n < 0x100000000) : Opens .text (textHeader n).bytes n := by
  unfold textHeader
  split
  · apply opens_code
    rw [ofCode_ofNat (by omega), if_neg (by omega), if_neg (by omega), if_neg (by omega),
      if_pos (by omega), Nat.add_sub_cancel_left]
  · split
    · exact opens_field rfl (by simpa)
    · split
      · exact opens_field rfl (by simpa)
      · exact opens_field rfl (by simpa)

theorem binaryHeader_opens {n : Nat} (h : n < 0x100000000) :
    Opens .binary (binaryHeader n).bytes n := by
  unfold binaryHeader
  split
  · exact opens_field rfl (by simpa)
  · split
    · exact opens_field rfl (by simpa)
    · exact opens_field rfl (by simpa)

theorem listHeader_opens {n : Nat} (h : n < 0x100000000) : Opens .list (listHeader n).bytes n := by
  unfold listHeader
  split
  · apply opens_code
    rw [ofCode_ofNat (by omega), if_neg (by omega), if_neg (by omega), if_pos (by omega),
      Nat.add_sub_cancel_left]
  · split
    · exact opens_field rfl (by simpa)
    · exact opens_field rfl (by simpa)

theorem mapHeader_opens {n : Nat} (h : n < 0x100000000) : Opens .map (mapHeader n).bytes n := by
  unfold mapHeader
  split
  · apply opens_code
    rw [ofCode_ofNat (by omega), if_neg (by omega), if_pos (by omega), Nat.add_sub_cancel_left]
  · split
    · exact opens_field rfl (by simpa)
    · exact opens_field rfl (by simpa)

/-! ## Values after their headers -/

/-- All bytes of a value. -/
def Value.bytes (v : Value) : Bytes := v.writes.flatMap Write.bytes

/-- A value is read by the form that its code stands for. -/
theorem reads_valueStep {levels : Nat} {c : UInt8} {w : Bytes} {v : Value}
    (h : Reads (valueOf (valueStep levels) c (Form.ofCode c)) w v) :
    Reads (valueStep (levels + 1)) (c :: w) v := h

theorem reads_text {bs : Bytes} (h : bs.length < 0x100000000) (levels : Nat) :
    Reads (valueStep (levels + 1)) (Value.text bs).bytes (.text bs) := by
  obtain ⟨c, field, s, hhead, hform, hsize⟩ := textHeader_opens h
  have hbytes : (Value.text bs).bytes = c :: (field ++ bs) := by
    simp [Value.bytes, Value.writes, text, hhead]
  rw [hbytes]
  apply reads_valueStep
  rw [hform]
  exact hsize.bind ((reads_piece bs).returning Value.text)

theorem reads_binary {bs : Bytes} (h : bs.length < 0x100000000) (levels : Nat) :
    Reads (valueStep (levels + 1)) (Value.binary bs).bytes (.binary bs) := by
  obtain ⟨c, field, s, hhead, hform, hsize⟩ := binaryHeader_opens h
  have hbytes : (Value.binary bs).bytes = c :: (field ++ bs) := by
    simp [Value.bytes, Value.writes, hhead]
  rw [hbytes]
  apply reads_valueStep
  rw [hform]
  exact hsize.bind ((reads_piece bs).returning Value.binary)

theorem reads_bool (b : Bool) (levels : Nat) :
    Reads (valueStep (levels + 1)) (Value.bool b).bytes (.bool b) := by
  cases b
  · exact fun _ => rfl
  · exact fun _ => rfl

theorem reads_float32 (bits : UInt32) (levels : Nat) :
    Reads (valueStep (levels + 1)) (Value.float32 bits).bytes (.float32 bits) := by
  have hnumber := (@reads_number 4 bits.toNat bits.toNat_lt).returning fun k =>
    Value.float32 (UInt32.ofNat k)
  rw [UInt32.ofNat_toNat] at hnumber
  have hbytes : (Value.float32 bits).bytes = 0xca :: Bytes.bigEndian 4 bits.toNat := by
    simp [Value.bytes, Value.writes, numbered]
  rw [hbytes]
  exact reads_valueStep hnumber

theorem reads_float64 (bits : UInt64) (levels : Nat) :
    Reads (valueStep (levels + 1)) (Value.float64 bits).bytes (.float64 bits) := by
  have hnumber := (@reads_number 8 bits.toNat bits.toNat_lt).returning fun k =>
    Value.float64 (UInt64.ofNat k)
  rw [UInt64.ofNat_toNat] at hnumber
  have hbytes : (Value.float64 bits).bytes = 0xcb :: Bytes.bigEndian 8 bits.toNat := by
    simp [Value.bytes, Value.writes, numbered]
  rw [hbytes]
  exact reads_valueStep hnumber

/-! ## Integers -/

/-- The integer that a value is, whatever its width. -/
def Value.integer? : Value → Option Int
  | .signed _ n => some n
  | .unsigned _ n => some n
  | _ => none

theorem Value.writes_of_integer {v : Value} {n : Int} (h : v.integer? = some n) :
    v.writes = [integer n] := by
  cases v with
  | signed w m =>
      cases h
      rfl
  | unsigned w m =>
      cases h
      rfl
  | _ => cases h

theorem reads_unsigned {c : UInt8} (w : Width) (hform : Form.ofCode c = .unsigned w) {n : Nat}
    (h : n < Nat.pow 256 w.bytes) (levels : Nat) :
    Reads (valueStep (levels + 1)) (numbered c w.bytes n).bytes (.unsigned w n) := by
  apply reads_valueStep
  rw [hform]
  exact (reads_number h).returning (Value.unsigned w)

theorem reads_natural {n : Nat} (h : n < wordCount) :
    ∃ v : Value, v.integer? = some n ∧
      ∀ levels, Reads (valueStep (levels + 1)) (natural n).bytes v := by
  unfold natural
  split
  · refine ⟨.signed .w8 n, rfl, ?_⟩
    intro levels
    apply reads_valueStep
    rw [ofCode_ofNat (by omega), if_pos (by omega)]
    exact fun _ => rfl
  · split
    · exact ⟨.unsigned .w8 n, rfl, reads_unsigned .w8 rfl (by simpa [Width.bytes])⟩
    · split
      · exact ⟨.unsigned .w16 n, rfl, reads_unsigned .w16 rfl (by simpa [Width.bytes])⟩
      · split
        · exact ⟨.unsigned .w32 n, rfl, reads_unsigned .w32 rfl (by simpa [Width.bytes])⟩
        · have hfits : n < Nat.pow 256 Width.w64.bytes := by
            simpa [Width.bytes, wordCount] using h
          exact ⟨.unsigned .w64 n, rfl, reads_unsigned .w64 rfl hfits⟩

/-- A negative number of a width is stored as its distance from the largest unsigned one. -/
theorem reads_signed {c : UInt8} (w : Width) (hform : Form.ofCode c = .signed w) {top n : Nat}
    (htop : Nat.pow 256 w.bytes = top + 1) (h : 2 * n < top) (levels : Nat) :
    Reads (valueStep (levels + 1)) (numbered c w.bytes (top - n)).bytes
      (.signed w (Int.negSucc n)) := by
  have hsigned : signedOf w (top - n) = Int.negSucc n := by
    have hbits : Nat.pow 2 w.bits = top + 1 := by
      rw [← htop, Width.bits, Nat.pow_eq, Nat.pow_eq, Nat.pow_mul]
    rw [signedOf, hbits, Int.bmod, Int.emod_eq_of_lt (by omega) (by omega), if_neg (by omega)]
    omega
  apply reads_valueStep
  rw [hform, ← hsigned]
  exact (reads_number (by omega)).returning fun k => Value.signed w (signedOf w k)

theorem reads_negative {n : Nat} (h : n < wordHalf) :
    ∃ v : Value, v.integer? = some (Int.negSucc n) ∧
      ∀ levels, Reads (valueStep (levels + 1)) (negative n).bytes v := by
  simp only [wordHalf] at h
  unfold negative
  split
  · refine ⟨.signed .w8 (Int.negSucc n), rfl, ?_⟩
    intro levels
    apply reads_valueStep
    have hsmall : ((0xff - n : Nat) : Int) - 256 = Int.negSucc n := by omega
    rw [ofCode_ofNat (by omega), if_neg (by omega), if_neg (by omega), if_neg (by omega),
      if_neg (by omega), if_neg (by omega), hsmall]
    exact fun _ => rfl
  · split
    · exact ⟨.signed .w8 (Int.negSucc n), rfl, reads_signed .w8 rfl rfl (by omega)⟩
    · split
      · exact ⟨.signed .w16 (Int.negSucc n), rfl, reads_signed .w16 rfl rfl (by omega)⟩
      · split
        · exact ⟨.signed .w32 (Int.negSucc n), rfl, reads_signed .w32 rfl rfl (by omega)⟩
        · exact ⟨.signed .w64 (Int.negSucc n), rfl, reads_signed .w64 rfl rfl (by omega)⟩

/-- An integer that a word of 64 bits holds, signed or not. -/
def InRange (n : Int) : Prop := -wordHalf ≤ n ∧ n < wordCount

theorem reads_integer {n : Int} (h : InRange n) :
    ∃ v : Value, v.integer? = some n ∧
      ∀ levels, Reads (valueStep (levels + 1)) (integer n).bytes v := by
  obtain ⟨hlow, hhigh⟩ := h
  cases n with
  | ofNat n => exact reads_natural (Int.ofNat_lt.1 hhigh)
  | negSucc n =>
      apply reads_negative
      simp only [wordHalf] at hlow ⊢
      omega

/-! ## What is found -/

/-- The instant of a time extension: it is shown in the zone of the machine, and its nanoseconds are
those of one second. -/
structure Normal (t : Instant) : Prop where
  zone_eq : t.zone = .machine
  fits : FitsWord t.seconds
  nanos_lt : t.nanos < Instant.perSecond

/-- What a read can find where `value` reads the values inside others, and what is known of the
number of bytes that it used. -/
inductive Found (value : Step Error Value) (used : Nat) : Value → Prop
  | nil : Found value used .nil
  | bool (b : Bool) : Found value used (.bool b)
  | small {n : Int} : used = 1 → -0x20 ≤ n → n < 0x80 → Found value used (.signed .w8 n)
  | unsigned {w : Width} {n : Nat} :
      used = 1 + w.bytes → n < 2 ^ w.bits → Found value used (.unsigned w n)
  | signed {w : Width} {n : Int} :
      used = 1 + w.bytes → -2 ^ (w.bits - 1) ≤ n → n < 2 ^ (w.bits - 1) →
        Found value used (.signed w n)
  | float32 (bits : UInt32) : Found value used (.float32 bits)
  | float64 (bits : UInt64) : Found value used (.float64 bits)
  | text {bs : Bytes} : bs.length < 0x100000000 → Found value used (.text bs)
  | binary {bs : Bytes} : bs.length < 0x100000000 → Found value used (.binary bs)
  | time {t : Instant} : Normal t → Found value used (.time t)
  | list {vs : List Value} :
      vs.length < 0x100000000 → (∀ v ∈ vs, ∃ bs rest, value bs = .ok (v, rest)) →
        Found value used (.list vs)
  | map {es : List (Bytes × Value)} :
      es.length < 0x100000000 → Entries.Increasing es →
      (∀ e ∈ es, e.1.length < 0x100000000 ∧ ∃ bs rest, value bs = .ok (e.2, rest)) →
        Found value used (.map es)

theorem of_piece {n : Nat} {bs part rest : Bytes} (h : piece n bs = .ok (part, rest)) :
    bs = part ++ rest ∧ part.length = n := by
  rw [piece] at h
  split at h
  · rename_i hsplit
    cases h
    exact Bytes.append_of_split hsplit
  · split at h
    · cases h
    · cases h

theorem of_number {width n : Nat} {bs rest : Bytes} (h : number width bs = .ok (n, rest)) :
    bs.length = width + rest.length ∧ n < Nat.pow 256 width := by
  obtain ⟨⟨field, tail⟩, hpiece, hresult⟩ := bind_eq_ok.1 h
  cases hresult
  obtain ⟨rfl, rfl⟩ := of_piece hpiece
  exact ⟨List.length_append, Bytes.toNat_lt field⟩

/-- Sizes are below this. -/
def Size.Small : Size → Prop
  | .given n => n < 0x100000000
  | .field width => width ≤ 4

theorem of_size {s : Size} (hs : s.Small) {bs rest : Bytes} {n : Nat}
    (h : size s bs = .ok (n, rest)) : n < 0x100000000 := by
  cases s with
  | given k =>
      cases h
      exact hs
  | field width =>
      obtain ⟨-, hlt⟩ := of_number h
      exact Nat.lt_of_lt_of_le hlt (Nat.pow_le_pow_right (by decide) hs)

/-- Contents are as long as the size in front of them says. -/
theorem of_size_of_piece {s : Size} (hs : s.Small) {bs tail part rest : Bytes} {n : Nat}
    (hsize : size s bs = .ok (n, tail)) (hpiece : piece n tail = .ok (part, rest)) :
    part.length < 0x100000000 := by
  rw [(of_piece hpiece).2]
  exact of_size hs hsize

/-- A signed number is one of its width. -/
theorem signedOf_bounds (w : Width) (n : Nat) :
    -2 ^ (w.bits - 1) ≤ signedOf w n ∧ signedOf w n < 2 ^ (w.bits - 1) := by
  cases w <;> simp only [signedOf, Width.bits, Width.bytes, Nat.pow_eq, Int.bmod] <;> omega

/-- What a code can stand for. -/
def Form.Sound : Form → Prop
  | .small n => -0x20 ≤ n ∧ n < 0x80
  | .text s | .binary s | .list s | .map s => s.Small
  | _ => True

theorem ofCode_sound (c : UInt8) : (Form.ofCode c).Sound := by
  obtain ⟨n, hn, rfl⟩ : ∃ n, n < 256 ∧ c = UInt8.ofNat n := ⟨c.toNat, c.toNat_lt, by simp⟩
  rw [ofCode_ofNat hn]
  split
  · exact ⟨by omega, by omega⟩
  · split
    · change n - 0x80 < 0x100000000
      omega
    · split
      · change n - 0x90 < 0x100000000
        omega
      · split
        · change n - 0xa0 < 0x100000000
          omega
        · split
          · unfold Form.ofLongCode
            split <;> simp [Form.Sound, Size.Small]
          · exact ⟨by omega, by omega⟩

theorem ofUnix_normal (seconds nanos : Int) : Normal (Instant.ofUnix seconds nanos .machine) := by
  refine ⟨rfl, ?_, ?_⟩
  · simp only [Instant.ofUnix, signedWord, FitsWord, wordHalf, wordCount, Int.bmod]
    omega
  · have hmod := Int.fmod_eq_emod_of_nonneg nanos (Int.natCast_nonneg Instant.perSecond)
    change (nanos.fmod Instant.perSecond).toNat < Instant.perSecond
    rw [hmod, Instant.perSecond]
    omega

theorem instant_normal {bs : Bytes} {t : Instant} (h : instant bs = .ok t) : Normal t := by
  -- times of all three lengths are built by the same function
  have hunix : ∃ seconds nanos, Instant.ofUnix seconds nanos .machine = t := by
    simp only [instant] at h
    split at h
    · exact ⟨_, _, Except.ok.inj h⟩
    · split at h
      · exact ⟨_, _, Except.ok.inj h⟩
      · split at h
        · exact ⟨_, _, Except.ok.inj h⟩
        · cases h
  obtain ⟨seconds, nanos, rfl⟩ := hunix
  exact ofUnix_normal seconds nanos

theorem of_string {bs key rest : Bytes} (h : string bs = .ok (key, rest)) :
    key.length < 0x100000000 := by
  obtain ⟨⟨c, tail⟩, -, hafter⟩ := bind_eq_ok.1 h
  have hsound := ofCode_sound c
  dsimp only at hafter
  rw [stringAfter] at hafter
  split at hafter
  · rename_i s hform
    obtain ⟨⟨n, tail⟩, hsize, hpiece⟩ := bind_eq_ok.1 hafter
    rw [hform] at hsound
    exact of_size_of_piece hsound hsize hpiece
  · rename_i s hform
    obtain ⟨⟨n, tail⟩, hsize, hpiece⟩ := bind_eq_ok.1 hafter
    rw [hform] at hsound
    exact of_size_of_piece hsound hsize hpiece
  · cases hafter
    decide
  · cases hafter

/-- A value after its code. -/
theorem valueOf_found {value : Step Error Value} {c : UInt8} {form : Form} (hform : form.Sound)
    {bs rest : Bytes} {v : Value} (h : valueOf value c form bs = .ok (v, rest)) :
    Found value (1 + bs.length - rest.length) v := by
  cases form with
  | small n =>
      cases h
      exact .small (by omega) hform.1 hform.2
  | nil =>
      cases h
      exact .nil
  | bool b =>
      cases h
      exact .bool b
  | unsigned w =>
      obtain ⟨⟨n, tail⟩, hnumber, hresult⟩ := bind_eq_ok.1 h
      cases hresult
      obtain ⟨hlength, hlt⟩ := of_number hnumber
      refine .unsigned (by omega) ?_
      rwa [Width.bits, Nat.pow_mul]
  | signed w =>
      obtain ⟨⟨n, tail⟩, hnumber, hresult⟩ := bind_eq_ok.1 h
      cases hresult
      obtain ⟨hlength, -⟩ := of_number hnumber
      obtain ⟨hlow, hhigh⟩ := signedOf_bounds w n
      exact .signed (by omega) hlow hhigh
  | float32 =>
      obtain ⟨⟨n, tail⟩, -, hresult⟩ := bind_eq_ok.1 h
      cases hresult
      exact .float32 _
  | float64 =>
      obtain ⟨⟨n, tail⟩, -, hresult⟩ := bind_eq_ok.1 h
      cases hresult
      exact .float64 _
  | text s =>
      obtain ⟨⟨n, tail⟩, hsize, hrest⟩ := bind_eq_ok.1 h
      obtain ⟨⟨part, tail⟩, hpiece, hresult⟩ := bind_eq_ok.1 hrest
      cases hresult
      exact .text (of_size_of_piece hform hsize hpiece)
  | binary s =>
      obtain ⟨⟨n, tail⟩, hsize, hrest⟩ := bind_eq_ok.1 h
      obtain ⟨⟨part, tail⟩, hpiece, hresult⟩ := bind_eq_ok.1 hrest
      cases hresult
      exact .binary (of_size_of_piece hform hsize hpiece)
  | list s =>
      obtain ⟨⟨n, tail⟩, hsize, hrest⟩ := bind_eq_ok.1 h
      obtain ⟨⟨vs, tail⟩, htimes, hresult⟩ := bind_eq_ok.1 hrest
      cases hresult
      obtain ⟨hlength, hread⟩ := of_times htimes
      refine .list ?_ hread
      rw [hlength]
      exact of_size hform hsize
  | map s =>
      obtain ⟨⟨n, tail⟩, hsize, hrest⟩ := bind_eq_ok.1 h
      obtain ⟨⟨es, tail⟩, htimes, hresult⟩ := bind_eq_ok.1 hrest
      cases hresult
      obtain ⟨hlength, hread⟩ := of_times htimes
      refine .map ?_ (Entries.increasing_ofPairs es) ?_
      · -- keys that are repeated leave fewer entries than were announced
        have hle := Entries.length_ofPairs_le es
        have hlt := of_size hform hsize
        omega
      · intro e he
        obtain ⟨bs', rest', hentry⟩ := hread e (Entries.mem_of_mem_ofPairs he)
        obtain ⟨⟨key, tail⟩, hkey, hrest⟩ := bind_eq_ok.1 hentry
        obtain ⟨⟨v, tail⟩, hvalue, hresult⟩ := bind_eq_ok.1 hrest
        cases hresult
        exact ⟨of_string hkey, _, _, hvalue⟩
  | extension s =>
      obtain ⟨⟨n, tail⟩, -, hrest⟩ := bind_eq_ok.1 h
      obtain ⟨⟨id, tail⟩, -, hrest⟩ := bind_eq_ok.1 hrest
      dsimp only at hrest
      split at hrest
      · cases hrest
      · obtain ⟨⟨part, tail⟩, -, hrest⟩ := bind_eq_ok.1 hrest
        obtain ⟨t, hinstant, hresult⟩ := bind_eq_ok.1 hrest
        cases hresult
        exact .time (instant_normal hinstant)
  | unused => cases h

theorem valueStep_found {levels : Nat} {bs rest : Bytes} {v : Value}
    (h : valueStep (levels + 1) bs = .ok (v, rest)) :
    Found (valueStep levels) (bs.length - rest.length) v := by
  obtain ⟨⟨c, tail⟩, hcode, hvalue⟩ := bind_eq_ok.1 h
  cases bs with
  | nil => cases hcode
  | cons b bs =>
      cases hcode
      rw [List.length_cons, Nat.add_comm]
      exact valueOf_found (ofCode_sound c) hvalue

/-! ## Times -/

theorem reads_extension {head contents : Bytes} {t : Instant}
    (h : Opens .extension head contents.length) (ht : instant contents = .ok t) (levels : Nat) :
    Reads (valueStep (levels + 1)) (head ++ timeId :: contents) (.time t) := by
  obtain ⟨c, field, s, rfl, hform, hsize⟩ := h
  apply reads_valueStep
  rw [hform]
  apply hsize.bind
  intro s
  -- the identifier is that of times, so the contents are read next
  change (piece contents.length (contents ++ s) >>= _) = _
  exact bind_eq_ok.2 ⟨_, reads_piece contents s, bind_eq_ok.2 ⟨t, ht, rfl⟩⟩

/-- An instant is made again from its own seconds and nanoseconds. -/
theorem Normal.ofUnix_eq {t : Instant} (h : Normal t) {seconds nanos : Int}
    (hseconds : signedWord seconds = t.seconds) (hnanos : nanos = t.nanos) :
    Instant.ofUnix seconds nanos .machine = t := by
  have hlt : (t.nanos : Int) < Instant.perSecond := Int.ofNat_lt.2 h.nanos_lt
  have hdiv : nanos.fdiv Instant.perSecond = 0 := by
    rw [hnanos, Int.fdiv_eq_ediv_of_nonneg _ (Int.natCast_nonneg _)]
    exact Int.ediv_eq_zero_of_lt (Int.natCast_nonneg _) hlt
  have hmod : nanos.fmod Instant.perSecond = t.nanos := by
    rw [hnanos, Int.fmod_eq_emod_of_nonneg _ (Int.natCast_nonneg _)]
    exact Int.emod_eq_of_lt (Int.natCast_nonneg _) hlt
  rw [Instant.ofUnix, hdiv, hmod, Int.add_zero, hseconds, ← h.zone_eq]
  rfl

/-- Seconds are the signed form of their unsigned form. -/
theorem signedWord_unsignedWord {n : Int} (h : FitsWord n) (k : Nat) :
    signedWord ((k * wordCount + unsignedWord n : Nat) : Int) = n := by
  simp only [FitsWord, wordHalf, signedWord, unsignedWord, wordCount, Int.bmod] at *
  omega

theorem toNat_field {width n : Nat} (h : n < Nat.pow 256 width) :
    Bytes.toNat (Bytes.bigEndian width n) = n := by
  rw [Bytes.toNat_bigEndian, Nat.mod_eq_of_lt h]

/-- A time is read back from each of its three forms. -/
theorem reads_time {t : Instant} (h : Normal t) (levels : Nat) :
    Reads (valueStep (levels + 1)) (Value.time t).bytes (.time t) := by
  have hnanos : t.nanos < 1000000000 := h.nanos_lt
  have hseconds : unsignedWord t.seconds < 0x10000000000000000 := by
    simp only [unsignedWord, wordCount]
    omega
  have hword := signedWord_unsignedWord h.fits
  have hzero := hword 0
  rw [Nat.zero_mul, Nat.zero_add] at hzero
  generalize hsecs : unsignedWord t.seconds = seconds at hseconds hword hzero
  generalize hns : t.nanos = nanos at hnanos
  simp only [Value.bytes, Value.writes, time, hsecs, hns]
  split
  · have hdiv : (nanos * 0x400000000 + seconds) / 0x400000000 = nanos := by omega
    have hmod : (nanos * 0x400000000 + seconds) % 0x400000000 = seconds := by omega
    split
    · -- there are no nanoseconds when the sum is below the weight of one
      have hsum : nanos * 0x400000000 + seconds = seconds := by omega
      have hfield := @toNat_field 4 (nanos * 0x400000000 + seconds) ‹_›
      refine @reads_extension [0xd6] (Bytes.bigEndian 4 _) t (opens_code rfl) ?_ levels
      rw [instant, if_pos (Bytes.length_bigEndian ..), hfield, hsum]
      exact congrArg _ (h.ofUnix_eq hzero (by omega))
    · have hfield := @toNat_field 8 (nanos * 0x400000000 + seconds)
        (by simp only [Nat.pow_eq]; omega)
      refine @reads_extension [0xd7] (Bytes.bigEndian 8 _) t (opens_code rfl) ?_ levels
      rw [instant, if_neg (by simp), if_pos (Bytes.length_bigEndian ..), hfield, hmod, hdiv]
      exact congrArg _ (h.ofUnix_eq hzero (by omega))
  · have hopens : Opens .extension (numbered 0xc7 1 12).bytes
        (Bytes.bigEndian 4 nanos ++ Bytes.bigEndian 8 seconds).length := by
      simpa using opens_field rfl (by decide)
    refine reads_extension hopens ?_ levels
    have hvalue : Bytes.toNat (Bytes.bigEndian 4 nanos ++ Bytes.bigEndian 8 seconds)
        = nanos * wordCount + seconds := by
      rw [Bytes.toNat_append, toNat_field (by simp only [Nat.pow_eq]; omega),
        toNat_field (by simp only [Nat.pow_eq]; omega), Bytes.length_bigEndian]
      rfl
    have hdiv : (nanos * wordCount + seconds) / wordCount = nanos := by
      simp only [wordCount]
      omega
    rw [instant, if_neg (by simp), if_neg (by simp), if_pos (by simp), hvalue, hdiv, hword]
    exact congrArg _ (h.ofUnix_eq (signedWord_eq h.fits) (by omega))

end RoundTrip.Msgpack
