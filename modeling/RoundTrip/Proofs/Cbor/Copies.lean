import RoundTrip.Proofs.Binary.Exact
import RoundTrip.Proofs.Calendar.Lengths
import RoundTrip.Proofs.Cbor.Arrangements
import RoundTrip.Proofs.Cbor.Sound

/-!
# Copies of CBOR values

A copy is a value with the item that stands for it in canonical form and the bytes of that item. It
is faithful when the value is written as these bytes, and when reading them gives a value that is
written as the same bytes. A faithful copy may fail to be read in one way only: two keys of a map
inside the value are written alike. What is read is written as the same bytes in every order of
entries exactly when the value is settled.

This module has the copies of everything but arrays and maps. Main statements: `exists_copy_text`,
`exists_copy_primitive`, `exists_copy_tag`.
-/

set_option autoImplicit false

namespace RoundTrip.Cbor

/-- A value, and the item as which it is written. -/
structure Copy where
  value : Value
  item : Item
  bytes : Bytes

/-- The bytes of the copy are those of its value and of its item, and the item is interpreted as a
value that is written in the same way, if keys stay apart. -/
structure Copy.Faithful (c : Copy) (strip afterTag : Bool) (depth : Nat) : Prop where
  encode_eq : c.value.encode .canonical = .ok c.bytes
  canonical : Canonical afterTag depth c.item c.bytes
  chainError_eq : chainError? c.item = none
  exists_interpret : c.value.KeysApart → ∃ v, c.item.interpret strip = .ok v
  of_interpret : ∀ v, c.item.interpret strip = .ok v →
    c.value.KeysApart ∧ v.encode .canonical = .ok c.bytes
  oneForm_iff : ∀ v, c.item.interpret strip = .ok v → (v.OneForm ↔ c.value.Settled)
  of_key? : ∀ k, c.value.key? = some k →
    k.IsKey ∧ ∃ v, c.item.interpret strip = .ok v ∧ v.key? = some k.again

theorem Sound.length_contents {afterTag : Bool} {depth : Nat} {it : Item}
    (h : Sound afterTag depth it) : it.contents.length < wordHalf := by
  have hnone : ([] : Bytes).length < wordHalf := by decide
  cases h with
  | string h => exact h
  | chunked h => exact h
  | _ => exact hnone

namespace Copy

variable {c : Copy} {strip afterTag : Bool} {depth : Nat}

/-- What holds no map is always read again. -/
theorem faithful_of_interpret {v : Value} (hencode : c.value.encode .canonical = .ok c.bytes)
    (hcanonical : Canonical afterTag depth c.item c.bytes) (hchain : chainError? c.item = none)
    (hinterpret : c.item.interpret strip = .ok v) (hagain : v.encode .canonical = .ok c.bytes)
    (hflat : c.value.Flat) (hflat' : v.Flat)
    (hkey : ∀ k, c.value.key? = some k → k.IsKey ∧ v.key? = some k.again) :
    c.Faithful strip afterTag depth where
  encode_eq := hencode
  canonical := hcanonical
  chainError_eq := hchain
  exists_interpret := fun _ => ⟨v, hinterpret⟩
  of_interpret := by
    intro v' hv'
    rw [hinterpret] at hv'
    obtain rfl := Except.ok.inj hv'
    exact ⟨hflat.allMaps _, hagain⟩
  oneForm_iff := by
    intro v' hv'
    rw [hinterpret] at hv'
    obtain rfl := Except.ok.inj hv'
    exact ⟨fun _ => hflat.allMaps _, fun _ => hflat'.oneForm⟩
  of_key? := by
    intro k hk
    exact ⟨(hkey k hk).1, v, hinterpret, (hkey k hk).2⟩

/-- A key is read again as itself or as the text that it has become. -/
theorem faithful_of_key? {v : Value} (hencode : c.value.encode .canonical = .ok c.bytes)
    (hcanonical : Canonical afterTag depth c.item c.bytes) (hchain : chainError? c.item = none)
    (hinterpret : c.item.interpret strip = .ok v) (hagain : v.encode .canonical = .ok c.bytes)
    {k : Value} (hkey : c.value.key? = some k) (hk : k.IsKey) (hkey' : v.key? = some k.again) :
    c.Faithful strip afterTag depth := by
  refine faithful_of_interpret hencode hcanonical hchain hinterpret hagain
    (Value.flat_of_key? hkey) (Value.flat_of_key? hkey') ?_
  intro k' hk'
  rw [hkey] at hk'
  obtain rfl := Option.some.inj hk'
  exact ⟨hk, hkey'⟩

/-! ## Integers -/

theorem faithful_unsigned {n : Nat} (hn : n < wordCount) :
    (Copy.mk (.unsigned n) (.unsigned (shortArgument n)) (shortHead .unsigned n)).Faithful
      strip afterTag depth :=
  faithful_of_key? (v := .unsigned n) (by rw [Value.encode]) (.unsigned hn) rfl
    (by rw [Item.interpret]; rfl) (by rw [Value.encode]) rfl (.unsigned hn) rfl

theorem integer_negative (n : Nat) (hn : n < wordCount) :
    integer (-1 - (n : Int)) = shortHead .negative n := by
  have hneg : (-1 - (n : Int)) = Int.negSucc n := by omega
  rw [hneg, integer, if_pos hn]

theorem encode_negative {n : Nat} (hn : n < wordCount) :
    (negative n).encode .canonical = .ok (shortHead .negative n) := by
  unfold negative
  split
  · rw [Value.encode, integer_negative n hn]
  · rw [Value.encode, integer_negative n hn]

theorem flat_negative (n : Nat) : (negative n).Flat := by
  intro es hes
  dsimp only [negative] at hes
  split at hes <;> cases hes

theorem faithful_negative {n : Nat} (hn : n < wordCount) :
    (Copy.mk (negative n) (.negative (shortArgument n)) (shortHead .negative n)).Faithful
      strip afterTag depth := by
  refine faithful_of_interpret (v := negative n) (encode_negative hn) (.negative hn) rfl
    (by rw [Item.interpret]; rfl) (encode_negative hn) (flat_negative n) (flat_negative n) ?_
  intro k hk
  dsimp only [negative] at hk ⊢
  split at hk
  · rename_i hhalf
    obtain rfl := Option.some.inj hk
    rw [if_pos hhalf]
    refine ⟨.signed ?_, rfl⟩
    simp only [FitsWord]
    omega
  · cases hk

/-! ## Strings -/

theorem faithful_bytes {cs : Bytes} (h : cs.length < wordHalf) :
    (Copy.mk (.bytes cs) (.string .bytes (shortArgument cs.length) cs)
      (shortString .bytes cs)).Faithful strip afterTag depth :=
  faithful_of_key? (v := .bytes cs) (by rw [Value.encode]) (.string .bytes h) rfl
    (by rw [Item.interpret]) (by rw [Value.encode]) rfl (.byteKey cs) rfl

theorem interpret_text {arg : Argument} {cs : Bytes} (h : Utf8.isValid cs = true) :
    (Item.string .text arg cs).interpret strip = .ok (.text cs) := by
  rw [Item.interpret, Item.textContents, if_pos h]
  rfl

theorem faithful_text {cs : Bytes} (hvalid : Utf8.isValid cs = true) (h : cs.length < wordHalf) :
    (Copy.mk (.text cs) (.string .text (shortArgument cs.length) cs)
      (shortString .text cs)).Faithful strip afterTag depth :=
  faithful_of_key? (v := .text cs) (by rw [Value.encode]) (.string .text h) rfl
    (interpret_text hvalid) (by rw [Value.encode]) rfl (.text cs) rfl

/-- Parts that are UTF-8 make up contents that are. -/
theorem of_textContents {it : Item} {cs : Bytes} (h : it.textContents = .ok cs) :
    cs = it.contents ∧ Utf8.isValid cs = true := by
  cases it with
  | string kind arg part =>
      rw [Item.textContents] at h
      split at h
      · rename_i hvalid
        obtain rfl := Except.ok.inj h
        exact ⟨rfl, hvalid⟩
      · cases h
  | chunked kind chunks =>
      rw [Item.textContents] at h
      split at h
      · rename_i hvalid
        obtain rfl := Except.ok.inj h
        refine ⟨rfl, Utf8.isValid_flatten ?_⟩
        intro cs hcs
        obtain ⟨chunk, hchunk, rfl⟩ := List.mem_map.1 hcs
        exact List.all_eq_true.1 hvalid chunk hchunk
      · cases h
  | _ =>
      cases h
      exact ⟨rfl, rfl⟩

/-- A text is copied in one part, whatever parts it was read in. -/
theorem exists_copy_text {it : Item} {v u : Value} (hlength : it.contents.length < wordHalf)
    (h : (do return .text (← it.textContents) : Except Error Value) = .ok v)
    (hu : v.Rearranged u) : ∃ c : Copy, c.value = u ∧ c.Faithful strip afterTag depth := by
  obtain ⟨cs, hcs, hresult⟩ := Step.bind_eq_ok.1 h
  obtain rfl := Except.ok.inj hresult
  obtain rfl := hu.eq_of_flat (Value.flat_of_key? rfl)
  obtain ⟨rfl, hvalid⟩ := of_textContents hcs
  exact ⟨_, rfl, faithful_text hvalid hlength⟩

/-! ## Primitives -/

theorem floatBits?_shortArgument {n : Nat} (hn : n < 256) :
    floatBits? (shortArgument n) = none := by
  have hwidth : (shortArgument n).width = .inline ∨ (shortArgument n).width = .one := by
    dsimp only [shortArgument]
    split
    · exact .inl rfl
    · exact .inr rfl
  rcases hwidth with hinline | hone
  · simp [floatBits?, hinline]
  · simp [floatBits?, hone]

theorem primitive_simple {arg : Argument} (hfloat : floatBits? arg = none)
    (h : arg.value < 20 ∨ 24 ≤ arg.value) : primitive arg = .simple arg.value := by
  simp only [primitive, hfloat]
  split
  · omega
  · omega
  · omega
  · omega
  · rfl

theorem faithful_nil :
    (Copy.mk .nil (.primitive (shortArgument 22)) nilBytes).Faithful strip afterTag depth :=
  faithful_of_key? (v := .nil) (by rw [Value.encode]) (.simple (.inl (by decide))) rfl
    (by rw [Item.interpret]; rfl) (by rw [Value.encode]) rfl .nil rfl

theorem faithful_bool (b : Bool) :
    (Copy.mk (.bool b) (.primitive (shortArgument (if b then 21 else 20)))
      [if b then 0xf5 else 0xf4]).Faithful strip afterTag depth := by
  have hcanonical : ∀ n, n < 24 → Canonical afterTag depth (.primitive (shortArgument n))
      (shortHead .primitive n) := fun n hn => .simple (.inl hn)
  refine faithful_of_key? (v := .bool b) (by rw [Value.encode]) ?_ rfl ?_ (by rw [Value.encode])
    rfl (.bool b) rfl
  · cases b with
    | false => exact hcanonical 20 (by decide)
    | true => exact hcanonical 21 (by decide)
  · cases b with
    | false => rw [Item.interpret]; rfl
    | true => rw [Item.interpret]; rfl

theorem faithful_simple {n : Nat} (hn : n < 20 ∨ 32 ≤ n ∧ n < 256) :
    (Copy.mk (.simple n) (.primitive (shortArgument n)) (shortHead .primitive n)).Faithful
      strip afterTag depth := by
  have hlt : n < 256 := by omega
  have hencode : (Value.simple n).encode .canonical = .ok (shortHead .primitive n) := by
    rw [Value.encode, simple, if_neg (by omega)]
  have hprimitive : primitive (shortArgument n) = .simple n :=
    primitive_simple (floatBits?_shortArgument hlt) (by dsimp only [shortArgument]; omega)
  exact faithful_of_key? (v := .simple n) hencode (.simple (by omega)) rfl
    (by rw [Item.interpret, hprimitive]) hencode rfl (.simple hlt) rfl

/-- What is no number is written in one way. -/
theorem float_nan {bits : UInt64} (h : Binary.double.unpack bits.toNat = .nan) :
    float bits = [0xf9, 0x7e, 0] := by
  have hexact : Binary.half.exact? .nan = some 0x7e00 := by decide
  simp only [float, h, hexact]
  rfl

/-- A number is written in a format from which it is read back. -/
theorem exists_float_argument {bits : UInt64} (h : Binary.double.unpack bits.toNat ≠ .nan) :
    ∃ (w : Width) (n : Nat), (w = .two ∨ w = .four ∨ w = .eight) ∧ n < Nat.pow 256 w.bytes
      ∧ float bits = UInt8.ofNat (Major.primitive.code * 32 + w.info) :: Bytes.bigEndian w.bytes n
      ∧ floatBits? ⟨w, n⟩ = some bits := by
  have hbits : bits.toNat < 2 ^ 64 := bits.toNat_lt
  have hself : UInt64.ofNat bits.toNat = bits := UInt64.ofNat_toNat
  cases hhalf : Binary.half.exact? (Binary.double.unpack bits.toNat) with
  | some b =>
      obtain ⟨hlt, hsame⟩ := Binary.convert_of_exact? (.inl rfl) hbits hhalf
      have hconvert := hsame.resolve_left fun hnan => h hnan.1
      refine ⟨.two, b, .inl rfl, hlt, ?_, ?_⟩
      · simp only [float, hhalf]
        rfl
      · simp only [floatBits?, hconvert, hself]
  | none =>
      cases hsingle : Binary.single.exact? (Binary.double.unpack bits.toNat) with
      | some b =>
          obtain ⟨hlt, hsame⟩ := Binary.convert_of_exact? (.inr rfl) hbits hsingle
          have hconvert := hsame.resolve_left fun hnan => h hnan.1
          refine ⟨.four, b, .inr (.inl rfl), hlt, ?_, ?_⟩
          · simp only [float, hhalf, hsingle]
            rfl
          · simp only [floatBits?, hconvert, hself]
      | none =>
          refine ⟨.eight, bits.toNat, .inr (.inr rfl), hbits, ?_, ?_⟩
          · simp only [float, hhalf, hsingle]
            rfl
          · simp only [floatBits?, hself]

theorem exists_copy_float (bits : UInt64) :
    ∃ c : Copy, c.value = .float bits ∧ c.Faithful strip afterTag depth := by
  by_cases hnan : Binary.double.unpack bits.toNat = .nan
  · have hagain : (Value.float bits).again = .float Value.nanBits := if_pos hnan
    have hcanonical : Canonical afterTag depth (.primitive ⟨.two, 0x7e00⟩) [0xf9, 0x7e, 0] :=
      .float (.inl rfl) (by decide)
    refine ⟨⟨.float bits, .primitive ⟨.two, 0x7e00⟩, [0xf9, 0x7e, 0]⟩, rfl, ?_⟩
    refine faithful_of_key? (v := .float Value.nanBits) ?_ hcanonical rfl ?_ ?_ rfl (.float bits) ?_
    · rw [Value.encode, float_nan hnan]
    · rw [Item.interpret]
      rfl
    · rw [Value.encode, float_nan Value.unpack_nanBits]
    · rw [hagain]
      rfl
  · have hagain : (Value.float bits).again = .float bits := if_neg hnan
    obtain ⟨w, n, hw, hn, hfloat, hbits⟩ := exists_float_argument hnan
    refine ⟨⟨.float bits, .primitive ⟨w, n⟩, float bits⟩, rfl, ?_⟩
    have hcanonical : Canonical afterTag depth (.primitive ⟨w, n⟩) (float bits) := by
      rw [hfloat]
      exact .float hw hn
    refine faithful_of_key? (v := .float bits) ?_ hcanonical rfl ?_ ?_ rfl (.float bits) ?_
    · rw [Value.encode]
    · simp only [Item.interpret, primitive, hbits]
    · rw [Value.encode]
    · rw [hagain]
      rfl

theorem flat_primitive (arg : Argument) : (primitive arg).Flat := by
  unfold primitive
  split
  · exact Value.flat_of_key? rfl
  split <;> exact Value.flat_of_key? rfl

theorem exists_copy_primitive {arg : Argument} (h : arg.Bounded .primitive) :
    ∃ c : Copy, c.value = primitive arg ∧ c.Faithful strip afterTag depth := by
  cases hfloat : floatBits? arg with
  | some bits =>
      have hvalue : primitive arg = .float bits := by simp only [primitive, hfloat]
      rw [hvalue]
      exact exists_copy_float bits
  | none =>
      have hn : arg.value < 24 ∨ 32 ≤ arg.value ∧ arg.value < 256 := by
        cases hwidth : arg.width with
        | inline => exact .inl (h.of_inline hwidth)
        | one => exact .inr ⟨(h.of_one hwidth).2 rfl, (h.of_one hwidth).1⟩
        | two => simp [floatBits?, hwidth] at hfloat
        | four => simp [floatBits?, hwidth] at hfloat
        | eight => simp [floatBits?, hwidth] at hfloat
      by_cases hsimple : arg.value < 20 ∨ 24 ≤ arg.value
      · rw [primitive_simple hfloat hsimple]
        exact ⟨_, rfl, faithful_simple (by omega)⟩
      · have hvalue : arg.value = 20 ∨ arg.value = 21 ∨ arg.value = 22 ∨ arg.value = 23 := by omega
        simp only [primitive, hfloat]
        rcases hvalue with hvalue | hvalue | hvalue | hvalue
        · rw [hvalue]
          exact ⟨_, rfl, faithful_bool false⟩
        · rw [hvalue]
          exact ⟨_, rfl, faithful_bool true⟩
        · rw [hvalue]
          exact ⟨_, rfl, faithful_nil⟩
        · rw [hvalue]
          exact ⟨_, rfl, faithful_nil⟩

/-! ## Times -/

/-- A time becomes a text, and the unset one nothing at all. -/
theorem exists_copy_time {t : Instant} (h : t.Writable) :
    ∃ c : Copy, c.value = .time t ∧ c.Faithful strip afterTag depth := by
  by_cases hunset : t.isUnset
  · have hagain : (Value.time t).again = .nil := if_pos hunset
    have hencode : (Value.time t).encode .canonical = .ok nilBytes := by
      rw [Value.encode, time, if_pos hunset]
    refine ⟨⟨.time t, .primitive (shortArgument 22), nilBytes⟩, rfl, ?_⟩
    refine faithful_of_key? (v := .nil) hencode (.simple (.inl (by decide))) rfl ?_ ?_ rfl
      (.time t) ?_
    · rw [Item.interpret]
      rfl
    · rw [Value.encode]
    · rw [hagain]
      rfl
  · have hagain : (Value.time t).again = .text (Bytes.ofString (Timestamp.write t)) :=
      if_neg hunset
    have hencode : (Value.time t).encode .canonical
        = .ok (shortString .text (Bytes.ofString (Timestamp.write t))) := by
      rw [Value.encode, time, if_neg hunset]
    have hvalid : Utf8.isValid (Bytes.ofString (Timestamp.write t)) = true :=
      Utf8.isValid_iff.2 ⟨_, Bytes.ofString_eq _⟩
    have hlength : (Bytes.ofString (Timestamp.write t)).length < wordHalf := by
      have hbytes := Bytes.length_ofString_le (Timestamp.write t)
      have hwrite := Timestamp.length_write h
      have hhalf : 4 * 300 < wordHalf := by decide
      omega
    generalize Bytes.ofString (Timestamp.write t) = cs at hagain hencode hvalid hlength
    refine ⟨⟨.time t, .string .text (shortArgument cs.length) cs, shortString .text cs⟩, rfl, ?_⟩
    refine faithful_of_key? (v := .text cs) hencode (.string .text hlength) rfl
      (interpret_text hvalid) ?_ rfl (.time t) ?_
    · rw [Value.encode]
    · rw [hagain]
      rfl

theorem epochFloat_writable (bits : UInt64) : (epochFloat bits).Writable := by
  unfold epochFloat
  split
  · exact Instant.writable_ofUnix _ _
  · exact ⟨by decide, by decide⟩

theorem timestampTag_writable {content : Item} {v : Value} (h : timestampTag content = .ok v) :
    ∃ t : Instant, t.Writable ∧ v = .time t := by
  obtain ⟨text, -, hread⟩ := Step.bind_eq_ok.1 h
  split at hread
  · rename_i t ht
    exact ⟨t, Timestamp.read?_writable ht, (Except.ok.inj hread).symm⟩
  · cases hread

theorem epochInteger_writable {seconds : Int} {v : Value} (h : epochInteger seconds = .ok v) :
    ∃ t : Instant, t.Writable ∧ v = .time t := by
  unfold epochInteger at h
  split at h
  · exact ⟨_, Instant.writable_ofUnix _ _, (Except.ok.inj h).symm⟩
  · cases h

theorem epochTag_writable {content : Item} {v : Value} (h : epochTag content = .ok v) :
    ∃ t : Instant, t.Writable ∧ v = .time t := by
  unfold epochTag at h
  split at h
  · exact epochInteger_writable h
  · exact epochInteger_writable h
  · split at h
    · exact ⟨_, epochFloat_writable _, (Except.ok.inj h).symm⟩
    · cases h
  · cases h

/-! ## Tags -/

theorem interpret_tag {arg : Argument} {content : Item}
    (hstrip : ¬ (strip = true ∧ arg.value = selfDescribed))
    (hchain : chainError? (.tag arg content) = none) :
    (Item.tag arg content).interpret strip =
      match arg.value with
      | 0 => timestampTag content
      | 1 => epochTag content
      | 2 => .ok (.big (Bytes.toNat content.contents))
      | 3 => .ok (.big (-1 - Bytes.toNat content.contents))
      | number => do return .tag number (← content.interpret false) := by
  rw [Item.interpret, if_neg hstrip]
  split
  · rename_i e he
    rw [hchain] at he
    cases he
  · rfl

/-- Integers of any size are no keys. -/
theorem not_key?_big {v : Value} (n : Int) :
    ∀ k, (Value.big n).key? = some k → k.IsKey ∧ v.key? = some k.again := by
  intro k hk
  cases hk

section Tagged

variable {inner : Nat}
  (hwrap : ∀ {n it w}, n < wordCount → Canonical true inner it w →
    Canonical afterTag depth (.tag (shortArgument n) it) (shortHead .tag n ++ w))

include hwrap

/-- Integers beyond a word are the bytes of a number under a tag. -/
theorem faithful_bignum {number m : Nat} {n : Int}
    (hnumber : number = 2 ∧ n = m ∨ number = 3 ∧ n = -1 - m)
    (hlarge : wordCount ≤ m) (hlength : (Bytes.ofNat m).length < wordHalf) :
    (Copy.mk (.big n) (.tag (shortArgument number)
        (.string .bytes (shortArgument (Bytes.ofNat m).length) (Bytes.ofNat m)))
      (shortHead .tag number ++ shortString .bytes (Bytes.ofNat m))).Faithful
      strip afterTag depth := by
  have hencode : (Value.big n).encode .canonical
      = .ok (shortHead .tag number ++ shortString .bytes (Bytes.ofNat m)) := by
    rw [Value.encode]
    rcases hnumber with ⟨rfl, rfl⟩ | ⟨rfl, rfl⟩
    · exact congrArg Except.ok (if_neg (Nat.not_lt.2 hlarge))
    · have hneg : (-1 - (m : Int)) = Int.negSucc m := by omega
      rw [hneg]
      exact congrArg Except.ok (if_neg (Nat.not_lt.2 hlarge))
  have hlt : number < wordCount := by
    rcases hnumber with ⟨rfl, -⟩ | ⟨rfl, -⟩ <;> decide
  have hchain : chainError? (.tag (shortArgument number)
      (.string .bytes (shortArgument (Bytes.ofNat m).length) (Bytes.ofNat m))) = none := by
    rcases hnumber with ⟨rfl, -⟩ | ⟨rfl, -⟩ <;> rfl
  refine faithful_of_interpret (v := .big n) hencode (hwrap hlt (.string .bytes hlength)) hchain ?_
    hencode (Value.flat_big n) (Value.flat_big n) (not_key?_big n)
  rw [interpret_tag _ hchain]
  · rcases hnumber with ⟨rfl, rfl⟩ | ⟨rfl, rfl⟩
    · simp [shortArgument, Item.contents, Bytes.toNat_ofNat]
    · simp [shortArgument, Item.contents, Bytes.toNat_ofNat]
  · rintro ⟨-, hself⟩
    rcases hnumber with ⟨rfl, -⟩ | ⟨rfl, -⟩ <;> cases hself

/-- An integer of any size, given as the bytes of a number. -/
theorem exists_copy_big {n : Int} {cs : Bytes} (hcs : cs.length < wordHalf)
    (hn : n = Bytes.toNat cs ∨ n = -1 - Bytes.toNat cs) :
    ∃ c : Copy, c.value = .big n ∧ c.Faithful strip afterTag depth := by
  have hlength := Nat.lt_of_le_of_lt (Bytes.length_ofNat_toNat_le cs) hcs
  by_cases hlarge : wordCount ≤ Bytes.toNat cs
  · rcases hn with rfl | rfl
    · exact ⟨_, rfl, faithful_bignum hwrap (.inl ⟨rfl, rfl⟩) hlarge hlength⟩
    · exact ⟨_, rfl, faithful_bignum hwrap (.inr ⟨rfl, rfl⟩) hlarge hlength⟩
  · -- the integer fits a head, and is read back as a word
    have hlt := Nat.not_le.1 hlarge
    generalize Bytes.toNat cs = m at hn hlt
    rcases hn with rfl | rfl
    · refine ⟨⟨.big m, .unsigned (shortArgument m), shortHead .unsigned m⟩, rfl, ?_⟩
      refine faithful_of_interpret (v := .unsigned m) ?_ (.unsigned hlt) rfl ?_ ?_
        (Value.flat_big m) (Value.flat_of_key? rfl) (not_key?_big m)
      · rw [Value.encode]
        exact congrArg Except.ok (if_pos hlt)
      · rw [Item.interpret]
        rfl
      · rw [Value.encode]
    · refine ⟨⟨.big (-1 - m), .negative (shortArgument m), shortHead .negative m⟩, rfl, ?_⟩
      refine faithful_of_interpret (v := negative m) ?_ (.negative hlt) rfl ?_
        (encode_negative hlt) (Value.flat_big _) (flat_negative m) (not_key?_big _)
      · rw [Value.encode, integer_negative m hlt]
      · rw [Item.interpret]
        rfl

theorem faithful_tag (hc : c.Faithful false true inner) {number : Nat} (hfour : 4 ≤ number)
    (hlt : number < wordCount) (hstrip : ¬ (strip = true ∧ number = selfDescribed)) :
    (Copy.mk (.tag number c.value) (.tag (shortArgument number) c.item)
      (shortHead .tag number ++ c.bytes)).Faithful strip afterTag depth := by
  have hzero : number ≠ 0 := by omega
  -- only the numbers below four say anything of the content
  have hchain : chainError? (.tag (shortArgument number) c.item) = none := by
    have hcontent : contentError? number c.item = none := by
      unfold contentError?
      split
      · omega
      · omega
      · omega
      · omega
      · rfl
    simp only [chainError?, shortArgument, hcontent, hc.chainError_eq]
  have hinterpret : (Item.tag (shortArgument number) c.item).interpret strip
      = (c.item.interpret false).map (Value.tag number) := by
    rw [interpret_tag hstrip hchain]
    dsimp only [shortArgument]
    split
    · omega
    · omega
    · omega
    · omega
    · rfl
  have hencode : ∀ v : Value, v.encode .canonical = .ok c.bytes →
      (Value.tag number v).encode .canonical = .ok (shortHead .tag number ++ c.bytes) := by
    intro v hv
    rw [Value.encode_tag hzero, hv]
    rfl
  have hread : ∀ v, (Item.tag (shortArgument number) c.item).interpret strip = .ok v →
      ∃ v', c.item.interpret false = .ok v' ∧ v = .tag number v' := by
    intro v hv
    rw [hinterpret] at hv
    cases hcontent : c.item.interpret false with
    | error e =>
        rw [hcontent] at hv
        cases hv
    | ok v' =>
        rw [hcontent] at hv
        exact ⟨v', rfl, (Except.ok.inj hv).symm⟩
  refine ⟨hencode _ hc.encode_eq, hwrap hlt hc.canonical, hchain, ?_, ?_, ?_, ?_⟩
  · intro hapart
    obtain ⟨v, hv⟩ := hc.exists_interpret (Value.allMaps_tag_iff.1 hapart)
    exact ⟨.tag number v, by rw [hinterpret, hv]; rfl⟩
  · intro v hv
    obtain ⟨v', hv', rfl⟩ := hread v hv
    obtain ⟨hapart, hagain⟩ := hc.of_interpret v' hv'
    exact ⟨Value.allMaps_tag_iff.2 hapart, hencode v' hagain⟩
  · intro v hv
    obtain ⟨v', hv', rfl⟩ := hread v hv
    rw [Value.oneForm_tag_iff hzero (hc.of_interpret v' hv').2, hc.oneForm_iff v' hv']
    exact Value.allMaps_tag_iff.symm
  · intro k hk
    obtain ⟨k', hk', rfl⟩ := Option.map_eq_some_iff.1 hk
    obtain ⟨hkey, v, hv, hagain⟩ := hc.of_key? k' hk'
    refine ⟨.tag hzero hlt hkey, .tag number v, by rw [hinterpret, hv]; rfl, ?_⟩
    rw [Value.key?, hagain]
    rfl

theorem exists_copy_tag (hweaken : ∀ {it w}, Canonical true inner it w →
      Canonical afterTag depth it w) {arg : Argument} {content : Item} {v u : Value}
    (harg : arg.Bounded .tag) (hsound : Sound true inner content)
    (ih : ∀ {strip v u}, content.interpret strip = .ok v → v.Rearranged u →
      ∃ c : Copy, c.value = u ∧ c.Faithful strip true inner)
    (h : (Item.tag arg content).interpret strip = .ok v) (hu : v.Rearranged u) :
    ∃ c : Copy, c.value = u ∧ c.Faithful strip afterTag depth := by
  by_cases hstrip : strip = true ∧ arg.value = selfDescribed
  · -- the tag is dropped, and the copy is that of the content
    rw [Item.interpret, if_pos hstrip] at h
    obtain ⟨rfl, -⟩ := hstrip
    obtain ⟨c, rfl, hc⟩ := ih h hu
    exact ⟨c, rfl, { hc with canonical := hweaken hc.canonical }⟩
  cases hchain : chainError? (.tag arg content) with
  | some e =>
      rw [Item.interpret, if_neg hstrip, hchain] at h
      cases h
  | none =>
      rw [interpret_tag hstrip hchain] at h
      split at h
      · obtain ⟨t, ht, rfl⟩ := timestampTag_writable h
        obtain rfl := hu.eq_of_flat (Value.flat_of_key? rfl)
        exact exists_copy_time ht
      · obtain ⟨t, ht, rfl⟩ := epochTag_writable h
        obtain rfl := hu.eq_of_flat (Value.flat_of_key? rfl)
        exact exists_copy_time ht
      · obtain rfl := Except.ok.inj h
        obtain rfl := hu.eq_of_flat (Value.flat_big _)
        exact exists_copy_big hwrap hsound.length_contents (.inl rfl)
      · obtain rfl := Except.ok.inj h
        obtain rfl := hu.eq_of_flat (Value.flat_big _)
        exact exists_copy_big hwrap hsound.length_contents (.inr rfl)
      · rename_i hzero hone htwo hthree
        rw [imp_false] at hzero hone htwo hthree
        have hfour : 4 ≤ arg.value := by omega
        obtain ⟨v', hv', hresult⟩ := Step.bind_eq_ok.1 h
        obtain rfl := Except.ok.inj hresult
        obtain ⟨u', hu', rfl⟩ := Value.rearranged_tag_iff.1 hu
        obtain ⟨c, rfl, hc⟩ := ih hv' hu'
        exact ⟨_, rfl, faithful_tag hwrap hc hfour harg.lt_wordCount hstrip⟩

end Tagged

end Copy

end RoundTrip.Cbor
