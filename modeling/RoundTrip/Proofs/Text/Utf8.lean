import RoundTrip.Text.Utf8

/-!
# UTF-8 is read as it is written

Characters and their bytes determine each other: the bytes of a character are found as that
character in front of every rest, and the glyphs of a byte string make up the string. So a byte
string is well-formed exactly when it is a row of the bytes of characters, and then it has the bytes
of its text. An ASCII character ends what is in front of it, well-formed or not.

Main statements: `glyphs_flatMap`, `flatMap_glyphs`, `isValid_iff`, `glyphs_append_ascii`,
`Bytes.ofString_text`.
-/

set_option autoImplicit false

namespace RoundTrip

namespace Utf8

/-! ## Characters and their numbers -/

theorem toNat_ofNat {n : Nat} (h : n < 0xd800 ∨ (0xdfff < n ∧ n < 0x110000)) :
    (Char.ofNat n).toNat = n := by
  have hvalid : n.isValidChar := h
  rw [Char.ofNat, dif_pos hvalid]
  rfl

theorem toNat_valid (c : Char) : c.toNat < 0xd800 ∨ (0xdfff < c.toNat ∧ c.toNat < 0x110000) :=
  c.valid

theorem ofNat_eq_iff {a : UInt8} {n : Nat} (h : n < 256) : UInt8.ofNat n = a ↔ n = a.toNat := by
  rw [← UInt8.toNat_inj, UInt8.toNat_ofNat', Nat.mod_eq_of_lt h]

theorem isContinuation_iff {b : UInt8} :
    isContinuation b = true ↔ 0x80 ≤ b.toNat ∧ b.toNat ≤ 0xbf := by
  simp [isContinuation, UInt8.le_iff_toNat_le]

theorem encode_eq (c : Char) :
    encode c =
      if c.toNat ≤ 0x7f then [UInt8.ofNat c.toNat]
      else if c.toNat ≤ 0x7ff then
        [UInt8.ofNat (c.toNat / 64 % 32 + 192), UInt8.ofNat (c.toNat % 64 + 128)]
      else if c.toNat ≤ 0xffff then
        [UInt8.ofNat (c.toNat / 4096 % 16 + 224), UInt8.ofNat (c.toNat / 64 % 64 + 128),
          UInt8.ofNat (c.toNat % 64 + 128)]
      else
        [UInt8.ofNat (c.toNat / 262144 % 8 + 240), UInt8.ofNat (c.toNat / 4096 % 64 + 128),
          UInt8.ofNat (c.toNat / 64 % 64 + 128), UInt8.ofNat (c.toNat % 64 + 128)] := rfl

/-- A character is told by its number. -/
theorem ofNat_eq_char_iff {n : Nat} {c : Char} (h : n < 0xd800 ∨ (0xdfff < n ∧ n < 0x110000)) :
    Char.ofNat n = c ↔ n = c.toNat := by
  constructor
  · rintro rfl
    exact (toNat_ofNat h).symm
  · rintro rfl
    exact Char.ofNat_toNat c

theorem encode_ascii {c : Char} (h : c.toNat < 0x80) : encode c = [UInt8.ofNat c.toNat] := by
  rw [encode_eq, if_pos (by omega)]

/-! ## Characters by the number of their bytes -/

theorem encode_eq_one_iff {c : Char} {a : UInt8} :
    encode c = [a] ↔ a < 0x80 ∧ Char.ofNat a.toNat = c := by
  have ha := a.toNat_lt
  rw [encode_eq, UInt8.lt_iff_toNat_lt, ofNat_eq_char_iff (by omega)]
  split
  · rw [List.cons_eq_cons, ofNat_eq_iff (by omega)]
    simp
    omega
  · split
    · simp
      omega
    · split
      · simp
        omega
      · simp
        omega

theorem two?_eq_some_iff {a b : UInt8} {c : Char} :
    two? a b = some c ↔
      (0xc2 ≤ a.toNat ∧ a.toNat ≤ 0xdf ∧ (0x80 ≤ b.toNat ∧ b.toNat ≤ 0xbf))
        ∧ a.toNat % 32 * 64 + b.toNat % 64 = c.toNat := by
  rw [two?, low]
  simp only [isContinuation_iff, UInt8.le_iff_toNat_le, UInt8.reduceToNat]
  split
  · rename_i hrange
    rw [Option.some.injEq, ofNat_eq_char_iff (by omega)]
    exact (and_iff_right hrange).symm
  · rename_i hrange
    simp only [hrange, false_and, reduceCtorEq]

theorem three?_eq_some_iff {a b d : UInt8} {c : Char} :
    three? a b d = some c ↔
      (0xe0 ≤ a.toNat ∧ a.toNat ≤ 0xef ∧ (0x80 ≤ b.toNat ∧ b.toNat ≤ 0xbf)
        ∧ (0x80 ≤ d.toNat ∧ d.toNat ≤ 0xbf) ∧ (a.toNat = 0xe0 → 0xa0 ≤ b.toNat)
        ∧ (a.toNat = 0xed → b.toNat ≤ 0x9f))
        ∧ a.toNat % 16 * 4096 + b.toNat % 64 * 64 + d.toNat % 64 = c.toNat := by
  rw [three?, low, low]
  simp only [isContinuation_iff, UInt8.le_iff_toNat_le, ← UInt8.toNat_inj, UInt8.reduceToNat]
  split
  · rename_i hrange
    rw [Option.some.injEq, ofNat_eq_char_iff (by omega)]
    exact (and_iff_right hrange).symm
  · rename_i hrange
    simp only [hrange, false_and, reduceCtorEq]

theorem four?_eq_some_iff {a b d e : UInt8} {c : Char} :
    four? a b d e = some c ↔
      (0xf0 ≤ a.toNat ∧ a.toNat ≤ 0xf4 ∧ (0x80 ≤ b.toNat ∧ b.toNat ≤ 0xbf)
        ∧ (0x80 ≤ d.toNat ∧ d.toNat ≤ 0xbf) ∧ (0x80 ≤ e.toNat ∧ e.toNat ≤ 0xbf)
        ∧ (a.toNat = 0xf0 → 0x90 ≤ b.toNat) ∧ (a.toNat = 0xf4 → b.toNat ≤ 0x8f))
        ∧ a.toNat % 8 * 262144 + b.toNat % 64 * 4096 + d.toNat % 64 * 64 + e.toNat % 64
          = c.toNat := by
  rw [four?, low, low, low]
  simp only [isContinuation_iff, UInt8.le_iff_toNat_le, ← UInt8.toNat_inj, UInt8.reduceToNat]
  split
  · rename_i hrange
    rw [Option.some.injEq, ofNat_eq_char_iff (by omega)]
    exact (and_iff_right hrange).symm
  · rename_i hrange
    simp only [hrange, false_and, reduceCtorEq]

theorem encode_eq_two_iff {a b : UInt8} {c : Char} : encode c = [a, b] ↔ two? a b = some c := by
  have ha := a.toNat_lt
  have hb := b.toNat_lt
  rw [two?_eq_some_iff, encode_eq]
  split
  · simp
    omega
  · split
    · simp only [List.cons_eq_cons]
      rw [ofNat_eq_iff (by omega), ofNat_eq_iff (by omega)]
      simp
      omega
    · split
      · simp
        omega
      · simp
        omega

theorem encode_eq_three_iff {a b d : UInt8} {c : Char} :
    encode c = [a, b, d] ↔ three? a b d = some c := by
  have hvalid := toNat_valid c
  have ha := a.toNat_lt
  have hb := b.toNat_lt
  have hd := d.toNat_lt
  rw [three?_eq_some_iff, encode_eq]
  split
  · simp
    omega
  · split
    · simp
      omega
    · split
      · simp only [List.cons_eq_cons]
        rw [ofNat_eq_iff (by omega), ofNat_eq_iff (by omega), ofNat_eq_iff (by omega)]
        simp
        omega
      · simp
        omega

theorem encode_eq_four_iff {a b d e : UInt8} {c : Char} :
    encode c = [a, b, d, e] ↔ four? a b d e = some c := by
  have hvalid := toNat_valid c
  have ha := a.toNat_lt
  have hb := b.toNat_lt
  have hd := d.toNat_lt
  have he := e.toNat_lt
  rw [four?_eq_some_iff, encode_eq]
  split
  · simp
    omega
  · split
    · simp
      omega
    · split
      · simp
        omega
      · simp only [List.cons_eq_cons]
        rw [ofNat_eq_iff (by omega), ofNat_eq_iff (by omega), ofNat_eq_iff (by omega),
          ofNat_eq_iff (by omega)]
        simp
        omega

/-! ## The glyph at the front -/

theorem not_lt_of_toNat {a : UInt8} (h : 0x80 ≤ a.toNat) : ¬ a < 0x80 := by
  simp only [UInt8.lt_iff_toNat_lt, UInt8.reduceToNat]
  omega

theorem two?_eq_none {a : UInt8} (h : 0xe0 ≤ a.toNat) (b : UInt8) : two? a b = none := by
  apply Option.eq_none_iff_forall_ne_some.2
  intro c hc
  have hrange := (two?_eq_some_iff.1 hc).1
  omega

theorem three?_eq_none {a : UInt8} (h : 0xf0 ≤ a.toNat) (b d : UInt8) : three? a b d = none := by
  apply Option.eq_none_iff_forall_ne_some.2
  intro c hc
  have hrange := (three?_eq_some_iff.1 hc).1
  omega

/-- The bytes of a character are found as that character. -/
theorem front_encode (c : Char) :
    ∃ a tail, encode c = a :: tail ∧ ∀ rest, front a (tail ++ rest) = (.char c, tail.length) := by
  have hcases : ∃ a tail, encode c = a :: tail ∧ tail.length < 4 := by
    rw [encode_eq]
    (repeat' split) <;> exact ⟨_, _, rfl, by simp⟩
  obtain ⟨a, tail, hencode, hlength⟩ := hcases
  refine ⟨a, tail, hencode, ?_⟩
  intro rest
  match tail, hlength with
  | [], _ =>
      obtain ⟨hsmall, rfl⟩ := encode_eq_one_iff.1 hencode
      simp [front.eq_def, hsmall]
  | [b], _ =>
      have htwo := encode_eq_two_iff.1 hencode
      have hrange := (two?_eq_some_iff.1 htwo).1
      simp [front, not_lt_of_toNat (a := a) (by omega), htwo]
  | [b, d], _ =>
      have hthree := encode_eq_three_iff.1 hencode
      have hrange := (three?_eq_some_iff.1 hthree).1
      simp [front, not_lt_of_toNat (a := a) (by omega), two?_eq_none hrange.1, hthree]
  | [b, d, e], _ =>
      have hfour := encode_eq_four_iff.1 hencode
      have hrange := (four?_eq_some_iff.1 hfour).1
      simp [front, not_lt_of_toNat (a := a) (by omega), two?_eq_none (a := a) (by omega),
        three?_eq_none hrange.1, hfour]

/-- A character at the front of a byte string is there with its bytes. -/
theorem append_of_front {a : UInt8} {bs : Bytes} {c : Char} {k : Nat}
    (h : front a bs = (.char c, k)) : a :: bs = encode c ++ bs.drop k := by
  rw [front.eq_def] at h
  split at h
  · rename_i hsmall
    cases h
    rw [encode_eq_one_iff.2 ⟨hsmall, rfl⟩]
    rfl
  · split at h
    · cases h
    · split at h
      · rename_i htwo
        cases h
        rw [encode_eq_two_iff.2 htwo]
        rfl
      · split at h
        · cases h
        · split at h
          · rename_i hthree
            cases h
            rw [encode_eq_three_iff.2 hthree]
            rfl
          · split at h
            · cases h
            · split at h
              · rename_i hfour
                cases h
                rw [encode_eq_four_iff.2 hfour]
                rfl
              · cases h

/-- A byte that belongs to no character is alone. -/
theorem of_front_stray {a b : UInt8} {bs : Bytes} {k : Nat} (h : front a bs = (.stray b, k)) :
    b = a ∧ k = 0 := by
  rw [front.eq_def] at h
  repeat' split at h
  all_goals cases h
  all_goals exact ⟨rfl, rfl⟩

/-- Bytes that belong to no character are no ASCII characters. -/
theorem le_of_front_stray {a b : UInt8} {bs : Bytes} {k : Nat} (h : front a bs = (.stray b, k)) :
    0x80 ≤ b.toNat := by
  obtain ⟨rfl, -⟩ := of_front_stray h
  apply Nat.le_of_not_lt
  intro hlt
  have hsmall : b < 0x80 := by
    simp only [UInt8.lt_iff_toNat_lt, UInt8.reduceToNat]
    omega
  rw [front.eq_def, if_pos hsmall] at h
  cases h

theorem front_le (a : UInt8) (bs : Bytes) : (front a bs).2 ≤ bs.length := by
  rw [front.eq_def]
  repeat' split
  all_goals simp

/-- An ASCII character belongs to no other character, so it does not matter what is in front of it
when it ends a byte string. -/
theorem front_append_ascii (a : UInt8) (bs : Bytes) {b : UInt8} (hb : b < 0x80) (rest : Bytes) :
    front a (bs ++ b :: rest) = front a bs := by
  have hnot : isContinuation b = false := by
    rw [Bool.eq_false_iff, ne_eq, isContinuation_iff]
    simp only [UInt8.lt_iff_toNat_lt, UInt8.reduceToNat] at hb
    omega
  match bs with
  | [] =>
      cases rest with
      | nil => simp [front, two?, hnot]
      | cons c rest =>
          cases rest with
          | nil => simp [front, two?, three?, hnot]
          | cons d rest => simp [front, two?, three?, four?, hnot]
  | [x] =>
      cases rest with
      | nil => simp [front, three?, hnot]
      | cons c rest => simp [front, three?, four?, hnot]
  | [x, y] => simp [front, four?, hnot]
  | x :: y :: z :: bs => simp [front]

/-! ## Rows of glyphs -/

theorem glyphsLoop_eq (skip : Nat) (done : List Glyph) (bs : Bytes) :
    glyphsLoop skip done bs = done.reverse ++ glyphs (bs.drop skip) := by
  induction bs generalizing skip done with
  | nil => simp [glyphsLoop, glyphs]
  | cons a bs ih =>
      cases skip with
      | zero =>
          have hglyphs : glyphs (a :: bs) = glyphsLoop (front a bs).2 [(front a bs).1] bs := rfl
          rw [glyphsLoop, ih, List.drop_zero, hglyphs, ih]
          simp
      | succ skip => rw [glyphsLoop, ih, List.drop_succ_cons]

theorem glyphs_cons (a : UInt8) (bs : Bytes) :
    glyphs (a :: bs) = (front a bs).1 :: glyphs (bs.drop (front a bs).2) := by
  rw [glyphs, glyphsLoop, glyphsLoop_eq]
  rfl

theorem glyphs_encode_append (c : Char) (rest : Bytes) :
    glyphs (encode c ++ rest) = .char c :: glyphs rest := by
  obtain ⟨a, tail, hencode, hfront⟩ := front_encode c
  rw [hencode, List.cons_append, glyphs_cons, hfront]
  simp

/-- **Characters are read from their bytes.** -/
theorem glyphs_flatMap (cs : List Char) : glyphs (cs.flatMap encode) = cs.map Glyph.char := by
  induction cs with
  | nil => rfl
  | cons c cs ih => rw [List.flatMap_cons, glyphs_encode_append, ih, List.map_cons]

/-- **The glyphs of a byte string make it up.** -/
theorem flatMap_glyphs (bs : Bytes) : (glyphs bs).flatMap Glyph.bytes = bs := by
  -- a glyph takes at least one byte, so the rest behind it is shorter
  induction hlength : bs.length using Nat.strongRecOn generalizing bs with
  | ind n ih =>
      cases bs with
      | nil => rfl
      | cons a bs =>
          have hshort : (bs.drop (front a bs).2).length < n := by
            rw [List.length_cons] at hlength
            rw [List.length_drop]
            omega
          rw [glyphs_cons, List.flatMap_cons, ih _ hshort _ rfl]
          rcases hfront : front a bs with ⟨g, k⟩
          cases g with
          | char c => exact (append_of_front hfront).symm
          | stray b =>
              obtain ⟨rfl, rfl⟩ := of_front_stray hfront
              rfl

theorem glyphs_inj {bs cs : Bytes} (h : glyphs bs = glyphs cs) : bs = cs := by
  rw [← flatMap_glyphs bs, h, flatMap_glyphs]

theorem le_of_stray_mem {bs : Bytes} {b : UInt8} (h : .stray b ∈ glyphs bs) : 0x80 ≤ b.toNat := by
  induction hlength : bs.length using Nat.strongRecOn generalizing bs with
  | ind n ih =>
      cases bs with
      | nil => cases h
      | cons a bs =>
          have hshort : (bs.drop (front a bs).2).length < n := by
            rw [List.length_cons] at hlength
            rw [List.length_drop]
            omega
          rw [glyphs_cons] at h
          rcases List.mem_cons.1 h with heq | h
          · have hfront : front a bs = (.stray b, (front a bs).2) := Prod.ext heq.symm rfl
            exact le_of_front_stray hfront
          · exact ih _ hshort h rfl

/-- **An ASCII character ends what is in front of it.** -/
theorem glyphs_append_ascii (bs : Bytes) {b : UInt8} (hb : b < 0x80) (rest : Bytes) :
    glyphs (bs ++ b :: rest) = glyphs bs ++ .char (Char.ofNat b.toNat) :: glyphs rest := by
  induction hlength : bs.length using Nat.strongRecOn generalizing bs with
  | ind n ih =>
      cases bs with
      | nil =>
          rw [List.nil_append, glyphs_cons, front.eq_def, if_pos hb]
          rfl
      | cons a bs =>
          have hshort : (bs.drop (front a bs).2).length < n := by
            rw [List.length_cons] at hlength
            rw [List.length_drop]
            omega
          rw [List.cons_append, glyphs_cons, glyphs_cons, front_append_ascii a bs hb rest,
            List.drop_append_of_le_length (front_le a bs), ih _ hshort _ rfl, List.cons_append]

theorem exists_chars {gs : List Glyph} (h : gs.all Glyph.isChar = true) :
    ∃ cs : List Char, gs = cs.map Glyph.char := by
  induction gs with
  | nil => exact ⟨[], rfl⟩
  | cons g gs ih =>
      rw [List.all_cons, Bool.and_eq_true] at h
      obtain ⟨cs, rfl⟩ := ih h.2
      cases g with
      | char c => exact ⟨c :: cs, rfl⟩
      | stray b => cases h.1

/-- **Well-formed byte strings are those of characters.** -/
theorem isValid_iff {bs : Bytes} :
    isValid bs = true ↔ ∃ cs : List Char, bs = cs.flatMap encode := by
  constructor
  · intro h
    obtain ⟨cs, hcs⟩ := exists_chars h
    refine ⟨cs, ?_⟩
    rw [← flatMap_glyphs bs, hcs, List.flatMap_map]
    rfl
  · rintro ⟨cs, rfl⟩
    simp [isValid, glyphs_flatMap, Glyph.isChar]

theorem isValid_flatten {parts : List Bytes} (h : ∀ bs ∈ parts, isValid bs = true) :
    isValid parts.flatten = true := by
  induction parts with
  | nil => rfl
  | cons bs parts ih =>
      rw [List.forall_mem_cons] at h
      obtain ⟨cs, rfl⟩ := isValid_iff.1 h.1
      obtain ⟨ds, hds⟩ := isValid_iff.1 (ih h.2)
      exact isValid_iff.2 ⟨cs ++ ds, by rw [List.flatten_cons, hds, List.flatMap_append]⟩

theorem isValid_append {bs cs : Bytes} (hbs : isValid bs = true) (hcs : isValid cs = true) :
    isValid (bs ++ cs) = true := by
  have hflat : isValid [bs, cs].flatten = true := isValid_flatten (by simp [hbs, hcs])
  simpa using hflat

end Utf8

/-! ## Bytes of texts -/

namespace Bytes

theorem ofString_ofList (cs : List Char) :
    ofString (String.ofList cs) = cs.flatMap Utf8.encode := by
  simp [ofString, List.utf8Encode]
  rfl

theorem ofString_eq (s : String) : ofString s = s.toList.flatMap Utf8.encode := by
  rw [← ofString_ofList, String.ofList_toList]

theorem ofString_append (s t : String) : ofString (s ++ t) = ofString s ++ ofString t := by
  simp [ofString]

/-- A text in front of bytes is read as its characters. -/
theorem glyphs_ofString_append (s : String) (bs : Bytes) :
    Utf8.glyphs (ofString s ++ bs) = s.toList.map Utf8.Glyph.char ++ Utf8.glyphs bs := by
  rw [ofString_eq]
  induction s.toList with
  | nil => rfl
  | cons c cs ih =>
      rw [List.flatMap_cons, List.append_assoc, Utf8.glyphs_encode_append, ih]
      rfl

theorem glyphs_ofString (s : String) :
    Utf8.glyphs (ofString s) = s.toList.map Utf8.Glyph.char := by
  rw [ofString_eq, Utf8.glyphs_flatMap]

/-- **The text of the bytes of a text is the text.** -/
theorem text_ofString (s : String) : Utf8.text (ofString s) = s := by
  have hseen : Utf8.Glyph.seen ∘ Utf8.Glyph.char = id := rfl
  rw [Utf8.text, glyphs_ofString, List.map_map, hseen, List.map_id, String.ofList_toList]

theorem ofString_inj {s t : String} (h : ofString s = ofString t) : s = t := by
  rw [← text_ofString s, h, text_ofString]

theorem isValid_ofString (s : String) : Utf8.isValid (ofString s) = true :=
  Utf8.isValid_iff.2 ⟨s.toList, ofString_eq s⟩

/-- Well-formed bytes are those of their text. -/
theorem ofString_text {bs : Bytes} (h : Utf8.isValid bs = true) : ofString (Utf8.text bs) = bs := by
  obtain ⟨cs, rfl⟩ := Utf8.isValid_iff.1 h
  rw [← ofString_ofList, text_ofString]

end Bytes

end RoundTrip
