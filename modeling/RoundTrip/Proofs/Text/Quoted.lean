import Mathlib.Algebra.Order.Ring.Nat
import Mathlib.Data.List.Chain
import RoundTrip.Proofs.Json.Strings
import RoundTrip.Text.Quoted

/-!
# Texts between quotes can be read back

Inside quotes a glyph stands for itself or is escaped behind a backslash, by a letter or by a mark
and a number of fixed width. Such spellings are told apart at the front of any row of glyphs, and
none starts with a quote, so a text between quotes ends at its second lone quote.

Main statements: `Spelling.append_inj` for one glyph, `flatMap_append_inj` for a row of them up to a
quote, and `quoted_append_inj` for quoted byte strings. `slash_of_quote` says that a quote inside a
row stands behind a backslash.
-/

set_option autoImplicit false

namespace RoundTrip.Text

open RoundTrip.Utf8 (Glyph glyphs)

/-! ## Numbers of fixed width -/

theorem length_pad_toDigits {w n : Nat} (hw : 0 < w) (hn : n < 16 ^ w) :
    (pad w (Nat.toDigits 16 n)).length = w := by
  have hle := (Nat.length_toDigits_le_iff (b := 16) (by decide) hw).2 hn
  simp only [pad, List.length_append, List.length_replicate]
  omega

theorem hexDigit_inj {m n : Nat} (hm : m < 16) (hn : n < 16) (h : m.digitChar = n.digitChar) :
    m = n := by
  have hinj : ∀ m < 16, ∀ n < 16, m.digitChar = n.digitChar → m = n := by decide
  exact hinj m hm n hn h

/-- Digits of the same width are those of one number only. -/
theorem pad_toDigits_inj {w m n : Nat} (hw : 0 < w) (hm : m < 16 ^ w) (hn : n < 16 ^ w)
    (h : pad w (Nat.toDigits 16 m) = pad w (Nat.toDigits 16 n)) : m = n := by
  -- on the width: the last digit of each number is split off, down to one digit
  induction w generalizing m n with
  | zero => exact absurd hw (Nat.lt_irrefl 0)
  | succ w ih =>
      cases w with
      | zero =>
          rw [Nat.zero_add, Nat.pow_one] at hm hn
          rw [Nat.toDigits_of_lt_base hm, Nat.toDigits_of_lt_base hn] at h
          exact hexDigit_inj hm hn (List.cons.inj h).1
      | succ w =>
          rw [Json.pad_toDigits_succ (by decide) m (by omega),
            Json.pad_toDigits_succ (by decide) n (by omega)] at h
          obtain ⟨hfront, hlast⟩ := List.append_inj' h rfl
          rw [Nat.pow_succ] at hm hn
          have hdiv : m / 16 = n / 16 := ih (by omega) (by omega) (by omega) hfront
          have hmod : m % 16 = n % 16 :=
            hexDigit_inj (by omega) (by omega) (List.cons.inj hlast).1
          omega

theorem exists_digit_of_mem_toDigits {n : Nat} {b : Char} (h : b ∈ Nat.toDigits 16 n) :
    ∃ d < 16, b = d.digitChar := by
  induction n using Nat.strongRecOn with
  | ind n ih =>
      by_cases hn : n < 16
      · rw [Nat.toDigits_of_lt_base hn] at h
        exact ⟨n, hn, List.mem_singleton.1 h⟩
      · rw [Nat.toDigits_of_base_le (by decide) (by omega)] at h
        rcases List.mem_append.1 h with h | h
        · exact ih (n / 16) (by omega) h
        · exact ⟨n % 16, by omega, List.mem_singleton.1 h⟩

theorem quote_not_mem_pad (w n : Nat) : '"' ∉ pad w (Nat.toDigits 16 n) := by
  intro h
  rcases List.mem_append.1 h with h | h
  · exact absurd (List.eq_of_mem_replicate h) (by decide)
  · obtain ⟨d, hd, hdigit⟩ := exists_digit_of_mem_toDigits h
    have hne : ∀ d < 16, '"' ≠ d.digitChar := by decide
    exact hne d hd hdigit

theorem toList_paddedHex (w n : Nat) : (paddedHex w n).toList = pad w (Nat.toDigits 16 n) :=
  String.toList_ofList

/-! ## Glyphs -/

/-- The glyphs of a text. -/
def chars (s : String) : List Glyph := s.toList.map .char

theorem chars_ofList (cs : List Char) : chars (String.ofList cs) = cs.map .char := by
  rw [chars, String.toList_ofList]

theorem chars_append (s t : String) : chars (s ++ t) = chars s ++ chars t := by
  rw [chars, String.toList_append, List.map_append]
  rfl

theorem chars_inj {s t : String} (h : chars s = chars t) : s = t :=
  String.toList_inj.1 (List.map_injective_iff.2 (fun _ _ h => Glyph.char.inj h) h)

/-- The characters that a letter behind a backslash stands for. -/
def letters : List (Char × Char) :=
  [('"', '"'), ('\\', '\\'), ('\x07', 'a'), ('\x08', 'b'), ('\t', 't'), ('\n', 'n'), ('\x0b', 'v'),
    ('\x0c', 'f'), ('\r', 'r')]

/-- The marks of numbers behind a backslash, with the widths of the numbers. -/
def marks : List (Char × Nat) := [('x', 2), ('u', 4), ('U', 8)]

theorem letters_inj {c d l : Char} (hc : (c, l) ∈ letters) (hd : (d, l) ∈ letters) : c = d := by
  have hinj : ∀ p ∈ letters, ∀ q ∈ letters, p.2 = q.2 → p.1 = q.1 := by decide
  exact hinj _ hc _ hd rfl

theorem letter_ne_mark {c l m : Char} {w : Nat} (hl : (c, l) ∈ letters) (hm : (m, w) ∈ marks) :
    l ≠ m := by
  have hne : ∀ p ∈ letters, ∀ q ∈ marks, p.2 ≠ q.1 := by decide
  exact hne _ hl _ hm

theorem marks_inj {m : Char} {v w : Nat} (hv : (m, v) ∈ marks) (hw : (m, w) ∈ marks) : v = w := by
  have hinj : ∀ p ∈ marks, ∀ q ∈ marks, p.1 = q.1 → p.2 = q.2 := by decide
  exact hinj _ hv _ hw rfl

theorem marks_width_pos {m : Char} {w : Nat} (h : (m, w) ∈ marks) : 0 < w := by
  have hpos : ∀ p ∈ marks, 0 < p.2 := by decide
  exact hpos _ h

theorem mark_ne_quote {m : Char} {w : Nat} (h : (m, w) ∈ marks) : m ≠ '"' := by
  have hne : ∀ p ∈ marks, p.1 ≠ '"' := by decide
  exact hne _ h

/-- The glyph that a mark and a number stand for. Bytes that belong to no character have the mark of
the least width, which otherwise stands before ASCII characters only. -/
def numbered (m : Char) (n : Nat) : Glyph :=
  if m = 'x' ∧ 0x80 ≤ n then .stray (UInt8.ofNat n) else .char (Char.ofNat n)

/-- The ways to spell a glyph between quotes. -/
inductive Spelling : Glyph → List Glyph → Prop where
  | plain {c : Char} (hquote : c ≠ '"') (hslash : c ≠ '\\') : Spelling (.char c) [.char c]
  | letter {c l : Char} (h : (c, l) ∈ letters) : Spelling (.char c) [.char '\\', .char l]
  | number {m : Char} {w n : Nat} (h : (m, w) ∈ marks) (hn : n < 16 ^ w) :
      Spelling (numbered m n)
        (.char '\\' :: .char m :: (pad w (Nat.toDigits 16 n)).map .char)

/-- **A spelling is told apart at the front of any row.** -/
theorem Spelling.append_inj {g k : Glyph} {x y r s : List Glyph} (hx : Spelling g x)
    (hy : Spelling k y) (h : x ++ r = y ++ s) : g = k ∧ r = s := by
  cases hx with
  | plain hquote hslash =>
      cases hy with
      | plain => exact List.cons.inj h
      | letter => exact absurd (Glyph.char.inj (List.cons.inj h).1) hslash
      | number => exact absurd (Glyph.char.inj (List.cons.inj h).1) hslash
  | letter hl =>
      cases hy with
      | plain hquote' hslash' => exact absurd (Glyph.char.inj (List.cons.inj h).1).symm hslash'
      | letter hl' =>
          obtain ⟨hletter, htail⟩ := List.cons.inj (List.cons.inj h).2
          obtain rfl := Glyph.char.inj hletter
          exact ⟨congrArg Glyph.char (letters_inj hl hl'), htail⟩
      | number hm =>
          exact absurd (Glyph.char.inj (List.cons.inj (List.cons.inj h).2).1) (letter_ne_mark hl hm)
  | number hm hn =>
      cases hy with
      | plain hquote' hslash' => exact absurd (Glyph.char.inj (List.cons.inj h).1).symm hslash'
      | letter hl =>
          exact absurd (Glyph.char.inj (List.cons.inj (List.cons.inj h).2).1).symm
            (letter_ne_mark hl hm)
      | number hm' hn' =>
          obtain ⟨hmark, hdigits⟩ := List.cons.inj (List.cons.inj h).2
          obtain rfl := Glyph.char.inj hmark
          obtain rfl := marks_inj hm hm'
          have hw := marks_width_pos hm
          -- both numbers have the width of the mark, so what is behind them is the same
          obtain ⟨hnumber, htail⟩ := List.append_inj hdigits (by
            rw [List.length_map, List.length_map, length_pad_toDigits hw hn,
              length_pad_toDigits hw hn'])
          have hnumber := List.map_injective_iff.2 (fun _ _ h => Glyph.char.inj h) hnumber
          rw [pad_toDigits_inj hw hn hn' hnumber]
          exact ⟨rfl, htail⟩

/-- No spelling starts with a quote. -/
theorem Spelling.exists_cons {g : Glyph} {x : List Glyph} (h : Spelling g x) :
    ∃ a tail, x = a :: tail ∧ a ≠ .char '"' := by
  cases h with
  | plain hquote hslash => exact ⟨_, [], rfl, fun h => hquote (Glyph.char.inj h)⟩
  | letter => exact ⟨_, _, rfl, by decide⟩
  | number => exact ⟨_, _, rfl, by decide⟩

/-- A quote inside a spelling stands behind a backslash. -/
theorem Spelling.isChain {g : Glyph} {x : List Glyph} (h : Spelling g x) :
    x.IsChain fun a b => b = .char '"' → a = .char '\\' := by
  cases h with
  | plain => exact List.isChain_singleton _
  | letter => simp
  | number hm hn =>
      -- neither the mark nor a digit is a quote
      refine List.isChain_cons_cons.2 ⟨fun _ => rfl, List.Pairwise.isChain ?_⟩
      refine List.pairwise_of_forall_mem_list ?_
      rintro a - b hb rfl
      rcases List.mem_cons.1 hb with hb | hb
      · exact absurd (Glyph.char.inj hb).symm (mark_ne_quote hm)
      · obtain ⟨c, hc, hquote⟩ := List.mem_map.1 hb
        obtain rfl := Glyph.char.inj hquote
        exact absurd hc (quote_not_mem_pad _ _)

/-! ## Rows of glyphs -/

section

variable {code : Glyph → List Glyph} {seen : Glyph → Glyph}

/-- **A row of glyphs ends at the first quote that is not part of a spelling**, and is read as what
is spelled. -/
theorem flatMap_append_inj {gs ks r s : List Glyph} (hgs : ∀ g ∈ gs, Spelling (seen g) (code g))
    (hks : ∀ k ∈ ks, Spelling (seen k) (code k))
    (h : gs.flatMap code ++ .char '"' :: r = ks.flatMap code ++ .char '"' :: s) :
    gs.map seen = ks.map seen ∧ r = s := by
  induction gs generalizing ks with
  | nil =>
      cases ks with
      | nil => exact ⟨rfl, (List.cons.inj h).2⟩
      | cons k ks =>
          -- the quote that ends one row would start a spelling of the other
          obtain ⟨a, tail, hk, ha⟩ := (hks k List.mem_cons_self).exists_cons
          rw [List.flatMap_cons, hk] at h
          exact absurd (List.cons.inj h).1.symm ha
  | cons g gs ih =>
      cases ks with
      | nil =>
          obtain ⟨a, tail, hg, ha⟩ := (hgs g List.mem_cons_self).exists_cons
          rw [List.flatMap_cons, hg] at h
          exact absurd (List.cons.inj h).1 ha
      | cons k ks =>
          rw [List.flatMap_cons, List.flatMap_cons, List.append_assoc, List.append_assoc] at h
          rw [List.forall_mem_cons] at hgs hks
          obtain ⟨hseen, hrest⟩ := hgs.1.append_inj hks.1 h
          obtain ⟨hrow, htail⟩ := ih hgs.2 hks.2 hrest
          rw [List.map_cons, List.map_cons, hseen, hrow]
          exact ⟨rfl, htail⟩

/-- A quote inside a row of glyphs stands behind a backslash. -/
theorem slash_of_quote {gs front back : List Glyph} {a : Glyph}
    (hgs : ∀ g ∈ gs, Spelling (seen g) (code g))
    (h : gs.flatMap code = front ++ a :: .char '"' :: back) : a = .char '\\' := by
  have hchain : (gs.flatMap code).IsChain fun a b => b = .char '"' → a = .char '\\' := by
    clear h
    induction gs with
    | nil => exact List.isChain_nil
    | cons g gs ih =>
        rw [List.forall_mem_cons] at hgs
        rw [List.flatMap_cons]
        refine List.isChain_append.2 ⟨hgs.1.isChain, ih hgs.2, ?_⟩
        -- what follows is empty or starts with the next spelling, which is no quote
        rintro a - b hb rfl
        cases gs with
        | nil => cases hb
        | cons k ks =>
            obtain ⟨b', tail, hk, hb'⟩ := (hgs.2 k List.mem_cons_self).exists_cons
            rw [List.flatMap_cons, hk] at hb
            exact absurd (Option.some.inj hb) hb'
  rw [h] at hchain
  exact (List.isChain_append_cons_cons.1 hchain).2.1 rfl

end

/-! ## Quoted byte strings -/

/-- The glyphs of texts that are put together one after the other. -/
theorem chars_foldl_append {α : Type} (f : α → String) (as : List α) (s : String) :
    chars (as.foldl (fun t a => t ++ f a) s) = chars s ++ as.flatMap fun a => chars (f a) := by
  induction as generalizing s with
  | nil => simp
  | cons a as ih => rw [List.foldl_cons, ih, chars_append, List.flatMap_cons, List.append_assoc]

theorem escapeLetter?_mem {c l : Char} (h : escapeLetter? c = some l) : (c, l) ∈ letters := by
  have hchar : ∀ n, c.toNat = n → c = Char.ofNat n := by
    rintro n rfl
    exact (Char.ofNat_toNat c).symm
  unfold escapeLetter? at h
  split at h
  case h_8 => cases h
  all_goals
    rename_i hn
    cases h
    rw [hchar _ hn]
    decide

theorem numbered_char {m c : Char} (h : m = 'x' → c.toNat < 0x80) :
    numbered m c.toNat = .char c := by
  rw [numbered, if_neg, Char.ofNat_toNat]
  rintro ⟨hm, hle⟩
  exact absurd (h hm) (Nat.not_lt.2 hle)

theorem numbered_stray {b : UInt8} (h : 0x80 ≤ b.toNat) : numbered 'x' b.toNat = .stray b := by
  rw [numbered, if_pos ⟨rfl, h⟩, UInt8.ofNat_toNat]

/-- A backslash, a mark and a number. -/
theorem chars_escape (m : Char) (w n : Nat) :
    chars (String.ofList ['\\', m] ++ paddedHex w n)
      = .char '\\' :: .char m :: (pad w (Nat.toDigits 16 n)).map .char := by
  rw [chars_append, chars_ofList, chars, toList_paddedHex]
  rfl

/-- A character by its number. -/
theorem spelling_escape {m c : Char} {w : Nat} (hm : (m, w) ∈ marks) (hc : c.toNat < 16 ^ w)
    (hx : m = 'x' → c.toNat < 0x80) :
    Spelling (.char c) (chars (String.ofList ['\\', m] ++ paddedHex w c.toNat)) := by
  rw [chars_escape, ← numbered_char hx]
  exact .number hm hc

theorem spelling_numericEscape (c : Char) : Spelling (.char c) (chars (numericEscape c.toNat)) := by
  have hvalid := Utf8.toNat_valid c
  unfold numericEscape
  split
  · rename_i hsmall
    exact spelling_escape (m := 'x') (w := 2) (by decide) (by omega) fun _ => hsmall
  · split
    · exact spelling_escape (m := 'u') (w := 4) (by decide) (by omega) (by simp)
    · exact spelling_escape (m := 'U') (w := 8) (by decide) (by omega) (by simp)

theorem spelling_quotedGlyph {g : Glyph} (h : ∀ b, g = .stray b → 0x80 ≤ b.toNat) :
    Spelling g (chars (quotedGlyph g)) := by
  cases g with
  | stray b =>
      have hspelling := Spelling.number (m := 'x') (w := 2) (n := b.toNat) (by decide) b.toNat_lt
      rw [numbered_stray (h b rfl), ← chars_escape] at hspelling
      exact hspelling
  | char c =>
      rw [quotedGlyph]
      split
      · rename_i hc
        rcases hc with rfl | rfl
        · exact .letter (by decide)
        · exact .letter (by decide)
      · rename_i hc
        split
        · rw [String.singleton_eq_ofList, chars_ofList]
          exact .plain (fun h => hc (.inl h)) fun h => hc (.inr h)
        · split
          · rename_i letter hletter
            rw [chars_ofList]
            exact .letter (escapeLetter?_mem hletter)
          · exact spelling_numericEscape c

theorem spelling_of_mem {bs : Bytes} :
    ∀ g ∈ glyphs bs, Spelling (id g) (chars (quotedGlyph g)) := by
  intro g hg
  refine spelling_quotedGlyph ?_
  rintro b rfl
  exact Utf8.le_of_stray_mem hg

theorem chars_quoted (bs : Bytes) :
    chars (quoted bs)
      = .char '"' :: ((glyphs bs).flatMap (fun g => chars (quotedGlyph g)) ++ [.char '"']) := by
  rw [quoted, chars_append, chars_foldl_append]
  rfl

/-- **A quoted byte string is told apart at the front of any row.** -/
theorem quoted_append_inj {bs cs : Bytes} {r s : List Glyph}
    (h : chars (quoted bs) ++ r = chars (quoted cs) ++ s) : bs = cs ∧ r = s := by
  rw [chars_quoted, chars_quoted, List.cons_append, List.cons_append, List.append_assoc,
    List.append_assoc] at h
  obtain ⟨hglyphs, htail⟩ :=
    flatMap_append_inj spelling_of_mem spelling_of_mem (List.cons.inj h).2
  rw [List.map_id, List.map_id] at hglyphs
  exact ⟨Utf8.glyphs_inj hglyphs, htail⟩

end RoundTrip.Text
