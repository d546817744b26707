import Mathlib.Data.List.DropRight
import RoundTrip.Proofs.Json.Exactness

/-!
# White space around a JSON document

Before a document is parsed its two ends are looked at, whatever kind of value it is to hold. An
empty input, white space at the front and white space at the end are three different failures; the
front is looked at first, and of the end it is said where the white space begins.

Main statement: `decode_padding_classified`. The cut before the white space at the end is the one
that leaves as much white space behind it as there is (`LongestSpace`), which is where the trimming
of the end stops (`trimmedLength_append`).
-/

set_option autoImplicit false

namespace RoundTrip.Json

/-! ## The end of an input -/

/-- An input of white space only. -/
def AllSpace (bs : Bytes) : Prop := ∀ b ∈ bs, isSpace b = true

/-- The second part is the longest white space at the end of both parts together. -/
structure LongestSpace (c w : Bytes) : Prop where
  allSpace : AllSpace w
  longest : ∀ c' w', c' ++ w' = c ++ w → AllSpace w' → w'.length ≤ w.length

theorem endsInSpace_concat (bs : Bytes) (b : UInt8) : endsInSpace (bs ++ [b]) = isSpace b := by
  simp [endsInSpace]

/-- The longest white space is cut off where what is left does not end in white space. -/
theorem longestSpace_iff {c w : Bytes} :
    LongestSpace c w ↔ AllSpace w ∧ endsInSpace c = false := by
  constructor
  · intro h
    refine ⟨h.allSpace, ?_⟩
    rcases List.eq_nil_or_concat c with rfl | ⟨c, b, rfl⟩
    · rfl
    · rw [List.concat_eq_append, endsInSpace_concat, Bool.eq_false_iff]
      intro hb
      -- a last byte of white space would make the white space one byte longer
      have hlonger := h.longest c (b :: w) (by simp) (by simpa [AllSpace, hb] using h.allSpace)
      exact Nat.not_succ_le_self _ hlonger
  · rintro ⟨hw, hc⟩
    refine ⟨hw, ?_⟩
    intro c' w' heq hw'
    by_contra hlonger
    -- a longer rest reaches into the first part, and the last byte of that part is not white space
    obtain ⟨x, rfl, rfl⟩ | ⟨x, rfl, rfl⟩ := List.append_eq_append_iff.1 heq
    · have hx : x ≠ [] := by
        rintro rfl
        simp at hlonger
      rw [endsInSpace_append hx, endsInSpace, List.getLast?_eq_some_getLast hx, Option.any_some,
        hw' _ (List.mem_append_left w (List.getLast_mem hx))] at hc
      cases hc
    · simp at hlonger

/-- Every input has a longest white space at its end. -/
theorem exists_longestSpace (bs : Bytes) : ∃ c w, bs = c ++ w ∧ LongestSpace c w := by
  refine ⟨bs.rdropWhile isSpace, bs.rtakeWhile isSpace, List.rdropWhile_append_rtakeWhile.symm,
    longestSpace_iff.2 ⟨fun b hb => List.mem_rtakeWhile_imp hb, ?_⟩⟩
  by_cases hne : bs.rdropWhile isSpace = []
  · rw [hne]
    rfl
  · have hlast := List.rdropWhile_last_not isSpace bs hne
    simpa [endsInSpace, List.getLast?_eq_some_getLast hne] using hlast

/-! ## Trimming -/

/-- One step back: a last byte of white space is passed over, any other one ends the trimming. -/
theorem trimmedLength_concat (bs : Bytes) (b : UInt8) :
    trimmedLength (bs ++ [b]) = if isSpace b then trimmedLength bs else bs.length + 1 := by
  rw [trimmedLength, List.reverse_concat, List.dropWhile_cons, trimmedLength]
  by_cases hb : isSpace b = true
  · simp [hb]
  · simp [hb]

/-- All steps back: trimming stops before the longest white space at the end. -/
theorem trimmedLength_append {c w : Bytes} (h : LongestSpace c w) :
    trimmedLength (c ++ w) = c.length := by
  obtain ⟨hw, hc⟩ := longestSpace_iff.1 h
  clear h
  induction w using List.reverseRecOn with
  | nil =>
      rw [List.append_nil]
      rcases List.eq_nil_or_concat c with rfl | ⟨c, b, rfl⟩
      · rfl
      · rw [List.concat_eq_append] at hc ⊢
        rw [endsInSpace_concat] at hc
        rw [trimmedLength_concat, hc, List.length_append, List.length_singleton]
        rfl
  | append_singleton w b ih =>
      have hb : isSpace b = true := hw b (by simp)
      rw [← List.append_assoc, trimmedLength_concat, if_pos hb]
      exact ih fun x hx => hw x (List.mem_append_left [b] hx)

/-! ## Decoding -/

section

variable {α : Type} (value : Nat → Step Error α) {bs : Bytes}

theorem decode_of_startsInSpace (h : startsInSpace bs = true) :
    decode value bs = .error (.known .leadingWhitespace) := by
  cases bs with
  | nil => cases h
  | cons b bs =>
      have hb : isSpace b = true := h
      rw [decode, if_pos hb]

/-- With something else than white space at its front, an input is refused for its end or parsed. -/
theorem decode_of_not_startsInSpace (hne : bs ≠ []) (h : startsInSpace bs = false) :
    decode value bs =
      if endsInSpace bs = true then .error (.trailing (trimmedLength bs) bs.length)
      else (document (value bs.length) bs).mapError Error.toFailure := by
  cases bs with
  | nil => exact absurd rfl hne
  | cons b bs =>
      have hb : isSpace b = false := h
      simp only [decode, hb, trimmedLength_lt_iff, Bool.false_eq_true, if_false]

/-- The ends of an input that was accepted are not white space. -/
theorem ends_of_decode_eq_ok {v : α} (h : decode value bs = .ok v) :
    bs ≠ [] ∧ startsInSpace bs = false ∧ endsInSpace bs = false := by
  have hne : bs ≠ [] := by
    rintro rfl
    cases h
  by_cases hstart : startsInSpace bs = true
  · rw [decode_of_startsInSpace value hstart] at h
    cases h
  · rw [Bool.not_eq_true] at hstart
    refine ⟨hne, hstart, ?_⟩
    rw [decode_of_not_startsInSpace value hne hstart] at h
    split at h
    · cases h
    · rename_i hend
      rwa [Bool.not_eq_true] at hend

end

theorem startsInSpace_of_allSpace {p : Bytes} (hne : p ≠ []) (hp : AllSpace p) (bs : Bytes) :
    startsInSpace (p ++ bs) = true := by
  cases p with
  | nil => exact absurd rfl hne
  | cons b p => exact hp b List.mem_cons_self

theorem endsInSpace_of_allSpace {q : Bytes} (hne : q ≠ []) (hq : AllSpace q) (bs : Bytes) :
    endsInSpace (bs ++ q) = true := by
  rw [endsInSpace_append hne, endsInSpace, List.getLast?_eq_some_getLast hne, Option.any_some]
  exact hq _ (List.getLast_mem hne)

/-- White space behind an input with none at its ends is reported from where the input ended. -/
theorem decode_append_allSpace {α : Type} (value : Nat → Step Error α) {bs q : Bytes}
    (hbs : bs ≠ []) (hstart : startsInSpace bs = false) (hq : q ≠ [])
    (hlongest : LongestSpace bs q) :
    decode value (bs ++ q) = .error (.trailing bs.length (bs ++ q).length) := by
  have hne : bs ++ q ≠ [] := by simp [hbs]
  have hstart' : startsInSpace (bs ++ q) = false := by rwa [startsInSpace_append hbs]
  rw [decode_of_not_startsInSpace value hne hstart',
    if_pos (endsInSpace_of_allSpace hq hlongest.allSpace bs), trimmedLength_append hlongest]

/-! ## Main statement -/

/-- **White space around a document is told apart before it is parsed.** For every reader of values
and every input:

- no bytes at all are an unexpected end, and white space at the front is leading white space,
  whatever comes behind it;
- any other input has a part before the longest white space at its end, and this part is not empty.
  Some white space there is left-over input from the end of that part on, whatever the part is; with
  none, the outcome is that of the parser on the whole input;
- an input on which two readers differ has no white space at its ends;
- an accepted input is refused with white space before it, behind it, or on both sides. -/
theorem decode_padding_classified {α : Type} (value : Nat → Step Error α) (bs : Bytes) :
    (bs = [] → ∃ e, decode value bs = .error e ∧ e.causes = [.unexpectedEnd])
    ∧ (startsInSpace bs = true → decode value bs = .error (.known .leadingWhitespace))
    ∧ (∃ c w, bs = c ++ w ∧ LongestSpace c w)
    ∧ (bs ≠ [] → startsInSpace bs = false → ∀ c w, bs = c ++ w → LongestSpace c w →
        1 ≤ c.length
        ∧ (w ≠ [] → decode value bs = .error (.trailing c.length bs.length))
        ∧ (w = [] →
            decode value bs = (document (value bs.length) bs).mapError Error.toFailure))
    ∧ (∀ value' : Nat → Step Error α, decode value' bs ≠ decode value bs →
        bs ≠ [] ∧ startsInSpace bs = false ∧ endsInSpace bs = false)
    ∧ (∀ v, decode value bs = .ok v → ∀ p q, p ≠ [] → AllSpace p → q ≠ [] → AllSpace q →
        decode value (p ++ bs) = .error (.known .leadingWhitespace)
        ∧ decode value (bs ++ q) = .error (.trailing bs.length (bs ++ q).length)
        ∧ decode value (p ++ bs ++ q) = .error (.known .leadingWhitespace)) := by
  refine ⟨?_, decode_of_startsInSpace value, exists_longestSpace bs, ?_, ?_, ?_⟩
  · rintro rfl
    exact ⟨_, rfl, rfl⟩
  · rintro hne hstart c w rfl hlongest
    -- a first part without bytes would put white space at the front
    have hc : c ≠ [] := by
      rintro rfl
      rw [List.nil_append] at hne hstart
      rw [← List.append_nil w, startsInSpace_of_allSpace hne hlongest.allSpace] at hstart
      cases hstart
    have hstart' : startsInSpace c = false := by rwa [startsInSpace_append hc] at hstart
    refine ⟨List.length_pos_iff.2 hc, ?_, ?_⟩
    · intro hw
      exact decode_append_allSpace value hc hstart' hw hlongest
    · rintro rfl
      rw [List.append_nil, decode_of_not_startsInSpace value hc hstart',
        (longestSpace_iff.1 hlongest).2]
      rfl
  · intro value' hdiffer
    have hne : bs ≠ [] := by
      rintro rfl
      exact hdiffer rfl
    cases hstart : startsInSpace bs with
    | true =>
        rw [decode_of_startsInSpace value hstart, decode_of_startsInSpace value' hstart] at hdiffer
        exact absurd rfl hdiffer
    | false =>
        refine ⟨hne, rfl, ?_⟩
        rw [decode_of_not_startsInSpace value hne hstart,
          decode_of_not_startsInSpace value' hne hstart] at hdiffer
        rw [Bool.eq_false_iff]
        intro hend
        rw [if_pos hend, if_pos hend] at hdiffer
        exact hdiffer rfl
  · intro v hv p q hp hspace hq hspace'
    obtain ⟨hne, hstart, hend⟩ := ends_of_decode_eq_ok value hv
    refine ⟨?_, ?_, ?_⟩
    · exact decode_of_startsInSpace value (startsInSpace_of_allSpace hp hspace bs)
    · exact decode_append_allSpace value hne hstart hq (longestSpace_iff.2 ⟨hspace', hend⟩)
    · rw [List.append_assoc]
      exact decode_of_startsInSpace value (startsInSpace_of_allSpace hp hspace (bs ++ q))

/-- No bytes, white space only, a letter before white space, and an array with white space of two
kinds on each side. -/
theorem decode_padding_classified_array :
    let value := fun size => valueStep size maxLevels
    (∃ e, decode value [] = .error e ∧ e.causes = [.unexpectedEnd])
      ∧ decode value [0x0d, 0x0a] = .error (.known .leadingWhitespace)
      ∧ decode value ([0x78] ++ [0x20]) = .error (.trailing 1 2)
      ∧ decode value [0x5b, 0x5d] = .ok (.array [])
      ∧ decode value ([0x20, 0x0a] ++ [0x5b, 0x5d]) = .error (.known .leadingWhitespace)
      ∧ decode value ([0x5b, 0x5d] ++ [0x09, 0x0d]) = .error (.trailing 2 4)
      ∧ decode value ([0x20, 0x0a] ++ [0x5b, 0x5d] ++ [0x09, 0x0d])
          = .error (.known .leadingWhitespace) := by
  intro value
  have haccepted : decode value [0x5b, 0x5d] = .ok (.array []) := rfl
  have hlongest : LongestSpace [0x78] [0x20] :=
    longestSpace_iff.2 ⟨by simp [AllSpace, isSpace], by decide⟩
  refine ⟨(decode_padding_classified value []).1 rfl,
    (decode_padding_classified value [0x0d, 0x0a]).2.1 rfl, ?_, haccepted, ?_⟩
  · exact ((decode_padding_classified value ([0x78] ++ [0x20])).2.2.2.1 (by decide) rfl _ _ rfl
      hlongest).2.1 (by decide)
  · exact (decode_padding_classified value [0x5b, 0x5d]).2.2.2.2.2 _ haccepted [0x20, 0x0a]
      [0x09, 0x0d] (by decide) (by simp [AllSpace, isSpace]) (by decide)
      (by simp [AllSpace, isSpace])

end RoundTrip.Json
