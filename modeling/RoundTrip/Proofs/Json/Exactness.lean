import RoundTrip.Proofs.Json.Locality

/-!
# What a JSON document may hold besides its value

An accepted document is a value with no white space around it. A zero byte behind the value ends the
document: it and all that follows it go unread, whatever it is. Nothing else may follow a value.

Main statement: `decode_exact_up_to_zero`. That the zero byte is an exception, and not ruled out by
the other conditions, is `decode_zero_unread`.
-/

set_option autoImplicit false

namespace RoundTrip.Json

/-! ## White space at the ends -/

def startsInSpace (bs : Bytes) : Bool := bs.head?.any isSpace

def endsInSpace (bs : Bytes) : Bool := bs.getLast?.any isSpace

theorem trimmedLength_lt_iff (bs : Bytes) :
    trimmedLength bs < bs.length ↔ endsInSpace bs = true := by
  obtain ⟨rs, rfl⟩ : ∃ rs : Bytes, bs = rs.reverse := ⟨bs.reverse, bs.reverse_reverse.symm⟩
  rw [trimmedLength, endsInSpace, List.reverse_reverse, List.length_reverse, List.getLast?_reverse]
  cases rs with
  | nil => simp
  | cons b rs =>
      by_cases hb : isSpace b = true
      · have hle := (List.dropWhile_suffix isSpace (l := rs)).length_le
        simp [hb]
        omega
      · simp [hb]

theorem endsInSpace_append {s : Bytes} (hs : s ≠ []) (bs : Bytes) :
    endsInSpace (bs ++ s) = endsInSpace s := by
  simp [endsInSpace, List.getLast?_append, List.getLast?_eq_some_getLast hs]

theorem startsInSpace_append {bs : Bytes} (hbs : bs ≠ []) (s : Bytes) :
    startsInSpace (bs ++ s) = startsInSpace bs := by
  cases bs with
  | nil => exact absurd rfl hbs
  | cons b bs => rfl

/-! ## What follows a value -/

/-- The input is one value from its first byte to its last. -/
def Spans (text : Bytes) (v : Value) : Prop :=
  valueStep text.length maxLevels text = .ok (v, [])

/-- A zero byte comes first after white space. -/
def unread (tail : Bytes) : Bool := (skipSpace tail).head? == some 0

theorem endsInSpace_of_skipSpace {tail : Bytes} (hne : tail ≠ []) (h : skipSpace tail = []) :
    endsInSpace tail = true := by
  have hspace : isSpace (tail.getLast hne) = true :=
    List.dropWhile_eq_nil_iff.1 h _ (List.getLast_mem hne)
  simp [endsInSpace, List.getLast?_eq_some_getLast hne, hspace]

/-- Without white space at its end, the rest of a document is empty or goes unread. -/
theorem isDone_iff {tail : Bytes} (hend : tail ≠ [] → endsInSpace tail = false) :
    isDone tail = true ↔ tail = [] ∨ unread tail = true := by
  by_cases hne : tail = []
  · simp [hne, isDone, skipSpace]
  · cases hskip : skipSpace tail with
    | nil =>
        -- a rest of white space only would put white space at the end
        have hspace := endsInSpace_of_skipSpace hne hskip
        rw [hend hne] at hspace
        cases hspace
    | cons b rest => simp [isDone, unread, hskip, hne]

theorem unread_append {tail : Bytes} (h : unread tail = true) (s : Bytes) :
    unread (tail ++ s) = true := by
  cases hskip : skipSpace tail with
  | nil => simp [unread, hskip] at h
  | cons b rest =>
      obtain ⟨gap, -, rfl, hgap⟩ := skipSpace_eq_cons hskip
      rw [unread, List.append_assoc, List.cons_append, hgap]
      simpa [unread, hskip] using h

/-- A value ends before what goes unread. -/
theorem endsBefore_of_unread {tail : Bytes} (h : unread tail = true) (v : Value) :
    v.EndsBefore tail := by
  cases hskip : skipSpace tail with
  | nil => simp [unread, hskip] at h
  | cons b rest =>
      obtain ⟨gap, hgap, rfl, -⟩ := skipSpace_eq_cons hskip
      obtain rfl : b = 0 := by simpa [unread, hskip] using h
      exact endsBefore_gap hgap (by decide) v rest

theorem Spans.ne_nil {text : Bytes} {v : Value} (h : Spans text v) : text ≠ [] := by
  rintro rfl
  cases h

/-- A value that fills an input is read in front of every rest that it ends before. -/
theorem Spans.append {text s : Bytes} {v : Value} (h : Spans text v) (hs : v.EndsBefore s) :
    valueStep (text ++ s).length maxLevels (text ++ s) = .ok (v, s) := by
  obtain ⟨used, hused, hagain⟩ := valueStep_localBefore maxLevels h
  rw [List.append_nil] at hused
  subst hused
  exact hagain _ (by simp) s hs

/-! ## Documents -/

theorem document_eq_ok_iff {value : Step Error Value} {bs : Bytes} {v : Value} :
    document value bs = .ok v ↔ ∃ tail, value bs = .ok (v, tail) ∧ isDone tail = true := by
  rw [document]
  cases hvalue : value bs with
  | error e => simp
  | ok r =>
      rcases r with ⟨w, tail⟩
      by_cases hdone : isDone tail = true
      · simp only [hdone, if_true, Except.ok.injEq, Prod.mk.injEq]
        constructor
        · rintro rfl
          exact ⟨tail, ⟨rfl, rfl⟩, hdone⟩
        · rintro ⟨_, ⟨rfl, -⟩, -⟩
          rfl
      · simp [hdone]

theorem decode_eq_ok_iff {bs : Bytes} {v : Value} :
    codec.decode bs = .ok v ↔ startsInSpace bs = false ∧ endsInSpace bs = false
      ∧ ∃ tail, valueStep bs.length maxLevels bs = .ok (v, tail) ∧ isDone tail = true := by
  change decode (fun size => valueStep size maxLevels) bs = .ok v ↔ _
  cases bs with
  | nil =>
      constructor
      · intro h
        cases h
      · rintro ⟨-, -, tail, h, -⟩
        cases h
  | cons b bs =>
      rw [decode, ← document_eq_ok_iff, ← Step.mapError_eq_ok (f := Error.toFailure)]
      simp only [trimmedLength_lt_iff, startsInSpace, List.head?_cons, Option.any_some]
      by_cases hstart : isSpace b = true
      · simp [hstart]
      · by_cases hend : endsInSpace (b :: bs) = true
        · simp [hstart, hend]
        · simp [hstart, hend]

/-- The value of an accepted document, and what follows it. -/
theorem exists_spans {bs : Bytes} {v : Value} (h : codec.decode bs = .ok v) :
    ∃ text tail, bs = text ++ tail ∧ Spans text v ∧ (tail = [] ∨ unread tail = true) := by
  obtain ⟨-, hend, tail, hvalue, hdone⟩ := decode_eq_ok_iff.1 h
  -- what was read in front of `tail` is read again in front of nothing
  obtain ⟨text, rfl, hagain⟩ := valueStep_localBefore maxLevels hvalue
  refine ⟨text, tail, rfl, ?_, ?_⟩
  · have hspans := hagain text.length (Nat.le_refl _) [] (by simp [Value.EndsBefore])
    rwa [List.append_nil] at hspans
  · refine (isDone_iff ?_).1 hdone
    intro hne
    rwa [endsInSpace_append hne] at hend

theorem decode_of_spans {text tail : Bytes} {v : Value}
    (hstart : startsInSpace (text ++ tail) = false) (hend : endsInSpace (text ++ tail) = false)
    (hspans : Spans text v) (htail : tail = [] ∨ unread tail = true) :
    codec.decode (text ++ tail) = .ok v := by
  have hbefore : v.EndsBefore tail := by
    rcases htail with rfl | hunread
    · simp [Value.EndsBefore]
    · exact endsBefore_of_unread hunread v
  have hdone : isDone tail = true := by
    refine (isDone_iff ?_).2 htail
    intro hne
    rwa [endsInSpace_append hne] at hend
  exact decode_eq_ok_iff.2 ⟨hstart, hend, tail, hspans.append hbefore, hdone⟩

/-- An accepted document with more behind it: a zero byte has to follow the value, in the document
or behind it. -/
theorem decode_append_iff {bs s : Bytes} {v w : Value} (h : codec.decode bs = .ok v)
    (hnumber : ∀ bits, v ≠ .number bits) (hs : s ≠ []) :
    codec.decode (bs ++ s) = .ok w
      ↔ w = v ∧ (Spans bs v → unread s = true) ∧ endsInSpace s = false := by
  have hbefore : ∀ s, v.EndsBefore s := fun s bits hv => absurd hv (hnumber bits)
  obtain ⟨hstart, -, -⟩ := decode_eq_ok_iff.1 h
  obtain ⟨text, tail, rfl, hspans, htail⟩ := exists_spans h
  -- the value ends where `tail` starts, so the document is all value when `tail` is empty
  have hwhole : Spans (text ++ tail) v ↔ tail = [] := by
    rw [Spans, hspans.append (hbefore tail)]
    simp
  have hunread : unread (tail ++ s) = true ↔ (Spans (text ++ tail) v → unread s = true) := by
    rw [hwhole]
    rcases htail with rfl | htail
    · simp
    · have hne : tail ≠ [] := by
        rintro rfl
        cases htail
      simp [hne, unread_append htail s]
  have hstart' : startsInSpace (text ++ tail ++ s) = false := by
    rwa [startsInSpace_append (by simp [hspans.ne_nil])]
  have hend : endsInSpace (text ++ tail ++ s) = endsInSpace s := endsInSpace_append hs _
  have hvalue := hspans.append (hbefore (tail ++ s))
  rw [← List.append_assoc] at hvalue
  rw [decode_eq_ok_iff, hend, hvalue, ← hunread]
  constructor
  · rintro ⟨-, hend, rest, heq, hdone⟩
    cases heq
    refine ⟨rfl, ?_, hend⟩
    have hne : tail ++ s ≠ [] := by simp [hs]
    exact ((isDone_iff fun _ => by rwa [endsInSpace_append hs]).1 hdone).resolve_left hne
  · rintro ⟨rfl, hread, hend⟩
    refine ⟨hstart', hend, tail ++ s, rfl, ?_⟩
    exact (isDone_iff fun _ => by rwa [endsInSpace_append hs]).2 (.inr hread)

/-! ## Main statement -/

/-- **A JSON document is its value, up to a zero byte.** An input is accepted exactly when it has
no white space at its ends and is a value with nothing behind it, or with a zero byte that comes
first behind it after white space. More bytes behind an accepted input are an error exactly when
they end in white space, or when the input was all value and no such zero byte comes first in them.
Numbers are left out of this because their digits can go on. -/
theorem decode_exact_up_to_zero (bs : Bytes) (v : Value) :
    (codec.decode bs = .ok v
      ↔ startsInSpace bs = false ∧ endsInSpace bs = false
        ∧ ∃ text tail, bs = text ++ tail ∧ Spans text v ∧ (tail = [] ∨ unread tail = true))
    ∧ (codec.decode bs = .ok v → (∀ bits, v ≠ .number bits) → ∀ s, s ≠ [] →
        ((∃ e, codec.decode (bs ++ s) = .error e)
          ↔ Spans bs v ∧ unread s = false ∨ endsInSpace s = true)) := by
  constructor
  · constructor
    · intro h
      obtain ⟨hstart, hend, -⟩ := decode_eq_ok_iff.1 h
      exact ⟨hstart, hend, exists_spans h⟩
    · rintro ⟨hstart, hend, text, tail, rfl, hspans, htail⟩
      exact decode_of_spans hstart hend hspans htail
  · intro h hnumber s hs
    have hok := fun w => decode_append_iff (w := w) h hnumber hs
    cases hdecode : codec.decode (bs ++ s) with
    | ok w =>
        obtain ⟨-, hread, hend⟩ := (hok w).1 hdecode
        simp only [reduceCtorEq, exists_false, hend, Bool.false_eq_true, or_false, false_iff]
        rintro ⟨hspans, hnone⟩
        rw [hread hspans] at hnone
        cases hnone
    | error e =>
        simp only [Except.error.injEq, exists_eq', true_iff]
        by_contra hnot
        simp only [not_or, not_and, Bool.not_eq_false, Bool.not_eq_true] at hnot
        have hread := (hok v).2 ⟨rfl, hnot⟩
        rw [hdecode] at hread
        cases hread

/-- An array with a letter behind it is refused. -/
theorem decode_exact_up_to_zero_letter :
    codec.decode [0x5b, 0x5d] = .ok (.array [])
      ∧ ∃ e, codec.decode ([0x5b, 0x5d] ++ [0x78]) = .error e := by
  have haccepted : codec.decode [0x5b, 0x5d] = .ok (.array []) := rfl
  refine ⟨haccepted, ?_⟩
  exact ((decode_exact_up_to_zero [0x5b, 0x5d] (.array [])).2 haccepted (by simp) [0x78]
    (by decide)).2 (.inl ⟨rfl, rfl⟩)

/-- The zero byte is an exception: with it behind the value, the value does not end where the input
ends, and more behind an accepted array is no error. -/
theorem decode_zero_unread :
    codec.decode [0x5b, 0x5d] = .ok (.array [])
      ∧ codec.decode ([0x5b, 0x5d] ++ [0]) = .ok (.array [])
      ∧ valueStep 3 maxLevels ([0x5b, 0x5d] ++ [0]) = .ok (.array [], [0]) :=
  ⟨rfl, rfl, rfl⟩

end RoundTrip.Json
