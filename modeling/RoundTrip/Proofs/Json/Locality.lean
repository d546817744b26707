import Mathlib.Data.List.TakeWhile
import RoundTrip.Json.Writer
import RoundTrip.Proofs.Reading.Locality

/-!
# The reader of JSON

A string ends at its quote, a word at its last letter, an array or object at its bracket. Their
readers look at nothing behind that. A numeral has no end of its own: its reader takes the longest
run of bytes that can belong to a numeral. So a value is read again in front of every rest that
does not go on with it (`Value.EndsBefore`), which is every rest when the value is not a number.

Main statement: `valueStep_localBefore`. The nesting of values is an induction over the levels.
-/

set_option autoImplicit false

namespace RoundTrip.Json

open Step

variable {α : Type} {n : Nat}

/-! ## White space -/

theorem skipSpace_gap {gap : Bytes} (hgap : ∀ x ∈ gap, isSpace x = true) (bs : Bytes) :
    skipSpace (gap ++ bs) = skipSpace bs :=
  List.dropWhile_append_of_pos hgap

theorem skipSpace_cons {b : UInt8} (hb : isSpace b = false) (bs : Bytes) :
    skipSpace (b :: bs) = b :: bs :=
  List.dropWhile_cons_of_neg (by simp [hb])

/-- The white space at the front of an input, and the input without it. -/
theorem exists_gap (bs : Bytes) :
    ∃ gap, (∀ x ∈ gap, isSpace x = true) ∧ bs = gap ++ skipSpace bs :=
  ⟨bs.takeWhile isSpace, fun _ hx => List.mem_takeWhile_imp hx,
    (List.takeWhile_append_dropWhile).symm⟩

/-- The first byte after white space, and that it is found again in front of every other rest. -/
theorem skipSpace_eq_cons {bs rest : Bytes} {b : UInt8} (h : skipSpace bs = b :: rest) :
    ∃ gap, (∀ x ∈ gap, isSpace x = true) ∧ bs = gap ++ b :: rest
      ∧ ∀ s, skipSpace (gap ++ b :: s) = b :: s := by
  obtain ⟨gap, hgap, hbs⟩ := exists_gap bs
  have hb : isSpace b = false := by
    have hne : bs.dropWhile isSpace ≠ [] := by
      rw [← skipSpace, h]
      exact List.cons_ne_nil b rest
    have hhead := List.head_dropWhile_not isSpace hne
    have hfirst : (bs.dropWhile isSpace).head hne = b := by
      simp only [← skipSpace.eq_1, h, List.head_cons]
    rwa [hfirst] at hhead
  refine ⟨gap, hgap, by rw [hbs, h], ?_⟩
  intro s
  rw [skipSpace_gap hgap, skipSpace_cons hb]

/-- A reader that skips white space, and uses a byte after it. -/
theorem afterSpace_local {r : Nat → Step Error α} {b : UInt8} {bs used rest : Bytes} {a : α}
    (hskip : skipSpace bs = b :: (used ++ rest))
    (hagain : ∀ m, used.length < m → ∀ s bs', skipSpace bs' = b :: (used ++ s) →
      r m bs' = .ok (a, s)) :
    ∃ used, bs = used ++ rest ∧ ∀ m, used.length ≤ m → ∀ s, r m (used ++ s) = .ok (a, s) := by
  obtain ⟨gap, -, rfl, hgap⟩ := skipSpace_eq_cons hskip
  refine ⟨gap ++ b :: used, by simp, ?_⟩
  intro m hm s
  rw [List.length_append, List.length_cons] at hm
  rw [List.append_assoc, List.cons_append]
  exact hagain m (by omega) s _ (hgap (used ++ s))

/-! ## Words -/

theorem word_eq_ok_iff {ws bs rest : Bytes} {u : Unit} :
    word ws bs = .ok (u, rest) ↔ bs = ws ++ rest := by
  induction ws generalizing bs with
  | nil => simp [word, eq_comm]
  | cons w ws ih =>
      cases bs with
      | nil => simp [word]
      | cons b bs =>
          rw [word]
          by_cases hw : w = b
          · simp [hw, ih]
          · simp [hw, Ne.symm hw]

theorem word_local (ws : Bytes) : Local (fun _ => word ws) n := by
  intro bs u rest h
  exact ⟨ws, word_eq_ok_iff.1 h, fun _ _ s => word_eq_ok_iff.2 rfl⟩

theorem token_local (b : UInt8) : Local (fun _ => token b) n := by
  intro bs u rest h
  have hskip : skipSpace bs = b :: ([] ++ rest) := word_eq_ok_iff.1 h
  refine afterSpace_local hskip ?_
  intro m _ s bs' hskip'
  rw [token, hskip']
  exact word_eq_ok_iff.2 rfl

/-! ## Strings -/

theorem hex4?_local {bs rest : Bytes} {a : Nat} (h : hex4? bs = some (a, rest)) :
    ∃ used, bs = used ++ rest ∧ ∀ s, hex4? (used ++ s) = some (a, s) := by
  match bs, h with
  | b₁ :: b₂ :: b₃ :: b₄ :: bs, h =>
      simp only [hex4?, Option.bind_eq_bind, Option.pure_def, Option.bind_eq_some_iff] at h
      obtain ⟨d₁, h₁, d₂, h₂, d₃, h₃, d₄, h₄, h⟩ := h
      cases h
      refine ⟨[b₁, b₂, b₃, b₄], rfl, ?_⟩
      intro s
      simp [hex4?, h₁, h₂, h₃, h₄]

/-- The start of an escape by number. -/
def StartsNumber (bs : Bytes) : Prop := ∃ tail, bs = 0x5c :: 0x75 :: tail

/-- A lone surrogate is known by what follows it, which is the one look behind an escape. -/
theorem escape?_local {bs rest e : Bytes} (h : escape? bs = some (e, rest)) :
    ∃ used, bs = used ++ rest ∧
      ∀ s, (StartsNumber s → StartsNumber rest) → escape? (used ++ s) = some (e, s) := by
  unfold escape? at h
  split at h
  · -- an escape by number
    rename_i bs
    split at h
    · cases h
    · rename_i a tail hhex
      obtain ⟨digits, rfl, hdigits⟩ := hex4?_local hhex
      split at h
      · rename_i hsurrogate
        split at h
        · -- with the number after it
          rename_i tail
          obtain ⟨⟨b, tail'⟩, hhex', hpair⟩ := Option.map_eq_some_iff.1 h
          cases hpair
          obtain ⟨digits', rfl, hdigits'⟩ := hex4?_local hhex'
          refine ⟨0x75 :: (digits ++ 0x5c :: 0x75 :: digits'), by simp, ?_⟩
          intro s _
          simp [escape?, hdigits, hdigits', hsurrogate]
        · -- without one, which has to hold of the other rest too
          rename_i hlone
          cases h
          refine ⟨0x75 :: digits, rfl, ?_⟩
          intro s hs
          have hs' : ¬ StartsNumber s := fun hstarts => by
            obtain ⟨tail', rfl⟩ := hs hstarts
            exact hlone _ rfl
          simp only [List.cons_append, escape?, hdigits, hsurrogate, if_true]
          split
          · exact absurd ⟨_, rfl⟩ hs'
          · rfl
      · rename_i hsurrogate
        cases h
        refine ⟨0x75 :: digits, rfl, ?_⟩
        intro s _
        simp [escape?, hdigits, hsurrogate]
  · -- an escape by letter
    rename_i b tail hb
    obtain ⟨e', he, hpair⟩ := Option.map_eq_some_iff.1 h
    cases hpair
    refine ⟨[b], rfl, ?_⟩
    intro s _
    unfold escape?
    split
    · rename_i heq
      cases heq
      exact absurd rfl hb
    · rename_i heq
      cases heq
      simp [he]
    · rename_i heq
      cases heq
  · cases h

/-- The look behind a lone surrogate does not leave the string, because the string has an end. -/
theorem StartsNumber.of_append {used s rest : Bytes} (hnil : used ≠ []) (hslash : used ≠ [0x5c])
    (h : StartsNumber (used ++ s)) : StartsNumber (used ++ rest) := by
  obtain ⟨tail, h⟩ := h
  match used, hnil, hslash, h with
  | [b], _, hslash, h =>
      cases h
      exact absurd rfl hslash
  | b :: b' :: used, _, _, h =>
      cases h
      exact ⟨used ++ rest, rfl⟩

/-- The induction is on the rounds. It gives what the look behind a surrogate needs: the rest of the
string is neither empty nor a single backslash. -/
theorem stringLoop_local (strict : Bool) {k : Nat} {escaped : Bool} {done bs str rest : Bytes}
    (h : stringLoop strict k escaped done bs = .ok (str, rest)) :
    ∃ used, bs = used ++ rest ∧ ∀ j, used.length ≤ j → ∀ s,
      stringLoop strict j escaped done (used ++ s) = .ok (str, s) := by
  induction k generalizing escaped done bs with
  | zero => cases h
  | succ k ih =>
      cases bs with
      | nil => cases h
      | cons b bs =>
          rw [stringLoop] at h
          split at h
          · -- the quote that ends the string
            rename_i hquote
            cases h
            refine ⟨[b], rfl, ?_⟩
            intro j hj s
            obtain ⟨i, rfl⟩ : ∃ i, j = i + 1 := ⟨j - 1, by simp at hj; omega⟩
            simp [stringLoop, hquote]
          · rename_i hquote
            split at h
            · rename_i hslash
              split at h
              · rename_i e tail hescape
                obtain ⟨front, rfl, hfront⟩ := escape?_local hescape
                obtain ⟨back, rfl, hback⟩ := ih h
                -- the rest of the string is read to its end also when nothing follows it
                have hloop := hback back.length (Nat.le_refl _) []
                have hnil : back ≠ [] := by
                  rintro rfl
                  cases hloop
                have hone : back ≠ [0x5c] := by
                  rintro rfl
                  cases hloop
                refine ⟨b :: (front ++ back), by simp, ?_⟩
                intro j hj s
                rw [List.length_cons, List.length_append] at hj
                obtain ⟨i, rfl⟩ : ∃ i, j = i + 1 := ⟨j - 1, by omega⟩
                have hescape' := hfront (back ++ s) (StartsNumber.of_append hnil hone)
                rw [List.cons_append, List.append_assoc, stringLoop, if_neg hquote, if_pos hslash]
                simp only [hescape']
                exact hback i (by omega) s
              · cases h
            · rename_i hslash
              split at h
              · cases h
              · rename_i hcontrol
                obtain ⟨used, rfl, hagain⟩ := ih h
                refine ⟨b :: used, rfl, ?_⟩
                intro j hj s
                rw [List.length_cons] at hj
                obtain ⟨i, rfl⟩ : ∃ i, j = i + 1 := ⟨j - 1, by omega⟩
                rw [List.cons_append, stringLoop, if_neg hquote, if_neg hslash, if_neg hcontrol]
                exact hagain i (by omega) s

theorem stringRest_local (strict : Bool) : Local (fun m => stringRest m strict) n := by
  intro bs str rest h
  exact stringLoop_local strict h

theorem stringOrNull_local : Local stringOrNull n := by
  intro bs str rest h
  rw [stringOrNull] at h
  split at h
  · rename_i tail hskip
    obtain ⟨used, rfl, hagain⟩ := stringRest_local true h
    refine afterSpace_local hskip ?_
    intro m hm s bs' hskip'
    simp only [stringOrNull, hskip']
    exact hagain m (Nat.le_of_lt hm) s
  · rename_i tail hskip
    obtain ⟨used, rfl, hagain⟩ :=
      (word_local (n := n) [0x75, 0x6c, 0x6c]).returning (fun _ => ([] : Bytes)) h
    refine afterSpace_local hskip ?_
    intro m hm s bs' hskip'
    simp only [stringOrNull, hskip']
    exact hagain m (Nat.le_of_lt hm) s
  · cases h

/-! ## Values before a rest -/

/-- Behind a number nothing stands that could belong to it. -/
def Value.EndsBefore (v : Value) (s : Bytes) : Prop :=
  ∀ bits, v = .number bits → ∀ b ∈ s.head?, isNumeralByte b = false

/-- What `r n` reads off the front of an input, every `r m` with enough room reads off the front of
every input where the value ends before the rest. -/
def LocalBefore (r : Nat → Step Error Value) (n : Nat) : Prop :=
  ∀ ⦃bs : Bytes⦄ ⦃v : Value⦄ ⦃rest : Bytes⦄, r n bs = .ok (v, rest) →
    ∃ used, bs = used ++ rest ∧ ∀ m, used.length ≤ m → ∀ s, v.EndsBefore s →
      r m (used ++ s) = .ok (v, s)

theorem localBefore_of_local {r : Nat → Step Error Value} (hr : Local r n) : LocalBefore r n := by
  intro bs v rest h
  obtain ⟨used, hbs, hagain⟩ := hr h
  exact ⟨used, hbs, fun m hm s _ => hagain m hm s⟩

theorem isNumeralByte_of_isSpace {b : UInt8} (hb : isSpace b = true) : isNumeralByte b = false := by
  simp only [isSpace, Bool.or_eq_true, beq_iff_eq] at hb
  obtain ((rfl | rfl) | rfl) | rfl := hb <;> rfl

/-- White space and then a byte of no numeral end every value. -/
theorem endsBefore_gap {gap : Bytes} (hgap : ∀ x ∈ gap, isSpace x = true) {b : UInt8}
    (hb : isNumeralByte b = false) (v : Value) (s : Bytes) : v.EndsBefore (gap ++ b :: s) := by
  intro bits _ x hx
  cases gap with
  | nil =>
      obtain rfl : b = x := by simpa using hx
      exact hb
  | cons y gap =>
      obtain rfl : y = x := by simpa using hx
      exact isNumeralByte_of_isSpace (hgap y List.mem_cons_self)

section Containers

variable {value : Nat → Step Error Value}

/-- A value with the delimiter after it. -/
theorem delimited_local (hvalue : LocalBefore value n) {bs tail rest : Bytes} {v : Value}
    {b : UInt8} (hread : value n bs = .ok (v, tail)) (hskip : skipSpace tail = b :: rest)
    (hb : isNumeralByte b = false) :
    ∃ used, used ≠ [] ∧ bs = used ++ rest ∧ ∀ m, used.length ≤ m → ∀ s,
      ∃ tail', value m (used ++ s) = .ok (v, tail') ∧ skipSpace tail' = b :: s := by
  obtain ⟨front, rfl, hfront⟩ := hvalue hread
  obtain ⟨gap, hgap, rfl, hagain⟩ := skipSpace_eq_cons hskip
  refine ⟨front ++ (gap ++ [b]), by simp, by simp, ?_⟩
  intro m hm s
  rw [List.length_append] at hm
  refine ⟨gap ++ b :: s, ?_, hagain s⟩
  have hread' := hfront m (by omega) (gap ++ b :: s) (endsBefore_gap hgap hb v s)
  simpa using hread'

/-! ## Arrays -/

/-- A round uses an element with the comma or bracket after it. -/
theorem elements_round (hvalue : LocalBefore value n) {k : Nat} {done vs : List Value}
    {bs rest : Bytes} (h : elements (value n) (k + 1) done bs = .ok (vs, rest)) :
    Round (fun m => elements (value m)) n k done bs vs rest := by
  rw [elements] at h
  split at h
  · cases h
  · rename_i v tail hread
    split at h
    · rename_i tail' hskip
      obtain ⟨used, hused, rfl, hagain⟩ := delimited_local hvalue hread hskip (by decide)
      refine .next used (v :: done) tail' hused rfl h ?_
      intro m hm j s
      obtain ⟨tail, hread, hskip⟩ := hagain m hm s
      simp only [elements, hread, hskip]
    · rename_i tail' hskip
      obtain ⟨used, hused, rfl, hagain⟩ := delimited_local hvalue hread hskip (by decide)
      cases h
      refine .last used hused rfl ?_
      intro m hm j s
      obtain ⟨tail, hread, hskip⟩ := hagain m hm s
      simp only [elements, hread, hskip]
    · cases h

theorem array_local (hvalue : LocalBefore value n) : Local (fun m => array m (value m)) n := by
  intro bs vs rest h
  dsimp only at h
  rw [array] at h
  split at h
  · rename_i tail hskip
    cases h
    rw [← List.nil_append rest] at hskip
    refine afterSpace_local hskip ?_
    intro m _ s bs' hskip'
    simp only [array, hskip', List.nil_append]
  · rename_i hbracket
    obtain ⟨b, used, hskip, hagain⟩ := exists_used_cons_of_rounds (fun m => elements (value m))
      (fun _ _ _ _ h => by cases h) (fun _ _ _ _ _ => elements_round hvalue) h
    refine afterSpace_local hskip ?_
    intro m hm s bs' hskip'
    simp only [array, hskip']
    split
    · -- the first byte is the same, so it is no bracket now either
      rename_i heq
      cases heq
      exact absurd hskip (hbracket _)
    · exact hagain m hm s

/-! ## Objects -/

/-- A key, the colon and a value with the delimiter after it. -/
theorem member_local (hvalue : LocalBefore value n) {bs afterKey afterColon tail rest key : Bytes}
    {v : Value} {b : UInt8} (hkey : stringOrNull n bs = .ok (key, afterKey))
    (hcolon : token 0x3a afterKey = .ok ((), afterColon))
    (hread : value n afterColon = .ok (v, tail)) (hskip : skipSpace tail = b :: rest)
    (hb : isNumeralByte b = false) :
    ∃ used, used ≠ [] ∧ bs = used ++ rest ∧ ∀ m, used.length ≤ m → ∀ s,
      ∃ afterKey' afterColon' tail', stringOrNull m (used ++ s) = .ok (key, afterKey')
        ∧ token 0x3a afterKey' = .ok ((), afterColon') ∧ value m afterColon' = .ok (v, tail')
        ∧ skipSpace tail' = b :: s := by
  obtain ⟨front, rfl, hfront⟩ := stringOrNull_local hkey
  obtain ⟨colon, rfl, hagain⟩ := token_local (n := n) 0x3a hcolon
  obtain ⟨back, hback, rfl, hdelimited⟩ := delimited_local hvalue hread hskip hb
  refine ⟨front ++ (colon ++ back), by simp [hback], by simp, ?_⟩
  intro m hm s
  rw [List.length_append, List.length_append] at hm
  obtain ⟨tail', hread', hskip'⟩ := hdelimited m (by omega) s
  refine ⟨colon ++ (back ++ s), back ++ s, tail', ?_, hagain m (by omega) _, hread', hskip'⟩
  rw [List.append_assoc, List.append_assoc]
  exact hfront m (by omega) _

/-- A round uses a member with the comma or brace after it. -/
theorem members_round (hvalue : LocalBefore value n) {k : Nat} {done es : List (Bytes × Value)}
    {bs rest : Bytes} (h : members n (value n) (k + 1) done bs = .ok (es, rest)) :
    Round (fun m => members m (value m)) n k done bs es rest := by
  rw [members] at h
  split at h
  · cases h
  · rename_i key afterKey hkey
    split at h
    · cases h
    · rename_i afterColon hcolon
      split at h
      · cases h
      · rename_i v tail hread
        split at h
        · rename_i tail' hskip
          obtain ⟨used, hused, rfl, hagain⟩ :=
            member_local hvalue hkey hcolon hread hskip (by decide)
          refine .next used ((key, v) :: done) tail' hused rfl h ?_
          intro m hm j s
          obtain ⟨_, _, _, hkey', hcolon', hread', hskip'⟩ := hagain m hm s
          simp only [members, hkey', hcolon', hread', hskip']
        · rename_i tail' hskip
          obtain ⟨used, hused, rfl, hagain⟩ :=
            member_local hvalue hkey hcolon hread hskip (by decide)
          cases h
          refine .last used hused rfl ?_
          intro m hm j s
          obtain ⟨_, _, _, hkey', hcolon', hread', hskip'⟩ := hagain m hm s
          simp only [members, hkey', hcolon', hread', hskip']
        · cases h

theorem object_local (hvalue : LocalBefore value n) : Local (fun m => object m (value m)) n := by
  intro bs vs rest h
  dsimp only at h
  rw [object] at h
  split at h
  · rename_i tail hskip
    cases h
    rw [← List.nil_append rest] at hskip
    refine afterSpace_local hskip ?_
    intro m _ s bs' hskip'
    simp only [object, hskip', List.nil_append]
  · rename_i tail hskip
    obtain ⟨b, used, hcons, hagain⟩ := exists_used_cons_of_rounds (fun m => members m (value m))
      (fun _ _ _ _ h => by cases h) (fun _ _ _ _ _ => members_round hvalue) h
    cases hcons
    refine afterSpace_local hskip ?_
    intro m hm s bs' hskip'
    simp only [object, hskip']
    exact hagain m hm s
  · cases h

end Containers

/-! ## Numerals -/

/-- Nothing of a run of numeral bytes is left to the rest, and the rest adds nothing to it. -/
theorem takeWhile_numeral {run s : Bytes} (hrun : ∀ b ∈ run, isNumeralByte b = true)
    (hs : ∀ b ∈ s.head?, isNumeralByte b = false) : (run ++ s).takeWhile isNumeralByte = run := by
  rw [List.takeWhile_append_of_pos hrun]
  cases s with
  | nil => simp
  | cons b s => simp [hs b rfl]

theorem fullNumeral_local (f : Binary.Format) {bs rest : Bytes} {bits : Nat}
    (h : fullNumeral f bs = .ok (bits, rest)) :
    ∃ run, run ≠ [] ∧ bs = run ++ rest ∧ ∀ s, (∀ b ∈ s.head?, isNumeralByte b = false) →
      fullNumeral f (run ++ s) = .ok (bits, s) := by
  have hrun : ∀ b ∈ bs.takeWhile isNumeralByte, isNumeralByte b = true :=
    fun _ hb => List.mem_takeWhile_imp hb
  have hprefix : bs.takeWhile isNumeralByte ++ bs.drop (bs.takeWhile isNumeralByte).length = bs :=
    List.prefix_iff_eq_append.1 (List.takeWhile_prefix isNumeralByte)
  simp only [fullNumeral] at h
  split at h
  · cases h
  · rename_i ds e hparts
    split at h
    · cases h
    · rename_i hfinite
      cases h
      refine ⟨bs.takeWhile isNumeralByte, ?_, hprefix.symm, ?_⟩
      · intro hnil
        rw [hnil] at hparts
        cases hparts
      · intro s hs
        simp only [fullNumeral, takeWhile_numeral hrun hs, hparts, if_neg hfinite]
        rw [List.drop_left]

theorem zeroPadded_append {run s rest : Bytes} (hrun : run ≠ [])
    (hs : ∀ b ∈ s.head?, isNumeralByte b = false) (h : zeroPadded (run ++ rest) = false) :
    zeroPadded (run ++ s) = false := by
  match run, hrun with
  | [b], _ =>
      -- a lone zero is followed by the rest, which does not start with a digit
      cases s with
      | nil => simp [zeroPadded]
      | cons x s =>
          have hx := hs x rfl
          simp only [isNumeralByte, Bool.or_eq_false_iff] at hx
          simp only [List.cons_append, List.nil_append]
          unfold zeroPadded
          split <;> simp_all
  | b :: x :: run, _ =>
      simp only [List.cons_append] at h ⊢
      unfold zeroPadded at h ⊢
      split at h <;> split <;> simp_all

theorem numeral_local {bs rest : Bytes} {bits : Nat} (h : numeral bs = .ok (bits, rest)) :
    ∃ run, run ≠ [] ∧ bs = run ++ rest ∧ ∀ s, (∀ b ∈ s.head?, isNumeralByte b = false) →
      numeral (run ++ s) = .ok (bits, s) := by
  rw [numeral] at h
  split at h
  · cases h
  · rename_i hfirst
    simp only [Bool.or_eq_true, not_or, Bool.not_eq_true] at hfirst
    obtain ⟨run, hrun, rfl, hagain⟩ := fullNumeral_local Binary.double h
    refine ⟨run, hrun, rfl, ?_⟩
    intro s hs
    have hhead : (run ++ s).head? = (run ++ rest).head? := by
      cases run with
      | nil => exact absurd rfl hrun
      | cons b run => rfl
    simp only [numeral, hhead, hfirst.1, zeroPadded_append hrun hs hfirst.2, Bool.or_false,
      Bool.false_eq_true, if_false]
    exact hagain s hs

/-- A sign does not change where a numeral ends. -/
theorem signedNumeral_local {b : UInt8} {bs rest : Bytes} {bits : Nat}
    (h : signedNumeral (b :: bs) = .ok (bits, rest)) :
    ∃ used, bs = used ++ rest ∧ ∀ s, (∀ b ∈ s.head?, isNumeralByte b = false) →
      signedNumeral (b :: (used ++ s)) = .ok (bits, s) := by
  by_cases hminus : b = 0x2d
  · subst hminus
    obtain ⟨⟨magnitude, tail⟩, hread, hresult⟩ := bind_eq_ok.1 h
    cases hresult
    obtain ⟨run, -, rfl, hagain⟩ := numeral_local hread
    refine ⟨run, rfl, ?_⟩
    intro s hs
    exact bind_eq_ok.2 ⟨_, hagain s hs, rfl⟩
  · have hnumeral : ∀ tail, signedNumeral (b :: tail) = numeral (b :: tail) := by
      intro tail
      unfold signedNumeral
      split
      · rename_i heq
        cases heq
        exact absurd rfl hminus
      · rfl
    rw [hnumeral] at h
    obtain ⟨run, hrun, hbs, hagain⟩ := numeral_local h
    cases run with
    | nil => exact absurd rfl hrun
    | cons b' run =>
        cases hbs
        refine ⟨run, rfl, ?_⟩
        intro s hs
        rw [hnumeral]
        exact hagain s hs

/-! ## Values -/

/-- The bytes that start a value other than a number. -/
def openers : Bytes := [0x22, 0x6e, 0x74, 0x66, 0x5b, 0x7b]

theorem valueFrom_of_not_opener {b : UInt8} (hb : b ∉ openers) (size : Nat)
    (inner : Option (Step Error Value)) (bs : Bytes) :
    valueFrom size inner b bs =
      if b = 0x2d ∨ (digit? b).isSome then do
        let (bits, bs) ← signedNumeral (b :: bs)
        return (.number (UInt64.ofNat bits), bs)
      else .error .malformed := by
  unfold valueFrom
  split
  case h_7 => rfl
  all_goals exact absurd (by decide) hb

/-- A value is read by its first byte; only the one of a number does not know its end. -/
theorem valueFrom_localBefore {inner : Option (Nat → Step Error Value)}
    (hinner : ∀ value ∈ inner, LocalBefore value n) (b : UInt8) :
    LocalBefore (fun m => valueFrom m (inner.map (· m)) b) n := by
  by_cases hb : b ∈ openers
  · apply localBefore_of_local
    simp only [openers, List.mem_cons, List.not_mem_nil, or_false] at hb
    rcases hb with rfl | rfl | rfl | rfl | rfl | rfl
    · exact (stringRest_local true).returning Value.string
    · exact (word_local [0x75, 0x6c, 0x6c]).returning fun _ => Value.null
    · exact (word_local [0x72, 0x75, 0x65]).returning fun _ => Value.bool true
    · exact (word_local [0x61, 0x6c, 0x73, 0x65]).returning fun _ => Value.bool false
    · cases inner with
      | none => exact local_error _
      | some value => exact (array_local (hinner value rfl)).returning Value.array
    · cases inner with
      | none => exact local_error _
      | some value =>
          exact (object_local (hinner value rfl)).returning fun es =>
            Value.object (Entries.ofPairs es)
  · intro bs v rest h
    simp only [valueFrom_of_not_opener hb] at h ⊢
    split at h
    · rename_i hfirst
      obtain ⟨⟨bits, tail⟩, hread, hresult⟩ := bind_eq_ok.1 h
      cases hresult
      obtain ⟨used, rfl, hagain⟩ := signedNumeral_local hread
      refine ⟨used, rfl, ?_⟩
      intro m _ s hs
      rw [if_pos hfirst]
      exact bind_eq_ok.2 ⟨_, hagain s (hs _ rfl), rfl⟩
    · cases h

/-- A value after white space, where the values inside it are read by `inner`. -/
theorem valueAfterSpace_localBefore (inner : Option (Nat → Step Error Value))
    (hinner : ∀ value ∈ inner, LocalBefore value n) {r : Nat → Step Error Value}
    (hr : ∀ m bs, r m bs =
      match skipSpace bs with
      | b :: bs => valueFrom m (inner.map (· m)) b bs
      | [] => .error .malformed) : LocalBefore r n := by
  intro bs v rest h
  rw [hr] at h
  split at h
  · rename_i b tail hskip
    obtain ⟨used, rfl, hagain⟩ := valueFrom_localBefore hinner b h
    obtain ⟨gap, -, rfl, hgap⟩ := skipSpace_eq_cons hskip
    refine ⟨gap ++ b :: used, by simp, ?_⟩
    intro m hm s hs
    rw [List.length_append, List.length_cons] at hm
    rw [hr, List.append_assoc, List.cons_append, hgap]
    exact hagain m (by omega) s hs
  · cases h

/-- **A JSON value is read again in front of every rest that it ends before.** -/
theorem valueStep_localBefore (levels : Nat) : LocalBefore (fun m => valueStep m levels) n := by
  induction levels with
  | zero => exact valueAfterSpace_localBefore none (by simp) fun _ _ => rfl
  | succ levels ih =>
      refine valueAfterSpace_localBefore (some fun m => valueStep m levels) ?_ fun _ _ => rfl
      intro value hvalue
      cases hvalue
      exact ih

end RoundTrip.Json
