import RoundTrip.Frame.Cursor
import RoundTrip.Proofs.Frame.Encoding

/-!
# Offsets stay in range

The reader that moves an offset over its input computes on words, and checks a length against the
rest of the input only after a conversion under which a negative rest would be a huge one. The
offset never passes the end of the input, so nothing wraps: each of its steps follows the step of
the reader that takes its input apart (`Follows`), and every mark that it leaves is in range.

Main statement: `read_stays_in_range`. The bound that it puts on the length of the input for length
fields cannot be dropped: `exists_strays`.
-/

set_option autoImplicit false

namespace RoundTrip.Frame.Cursor

/-! ## Marks in range -/

/-- The offset of a mark lies behind the header and not behind the input, so the rest of the input
is not negative and a span that fits into it ends at a word; no more room is reserved than items fit
behind the header. -/
def Mark.Located (length : Nat) : Mark → Prop
  | .item offset => (headerLength : Int) ≤ offset ∧ offset ≤ length
  | .span offset _ => (headerLength : Int) ≤ offset ∧ offset ≤ length
  | .rest offset => 0 ≤ length - offset ∧ FitsWord (length - offset)
  | .part offset n => FitsWord n ∧ FitsWord (offset + n)
  | .reserve count => count ≤ (length - headerLength) / minItemLength
  | .field _ _ => True
  | .slice _ _ => True

/-- The end of a length field is a word, and bytes are taken from inside the input. -/
def Mark.InRange (length : Nat) : Mark → Prop
  | .field offset width => FitsWord (offset + width)
  | .slice low high => 0 ≤ low ∧ low ≤ high ∧ high ≤ length
  | _ => True

/-! ## Computing with offsets inside the input -/

/-- A number below half the words is the same as an unsigned word. -/
theorem unsignedWord_natCast {n : Nat} (h : n < wordHalf) : unsignedWord n = n := by
  simp only [unsignedWord, wordCount, wordHalf] at h ⊢
  omega

theorem signedWord_natCast {n : Nat} (h : n < wordHalf) : signedWord n = n :=
  signedWord_eq (by simp only [FitsWord, wordHalf] at h ⊢; omega)

/-- A sum that has passed the largest signed word by little is negative. -/
theorem signedWord_add_neg {k width : Nat} (hk : k < wordHalf) (hwidth : width ≤ 4)
    (hend : wordHalf ≤ k + width) : signedWord (k + width) < 0 := by
  simp only [signedWord, Int.bmod, wordHalf, wordCount] at hk hend ⊢
  omega

/-- Behind an offset inside the input the rest is what it should be. -/
theorem remaining_eq {bs : Bytes} {k : Nat} (hbs : bs.length < wordHalf) (hk : k ≤ bs.length) :
    remaining bs k = ⟨[.rest k], .ok (bs.length - k : Nat)⟩ := by
  have hrest : (bs.length : Int) - k = (bs.length - k : Nat) := by omega
  have hword : signedWord (bs.length - k) = (bs.length - k : Nat) := by
    rw [hrest, signedWord_natCast (by omega)]
  rw [remaining, hword]
  rfl

/-- Bytes are taken from inside the input. -/
theorem slice_eq {bs : Bytes} {low high : Nat} (hlow : low ≤ high) (hhigh : high ≤ bs.length) :
    slice bs low high = ⟨[.slice low high], .ok ((bs.drop low).take (high - low))⟩ := by
  have hbounds : 0 ≤ (low : Int) ∧ (low : Int) ≤ high ∧ (high : Int) ≤ bs.length := by omega
  have hsize : ((high : Int) - low).toNat = high - low := by omega
  rw [slice, if_pos hbounds, hsize]
  rfl

/-! ## Following a reader -/

section Following

variable {α β : Type} {bs : Bytes}

/-- The answers of two readers of one input, by an offset and by the rest. Only when the length of
the input is within four of half the words may the first one have asked for bytes that are not
there, and then the input ends inside an item. -/
inductive Answers (bs : Bytes) : Except Halt (α × Int) → Except Corruption (α × Bytes) → Prop
  | read {a : α} {k : Nat} :
      headerLength ≤ k → k ≤ bs.length → Answers bs (.ok (a, (k : Int))) (.ok (a, bs.drop k))
  | corrupt {c : Corruption} : Answers bs (.error (.corrupt c)) (.error c)
  | wrapped {index : Nat} :
      wordHalf ≤ bs.length + 4 → Answers bs (.error .outOfRange) (.error (.truncatedItem index))

/-- A reader by offsets follows one that takes its input apart. -/
structure Follows (bs : Bytes) (x : Traced (α × Int)) (y : Except Corruption (α × Bytes)) :
    Prop where
  located : ∀ m ∈ x.marks, m.Located bs.length
  inRange : bs.length + 4 < wordHalf → ∀ m ∈ x.marks, m.InRange bs.length
  answers : Answers bs x.answer y

namespace Follows

variable {x : Traced (α × Int)} {y : Except Corruption (α × Bytes)}

theorem pure {a : α} {k : Nat} (hlow : headerLength ≤ k) (hhigh : k ≤ bs.length) :
    Follows bs (Pure.pure (a, (k : Int))) (.ok (a, bs.drop k)) :=
  ⟨List.forall_mem_nil _, fun _ => List.forall_mem_nil _, .read hlow hhigh⟩

theorem corrupt (c : Corruption) :
    Follows bs (halt (.corrupt c) : Traced (α × Int)) (.error c) :=
  ⟨List.forall_mem_nil _, fun _ => List.forall_mem_nil _, .corrupt⟩

theorem wrapped (index : Nat) (h : wordHalf ≤ bs.length + 4) :
    Follows bs (halt .outOfRange : Traced (α × Int)) (.error (.truncatedItem index)) :=
  ⟨List.forall_mem_nil _, fun _ => List.forall_mem_nil _, .wrapped h⟩

/-- One mark more. -/
theorem mark {m : Mark} (hlocated : m.Located bs.length)
    (hrange : bs.length + 4 < wordHalf → m.InRange bs.length) (h : Follows bs x y) :
    Follows bs (Cursor.mark m >>= fun _ => x) y :=
  ⟨List.forall_mem_cons.2 ⟨hlocated, h.located⟩,
    fun hshort => List.forall_mem_cons.2 ⟨hrange hshort, h.inRange hshort⟩, h.answers⟩

/-- One step after the other. The second one starts at an offset inside the input. -/
theorem bind {f : α × Int → Traced (β × Int)} {g : α × Bytes → Except Corruption (β × Bytes)}
    (h : Follows bs x y)
    (hnext : ∀ (a : α) (k : Nat), headerLength ≤ k → k ≤ bs.length →
      Follows bs (f (a, (k : Int))) (g (a, bs.drop k))) :
    Follows bs (x >>= f) (y >>= g) := by
  obtain ⟨marks, answer⟩ := x
  obtain ⟨hlocated, hrange, hanswers⟩ := h
  cases hanswers with
  | @read a k hlow hhigh =>
      have h' := hnext a k hlow hhigh
      exact ⟨List.forall_mem_append.2 ⟨hlocated, h'.located⟩,
        fun hshort => List.forall_mem_append.2 ⟨hrange hshort, h'.inRange hshort⟩, h'.answers⟩
  | corrupt => exact ⟨hlocated, hrange, .corrupt⟩
  | wrapped hlong => exact ⟨hlocated, hrange, .wrapped hlong⟩

/-- A mark with a result. -/
theorem of_marked {m : Mark} {a : β} {f : β → Traced (α × Int)} (hlocated : m.Located bs.length)
    (hrange : bs.length + 4 < wordHalf → m.InRange bs.length) (h : Follows bs (f a) y) :
    Follows bs ((⟨[m], .ok a⟩ : Traced β) >>= f) y :=
  h.mark hlocated hrange

theorem remaining {k : Nat} {f : Int → Traced (α × Int)} (hbs : bs.length < wordHalf)
    (hk : k ≤ bs.length) (h : Follows bs (f (bs.length - k : Nat)) y) :
    Follows bs (Cursor.remaining bs k >>= f) y := by
  rw [remaining_eq hbs hk]
  refine .of_marked ⟨by omega, ?_⟩ (fun _ => trivial) h
  simp only [FitsWord, wordHalf] at hbs ⊢
  omega

theorem slice {low high : Nat} {f : Bytes → Traced (α × Int)} (hlow : low ≤ high)
    (hhigh : high ≤ bs.length) (h : Follows bs (f ((bs.drop low).take (high - low))) y) :
    Follows bs (Cursor.slice bs low high >>= f) y := by
  rw [slice_eq hlow hhigh]
  exact .of_marked trivial (fun _ => ⟨by omega, by omega, by omega⟩) h

/-- Bytes that are asked for outside the input are not there. -/
theorem slice_wrapped {low high : Int} {f : Bytes → Traced (α × Int)}
    (hlong : wordHalf ≤ bs.length + 4)
    (houtside : ¬ (0 ≤ low ∧ low ≤ high ∧ high ≤ bs.length)) (index : Nat) :
    Follows bs (Cursor.slice bs low high >>= f) (.error (.truncatedItem index)) := by
  have hsteps : (Cursor.slice bs low high >>= f)
      = (Cursor.mark (.slice low high) >>= fun _ => halt .outOfRange) := by
    rw [Cursor.slice, if_neg houtside]
    rfl
  rw [hsteps]
  exact (Follows.wrapped index hlong).mark trivial (fun hshort => absurd hshort (by omega))

end Follows

end Following

/-! ## Steps of the reader -/

section Steps

variable {bs : Bytes} {k : Nat}

theorem span_follows (hbs : bs.length < wordHalf) (hlow : headerLength ≤ k)
    (hhigh : k ≤ bs.length) (n : Nat) :
    Follows bs (span bs k n) (Frame.span n (bs.drop k)) := by
  have hplace : (headerLength : Int) ≤ k ∧ (k : Int) ≤ bs.length := by omega
  refine .mark hplace (fun _ => trivial) (.remaining hbs hhigh ?_)
  rw [unsignedWord_natCast (Nat.lt_of_le_of_lt (Nat.sub_le _ _) hbs), Frame.span, Bytes.split_eq,
    List.length_drop]
  by_cases hn : bs.length - k < n
  · rw [if_pos hn, if_neg (by omega)]
    exact .corrupt _
  · -- the length was compared with the true rest, so the end is inside the input
    have hend : k + n ≤ bs.length := by omega
    have hsum : signedWord (k + signedWord n) = (k + n : Nat) := by
      rw [signedWord_natCast (by omega), ← Int.natCast_add, signedWord_natCast (by omega)]
    rw [if_neg hn, if_pos (by omega), hsum]
    refine .mark ?_ (fun _ => trivial) (.slice (by omega) hend ?_)
    · simp only [Mark.Located, FitsWord, wordHalf] at hbs ⊢
      omega
    · rw [Nat.add_sub_cancel_left, List.drop_drop]
      exact .pure (by omega) hend

/-- The end of a length field can wrap, but only near the largest word, and the bytes that are then
asked for are not there. -/
theorem lengthField_follows (hbs : bs.length < wordHalf) (hlow : headerLength ≤ k)
    (hhigh : k ≤ bs.length) {width : Nat} (hwidth : width ≤ 4) (index : Nat) :
    Follows bs (lengthField bs width index k) (Frame.lengthField width index (bs.drop k)) := by
  refine .mark trivial (fun hshort => ?_) ?_
  · simp only [Mark.InRange, FitsWord, wordHalf] at hshort ⊢
    omega
  · rw [Frame.lengthField, Bytes.split_eq, List.length_drop]
    by_cases hsum : k + width < wordHalf
    · rw [← Int.natCast_add, signedWord_natCast hsum]
      by_cases hend : k + width ≤ bs.length
      · rw [if_neg (by omega), if_pos (by omega)]
        refine .slice (by omega) hend ?_
        rw [Nat.add_sub_cancel_left]
        dsimp only
        rw [List.drop_drop]
        exact .pure (by omega) hend
      · rw [if_pos (by omega), if_neg (by omega)]
        exact .corrupt _
    · -- a negative end passes the check of the length, but no bytes end there
      have hlong : wordHalf ≤ bs.length + 4 := by omega
      have hwraps := signedWord_add_neg (Nat.lt_of_le_of_lt hhigh hbs) hwidth (by omega)
      rw [if_neg (by omega), if_neg (by omega)]
      exact .slice_wrapped hlong (fun hbounds => by omega) index

theorem readItem_follows (hbs : bs.length < wordHalf) (hlow : headerLength ≤ k)
    (hhigh : k ≤ bs.length) (index : Nat) :
    Follows bs (readItem bs index k) (Frame.readItem index (bs.drop k)) := by
  have hplace : (headerLength : Int) ≤ k ∧ (k : Int) ≤ bs.length := by omega
  have hfield := lengthField_follows hbs hlow hhigh (show 2 ≤ 4 by omega) index
  refine .mark hplace (fun _ => trivial) (.bind hfield fun keyLength k hlow hhigh => ?_)
  dsimp only
  by_cases hempty : keyLength = 0
  · rw [if_pos hempty, if_pos hempty]
    exact .corrupt _
  · rw [if_neg hempty, if_neg hempty]
    refine .bind (span_follows hbs hlow hhigh keyLength) fun key k hlow hhigh => ?_
    refine .bind (lengthField_follows hbs hlow hhigh (by omega) index) fun length k hlow hhigh => ?_
    refine .bind (span_follows hbs hlow hhigh length) fun payload k hlow hhigh => ?_
    exact .pure hlow hhigh

/-- The loop keeps the offset inside the input. -/
theorem readItems_follows (hbs : bs.length < wordHalf) (hlow : headerLength ≤ k)
    (hhigh : k ≤ bs.length) (count index : Nat) (done : List Item) :
    Follows bs (readItems bs count index done k)
      (Frame.readItems count index done (bs.drop k)) := by
  -- over the items that are left; what carries it is that an item ends inside the input again
  induction count generalizing index done k with
  | zero => exact .pure hlow hhigh
  | succ count ih =>
      have hround : Frame.readItems (count + 1) index done (bs.drop k)
          = Frame.readItem index (bs.drop k)
              >>= fun r => Frame.readItems count (index + 1) (r.1 :: done) r.2 := by
        rw [Frame.readItems]
        cases Frame.readItem index (bs.drop k) <;> rfl
      rw [hround, readItems]
      refine .bind (readItem_follows hbs hlow hhigh index) fun it k hlow hhigh => ?_
      exact ih hlow hhigh (index + 1) (it :: done)

/-- The reader by offsets follows the reader that takes its input apart. -/
theorem read_follows (hbs : bs.length < wordHalf) : Follows bs (read bs) (Frame.read bs) := by
  rw [read, Frame.read, Bytes.split_eq]
  by_cases hshort : bs.length < headerLength
  · rw [if_pos hshort, if_neg (by omega)]
    exact .corrupt _
  · have hheader : headerLength ≤ bs.length := by omega
    have hfirst : 1 ≤ bs.length := Nat.le_trans (by decide) hheader
    rw [if_neg hshort, if_pos hheader]
    refine Follows.slice (Nat.zero_le 1) hfirst ?_
    refine Follows.slice (show 1 ≤ headerLength by decide) hheader ?_
    obtain ⟨code, field, htake⟩ : ∃ code field, bs.take headerLength = code :: field :=
      List.exists_cons_of_length_pos (by rw [List.length_take]; simp only [headerLength]; omega)
    have hcode : ((bs.drop 0).take (1 - 0)).headD 0 = code := by
      cases bs with
      | nil => cases htake
      | cons b bs => exact (List.cons.inj htake).1
    have hfield : (bs.drop 1).take (headerLength - 1) = field := by
      rw [← List.drop_take, htake]
      rfl
    rw [hcode, hfield, htake]
    dsimp only
    by_cases hsingle : (⟨code⟩ : Kind) = .single
    · rw [if_pos hsingle, if_pos hsingle]
      refine .bind (span_follows hbs (Nat.le_refl _) hheader _) fun payload k hlow hhigh => ?_
      exact .pure hlow hhigh
    · rw [if_neg hsingle, if_neg hsingle]
      by_cases hbatch : (⟨code⟩ : Kind) = .batch
      · rw [if_pos hbatch, if_pos hbatch]
        refine .remaining hbs hheader ?_
        rw [unsignedWord_natCast (Nat.lt_of_le_of_lt (Nat.sub_le _ _) hbs), List.length_drop]
        by_cases hmany : (bs.length - headerLength) / minItemLength < Bytes.toNat field
        · rw [if_pos hmany, if_pos hmany]
          exact .corrupt _
        · -- the room that is reserved is the number that has just been compared
          rw [if_neg hmany, if_neg hmany]
          refine .mark (Nat.le_of_not_lt hmany) (fun _ => trivial) ?_
          refine .bind (readItems_follows hbs (Nat.le_refl _) hheader _ 0 [])
            fun items k hlow hhigh => ?_
          exact .pure hlow hhigh
      · rw [if_neg hbatch, if_neg hbatch]
        exact .corrupt _

end Steps

/-! ## Main statement -/

/-- A corruption matches one cause. -/
theorem causes_toFailure (c : Corruption) : c.toFailure.causes = [.corruptFrame] := rfl

/-- The outcome of a reader by what the other one says. -/
theorem decode_of_answers {bs : Bytes} (h : Answers bs (read bs).answer (Frame.read bs)) :
    (∃ f n, readPrefix bs = .ok (f, n) ∧ decode bs = some ⟨f, n, none⟩)
      ∨ (∃ c : Corruption, readPrefix bs = .error c.toFailure
          ∧ decode bs = some ⟨blank, 0, some c.toFailure⟩)
      ∨ (∃ e, readPrefix bs = .error e) ∧ decode bs = none ∧ wordHalf ≤ bs.length + 4 := by
  have hrefused {c : Corruption} (hread : Frame.read bs = .error c) :
      readPrefix bs = .error c.toFailure := by
    rw [readPrefix, PrefixReader.ofRest, hread]
    rfl
  rw [decode]
  generalize (read bs).answer = x at h ⊢
  generalize hread : Frame.read bs = y at h
  cases h with
  | @read f k _ hhigh =>
      have hused : (k : Int) = bs.length - (bs.drop k).length := by
        rw [List.length_drop]
        omega
      exact Or.inl ⟨f, k,
        PrefixReader.ofRest_eq_ok_iff.2 ⟨_, Step.mapError_eq_ok.2 hread, hused⟩, rfl⟩
  | @corrupt c => exact Or.inr (Or.inl ⟨c, hrefused hread, rfl⟩)
  | wrapped hlong => exact Or.inr (Or.inr ⟨⟨_, hrefused hread⟩, rfl, hlong⟩)

/-- **Reading a frame never computes out of range.** In an input whose length is a word, the offset
is behind the header and not behind the input at every item and at every span. So the rest of the
input is never negative, the end of a span is a word, and no more room is reserved than items fit.
What the reader that takes its input apart accepts is decoded alike, and a failure comes with the
blank frame, no bytes consumed, and one cause.

A length field starts at or before the end of the input, so its own end is a word when the input is
at least five bytes shorter than half the words; then all bytes that are asked for are there, and
every refusal is the same too. -/
theorem read_stays_in_range {bs : Bytes} (hbs : bs.length < wordHalf) :
    (∀ m ∈ (read bs).marks, m.Located bs.length)
      ∧ (∀ f n, readPrefix bs = .ok (f, n) → decode bs = some ⟨f, n, none⟩)
      ∧ (∀ r e, decode bs = some r → r.failure = some e →
          r.frame = blank ∧ r.consumed = 0 ∧ e.causes = [.corruptFrame])
      ∧ (bs.length + 4 < wordHalf →
          (∀ m ∈ (read bs).marks, m.InRange bs.length)
          ∧ ∀ e, readPrefix bs = .error e → decode bs = some ⟨blank, 0, some e⟩) := by
  obtain ⟨hlocated, hrange, hanswers⟩ := read_follows hbs
  refine ⟨hlocated, ?_⟩
  rcases decode_of_answers hanswers with
    ⟨f, n, hreads, hdecode⟩ | ⟨c, hreads, hdecode⟩ | ⟨⟨e, hreads⟩, hdecode, hlong⟩
  · rw [hreads, hdecode]
    refine ⟨?_, ?_, fun hshort => ⟨hrange hshort, ?_⟩⟩
    · rintro f n ⟨⟩
      rfl
    · rintro r e ⟨⟩ ⟨⟩
    · rintro e ⟨⟩
  · rw [hreads, hdecode]
    refine ⟨?_, ?_, fun hshort => ⟨hrange hshort, ?_⟩⟩
    · rintro f n ⟨⟩
    · rintro r e ⟨⟩ ⟨⟩
      exact ⟨rfl, rfl, causes_toFailure c⟩
    · rintro e ⟨⟩
      rfl
  · rw [hreads, hdecode]
    refine ⟨?_, ?_, fun hshort => absurd hshort (by omega)⟩
    · rintro f n ⟨⟩
    · rintro r e ⟨⟩

/-- An item whose payload is announced with the largest length there is. The span that refuses it
starts at the end of the input. -/
theorem read_stays_in_range_huge_length :
    let bs : Bytes := [2, 0, 0, 0, 1, 0, 1, 0x6b, 0xff, 0xff, 0xff, 0xff]
    Mark.span 12 maxLength ∈ (read bs).marks
      ∧ (Mark.span 12 maxLength).Located bs.length
      ∧ (∀ m ∈ (read bs).marks, m.InRange bs.length)
      ∧ decode bs = some ⟨blank, 0, some (.detailed .corruptFrame
          "length 4294967295 exceeds remaining 0 bytes")⟩ := by
  intro bs
  have hmem : Mark.span 12 maxLength ∈ (read bs).marks := by decide
  obtain ⟨hlocated, -, -, hshort⟩ := @read_stays_in_range bs (by decide)
  obtain ⟨hrange, hrefused⟩ := hshort (by decide)
  exact ⟨hmem, hlocated _ hmem, hrange, hrefused _ (by rfl)⟩

/-! ## Inputs that are too long

The five bytes are needed: an input that is only four bytes shorter than half the words can end
behind the key of an item, and the end of the length field that should follow it is no word. -/

section Sharp

variable {α β : Type} {bs : Bytes} {k : Nat}

/-- A computation that asks for bytes that are not there. -/
structure Strays (x : Traced α) : Prop where
  answer_eq : x.answer = .error .outOfRange

theorem Strays.mark {x : Traced α} (m : Mark) (h : Strays x) :
    Strays (Cursor.mark m >>= fun _ => x) := ⟨h.answer_eq⟩

theorem Strays.bind {x : Traced α} (h : Strays x) (f : α → Traced β) : Strays (x >>= f) := by
  obtain ⟨marks, answer⟩ := x
  obtain ⟨rfl⟩ := h
  exact ⟨rfl⟩

/-- After a step that succeeds. -/
theorem Strays.after {x : Traced α} {a : α} {f : α → Traced β} (hx : x.answer = .ok a)
    (h : Strays (f a)) : Strays (x >>= f) := by
  obtain ⟨marks, answer⟩ := x
  cases hx
  exact ⟨h.answer_eq⟩

/-- A reader that follows a success succeeds. -/
theorem Follows.answer_eq_ok {x : Traced (α × Int)} {a : α} {rest : Bytes}
    (h : Follows bs x (.ok (a, rest))) :
    ∃ k : Nat, headerLength ≤ k ∧ k ≤ bs.length ∧ bs.drop k = rest
      ∧ x.answer = .ok (a, (k : Int)) := by
  obtain ⟨marks, answer⟩ := x
  obtain ⟨-, -, hanswers⟩ := h
  cases hanswers with
  | @read _ k hlow hhigh => exact ⟨k, hlow, hhigh, rfl, rfl⟩

theorem slice_strays {low high : Int} (h : ¬ (0 ≤ low ∧ low ≤ high ∧ high ≤ bs.length)) :
    Strays (slice bs low high) := by
  rw [slice, if_neg h]
  exact ⟨rfl⟩

/-- A length field whose end wraps. -/
theorem lengthField_strays (hbs : bs.length < wordHalf) (hhigh : k ≤ bs.length)
    (hend : wordHalf ≤ k + 4) (index : Nat) : Strays (lengthField bs 4 index k) := by
  have hwraps := signedWord_add_neg (Nat.lt_of_le_of_lt hhigh hbs) (Nat.le_refl 4) hend
  rw [lengthField, if_neg (by omega)]
  exact .mark _ (.bind (slice_strays (by omega)) _)

/-- An item of which only the key is there, at the end of the input. -/
theorem readItem_strays (hbs : bs.length + 4 = wordHalf) (hlow : headerLength ≤ k)
    (hhigh : k ≤ bs.length) {key : Bytes} (hkey : key ≠ []) (hfits : key.length ≤ maxKeyLength)
    (hdrop : bs.drop k = Bytes.bigEndian 2 key.length ++ key) (index : Nat) :
    Strays (readItem bs index k) := by
  have hword : bs.length < wordHalf := by omega
  have hfield := lengthField_follows hword hlow hhigh (show 2 ≤ 4 by omega) index
  rw [hdrop, Frame.lengthField_eq_ok_iff.2 ⟨?_, rfl⟩] at hfield
  · obtain ⟨k₁, hlow₁, hhigh₁, hdrop₁, hanswer₁⟩ := hfield.answer_eq_ok
    have hspan := span_follows hword hlow₁ hhigh₁ key.length
    rw [hdrop₁, Frame.span_eq_ok_iff.2 ⟨(List.append_nil key).symm, rfl⟩] at hspan
    obtain ⟨k₂, -, hhigh₂, hdrop₂, hanswer₂⟩ := hspan.answer_eq_ok
    have hend : bs.length ≤ k₂ := List.drop_eq_nil_iff.1 hdrop₂
    have hpos : key.length ≠ 0 := fun hzero => hkey (List.length_eq_zero_iff.1 hzero)
    rw [readItem]
    refine .mark _ (.after hanswer₁ ?_)
    dsimp only
    rw [if_neg hpos]
    refine .after hanswer₂ ?_
    dsimp only
    exact .bind (lengthField_strays hword hhigh₂ (by omega) index) _
  · simp only [maxKeyLength, Nat.pow_eq] at hfits ⊢
    omega

/-- Such an item behind others. -/
theorem readItems_strays (hbs : bs.length + 4 = wordHalf) (hlow : headerLength ≤ k)
    (hhigh : k ≤ bs.length) {its : List Item} (hits : ∀ it ∈ its, it.Fits ∧ it.normalized = it)
    {key : Bytes} (hkey : key ≠ []) (hfits : key.length ≤ maxKeyLength)
    (hdrop : bs.drop k = its.flatMap Item.encode ++ (Bytes.bigEndian 2 key.length ++ key))
    (index : Nat) (done : List Item) :
    Strays (readItems bs (its.length + 1) index done k) := by
  -- an item that is there is read as by the other reader, so it ends where the next one starts
  induction its generalizing index done k with
  | nil =>
      rw [List.length_nil, readItems]
      exact .bind (readItem_strays hbs hlow hhigh hkey hfits hdrop index) _
  | cons it its ih =>
      obtain ⟨⟨hit, hnormal⟩, hits'⟩ := List.forall_mem_cons.1 hits
      have hword : bs.length < wordHalf := by omega
      have hitem := readItem_follows hword hlow hhigh index
      rw [Frame.readItem_eq_ok_iff.2 ⟨hit, hnormal, ?_⟩] at hitem
      · obtain ⟨k', hlow', hhigh', hdrop', hanswer⟩ := hitem.answer_eq_ok
        rw [List.length_cons, readItems]
        exact .after hanswer (ih hlow' hhigh' hits' hdrop' (index + 1) (it :: done))
      · rw [hdrop, List.flatMap_cons, List.append_assoc]

/-- Such an item at the end of a batch. -/
theorem read_strays {its : List Item} (hits : ∀ it ∈ its, it.Fits ∧ it.normalized = it)
    (hcount : its.length < maxLength) {key : Bytes} (hkey : 5 ≤ key.length)
    (hfits : key.length ≤ maxKeyLength)
    (heq : bs = Kind.batch.code :: (Bytes.bigEndian 4 (its.length + 1)
      ++ (its.flatMap Item.encode ++ (Bytes.bigEndian 2 key.length ++ key))))
    (hbs : bs.length + 4 = wordHalf) : Strays (read bs) := by
  have hlength : bs.length = headerLength + (its.flatMap Item.encode).length + 2 + key.length := by
    simp [heq, Bytes.length_bigEndian, headerLength]
    omega
  have hheader : headerLength ≤ bs.length := by omega
  have hfirst : 1 ≤ bs.length := Nat.le_trans (by decide) hheader
  have hcode : ((bs.drop 0).take (1 - 0)).headD 0 = Kind.batch.code := by
    rw [heq]
    rfl
  have hfield : (bs.drop 1).take (headerLength - 1) = Bytes.bigEndian 4 (its.length + 1) := by
    rw [heq]
    exact List.take_left' (Bytes.length_bigEndian 4 _)
  have hdrop : bs.drop headerLength
      = its.flatMap Item.encode ++ (Bytes.bigEndian 2 key.length ++ key) := by
    rw [heq]
    exact List.drop_left' (Bytes.length_bigEndian 4 _)
  have hmin := minItemLength_mul_length_le fun it hit => (hits it hit).1
  have hroom : ¬ (bs.length - headerLength) / minItemLength < its.length + 1 := by
    simp only [minItemLength] at hmin ⊢
    omega
  have hvalue : Bytes.toNat (Bytes.bigEndian 4 (its.length + 1)) = its.length + 1 := by
    rw [Bytes.toNat_bigEndian, Nat.mod_eq_of_lt]
    simp only [maxLength, Nat.pow_eq] at hcount ⊢
    omega
  have hbatch : (⟨Kind.batch.code⟩ : Kind) = .batch := rfl
  have hword : bs.length < wordHalf := by omega
  have hrest : unsignedWord (bs.length - headerLength : Nat) = bs.length - headerLength :=
    unsignedWord_natCast (by omega)
  rw [read, if_neg (by omega)]
  refine .after (congrArg _ (slice_eq (Nat.zero_le 1) hfirst)) ?_
  refine .after (congrArg _ (slice_eq (show 1 ≤ headerLength by decide) hheader)) ?_
  rw [hcode, hfield, hvalue, hbatch, if_neg batch_ne_single, if_pos rfl]
  refine .after (congrArg _ (remaining_eq hword hheader)) ?_
  rw [hrest, if_neg hroom]
  refine .mark _ (.bind ?_ _)
  exact readItems_strays hbs (Nat.le_refl _) hheader hits (by rintro rfl; simp at hkey) hfits hdrop
    0 []

/-- There are items of every length between the shortest and the longest one. -/
theorem exists_item {n : Nat} (hn : n ≤ maxLength) :
    ∃ it : Item, it.Fits ∧ it.normalized = it ∧ it.size = minItemLength + n := by
  refine ⟨⟨[0], some (List.replicate n 0)⟩, ⟨Nat.one_pos, ?_, ?_⟩, rfl, ?_⟩
  · exact show 1 ≤ maxKeyLength by decide
  · simpa using hn
  · simp [Item.size, minItemLength]

/-- **The bound on the length is sharp.** -/
theorem exists_strays : ∃ bs : Bytes, bs.length + 4 = wordHalf ∧ decode bs = none := by
  obtain ⟨it, hit, hnormal, hsize⟩ := exists_item (show 0xfffffff3 ≤ maxLength by decide)
  -- a number without its value, since nothing here may count the items one by one
  obtain ⟨n, hn⟩ : ∃ n, n = 0x80000003 := ⟨_, rfl⟩
  have hlength : ((List.replicate n it).flatMap Item.encode).length + 18 = wordHalf := by
    have hsum : ((List.replicate n it).flatMap Item.encode).length = n * it.size := by
      simp [List.length_flatMap, Item.length_encode]
    rw [hsum, hsize, hn]
    decide
  have hits : ∀ other ∈ List.replicate n it, other.Fits ∧ other.normalized = other := by
    intro other hother
    obtain rfl := List.eq_of_mem_replicate hother
    exact ⟨hit, hnormal⟩
  have hcount : (List.replicate n it).length < maxLength := by
    rw [List.length_replicate, hn]
    decide
  obtain ⟨key, hkey⟩ : ∃ key : Bytes, key.length = 7 := ⟨List.replicate 7 0, rfl⟩
  obtain ⟨bs, heq⟩ : ∃ bs : Bytes, bs = Kind.batch.code ::
      (Bytes.bigEndian 4 ((List.replicate n it).length + 1)
        ++ ((List.replicate n it).flatMap Item.encode ++ (Bytes.bigEndian 2 key.length ++ key))) :=
    ⟨_, rfl⟩
  have hbs : bs.length + 4 = wordHalf := by
    simp only [heq, List.length_cons, List.length_append, Bytes.length_bigEndian, hkey]
    omega
  have hstrays : Strays (read bs) := by
    refine read_strays hits hcount ?_ ?_ heq hbs
    · omega
    · rw [hkey]
      decide
  refine ⟨bs, hbs, ?_⟩
  rw [decode, hstrays.answer_eq]
  rfl

end Sharp

end RoundTrip.Frame.Cursor
