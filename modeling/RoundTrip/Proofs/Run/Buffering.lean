import RoundTrip.Run.Buffer

/-!
# What a buffer keeps

A buffer never invents, repeats or reorders a byte. The bytes that are stored, followed by those
that are held back, are always a prefix of what was handed over, and all of it as long as nothing
has failed (`Buffer.Carries`).

Whatever is handed over, a buffer makes moves of six kinds (`Buffer.Move`), and every write is a
series of them (`Buffer.step_moves`, `Buffer.emit_moves`). So a fact about all series of writes is a
case distinction over the moves (`Buffer.Moves.preserves`). In this way the invariant is kept
whatever the output does (`Buffer.Carries.emit`), and after a flush without failure everything is
stored (`Buffer.Carries.stored_of_flush`). An output that takes everything never makes a buffer
fail (`Buffer.Carries.failure_emit`).
-/

set_option autoImplicit false

namespace RoundTrip.Run

/-! ## Offers -/

/-- An output that stores every block as a whole. -/
structure Sink.TakesAll (s : Sink) : Prop where
  capacity_eq : s.capacity = none
  atOnce_eq : s.atOnce = none

theorem Sink.TakesAll.take_eq {s : Sink} (h : s.TakesAll) (size offered : Nat) :
    s.take size offered = (offered, none) := by
  simp [take, wanted, h.capacity_eq, h.atOnce_eq]

namespace Sink

/-- There is room for the given number of bytes. -/
def Holds (s : Sink) (size : Nat) : Prop := ∀ n e, s.capacity = some (n, e) → size ≤ n

/-- Where a write is not cut for another reason, it stores the whole block, or it fills the output
up and fails. -/
theorem take_cases {s : Sink} (hcut : s.atOnce = none) (size offered : Nat) :
    (s.take size offered = (offered, none) ∧ s.Holds (size + offered))
    ∨ ∃ n e, s.capacity = some (n, e) ∧ n < size + offered
        ∧ s.take size offered = (n - size, some e) := by
  cases hcapacity : s.capacity with
  | none => exact Or.inl ⟨by simp [take, wanted, hcapacity, hcut], by simp [Holds, hcapacity]⟩
  | some limit =>
      rcases limit with ⟨n, e⟩
      rcases Nat.lt_or_ge n (size + offered) with hfull | hroom
      · exact Or.inr ⟨n, e, rfl, hfull, by
          simp [take, wanted, hcapacity, hcut, Nat.not_le.2 hfull]⟩
      · exact Or.inl ⟨by simp [take, wanted, hcapacity, hcut, hroom], by
          simp [Holds, hcapacity, hroom]⟩

/-- An output that may store nothing of a block and not fail. -/
def Stalls (s : Sink) : Prop :=
  ∃ size offered, 0 < offered ∧ s.take size offered = (0, none)

theorem not_stalls {s : Sink} (hcut : s.atOnce = none) : ¬ s.Stalls := by
  rintro ⟨size, offered, hpos, htake⟩
  rcases take_cases hcut size offered with ⟨hwhole, -⟩ | ⟨n, e, -, -, hfull⟩
  · rw [hwhole] at htake
    cases htake
    exact absurd hpos (Nat.lt_irrefl 0)
  · rw [hfull] at htake
    exact absurd (congrArg Prod.snd htake) (Option.some_ne_none e)

end Sink

namespace Output

/-- An offer stores the front of the block behind what is there. -/
theorem contents_offer (o : Output) (bs : Bytes) (n : Nat) :
    (o.offer bs n).2.contents = o.contents ++ bs.take (o.offer bs n).1.1 := by
  simp [offer, contents]

theorem sink_offer (o : Output) (bs : Bytes) (n : Nat) : (o.offer bs n).2.sink = o.sink := rfl

@[simp] theorem size_offer (o : Output) (bs : Bytes) (n : Nat) :
    (o.offer bs n).2.size = o.size + (o.offer bs n).1.1 := rfl

theorem stored_offer_le (o : Output) (bs : Bytes) (n : Nat) : (o.offer bs n).1.1 ≤ n :=
  o.sink.take_le o.size n

/-- The counter of stored bytes stays right when all of a block is offered. -/
theorem size_offer_eq {o : Output} (h : o.size = o.contents.length) (bs : Bytes) :
    (o.offer bs bs.length).2.size = (o.offer bs bs.length).2.contents.length := by
  have hle := o.stored_offer_le bs bs.length
  rw [size_offer, contents_offer, List.length_append, List.length_take, h]
  omega

end Output

/-! ## The invariant -/

namespace Buffer

/-- The bytes that a buffer has taken over: those that are stored, then those that are held back. -/
def accepted (b : Buffer) : Bytes := b.output.contents ++ b.held.reverse

/-- The buffer before the output `sink` accounts for the bytes `emitted` that have been handed over:
it has taken over a prefix of them, and all of them unless it has failed. -/
structure Carries (b : Buffer) (sink : Sink) (emitted : Bytes) : Prop where
  sink_eq : b.output.sink = sink
  used_eq : b.used = b.held.length
  size_eq : b.output.size = b.output.contents.length
  accepted_prefix : b.accepted <+: emitted
  accepted_eq : b.failure = none → b.accepted = emitted

variable {b b' : Buffer} {sink : Sink} {emitted : Bytes}

theorem carries_new (capacity : Nat) (sink : Sink) : (new capacity sink).Carries sink [] :=
  ⟨rfl, rfl, rfl, List.prefix_rfl, fun _ => rfl⟩

/-- What is stored is a prefix of what has been handed over. -/
theorem Carries.contents_prefix (h : b.Carries sink emitted) : b.output.contents <+: emitted :=
  (List.prefix_append _ _).trans h.accepted_prefix

/-- A buffer that has failed takes nothing more. -/
theorem Carries.of_failed (h : b.Carries sink emitted) {e : Failure}
    (hfailed : b.failure = some e) (bs : Bytes) : b.Carries sink (emitted ++ bs) := by
  refine ⟨h.sink_eq, h.used_eq, h.size_eq,
    h.accepted_prefix.trans (List.prefix_append emitted bs), ?_⟩
  intro hnone
  rw [hnone] at hfailed
  cases hfailed

theorem Carries.hold (h : b.Carries sink emitted) (hnone : b.failure = none) (bs : Bytes) :
    (b.hold bs bs.length).Carries sink (emitted ++ bs) := by
  have haccepted : (b.hold bs bs.length).accepted = emitted ++ bs := by
    rw [← h.accepted_eq hnone]
    simp [accepted, Buffer.hold]
  refine ⟨h.sink_eq, ?_, h.size_eq, ?_, fun _ => haccepted⟩
  · simp [Buffer.hold, h.used_eq, Nat.add_comm]
  · exact haccepted ▸ List.prefix_rfl

/-! ## Flushing -/

/-- The ways in which a flush of `b` ends. -/
inductive Flushed (b : Buffer) : Buffer → Prop
  | failed {e : Failure} : b.failure = some e → Flushed b b
  | idle : b.failure = none → b.used = 0 → Flushed b b
  /-- Everything that was held back is stored. -/
  | whole {output : Output} :
      b.failure = none → b.output.offer b.held.reverse b.used = ((b.used, none), output) →
      Flushed b { b with held := [], used := 0, output }
  /-- What is not stored stays held back. -/
  | short {stored : Nat} {failure : Option Failure} {output : Output} :
      b.failure = none → b.output.offer b.held.reverse b.used = ((stored, failure), output) →
      (failure = none → stored ≠ b.used) →
      Flushed b
        { b with
          held := b.held.take (b.used - stored)
          used := b.used - stored
          failure := some (failure.getD shortWrite)
          output }

theorem flushed (b : Buffer) : b.Flushed b.flush := by
  cases hfail : b.failure with
  | some e =>
      have hflush : b.flush = b := by simp [flush, hfail]
      rw [hflush]
      exact .failed hfail
  | none =>
      by_cases hused : b.used = 0
      · have hflush : b.flush = b := by simp [flush, hused]
        rw [hflush]
        exact .idle hfail hused
      · simp only [flush, hfail, Option.isSome_none, Bool.false_or, beq_iff_eq, hused, if_false]
        cases hoffer : b.output.offer b.held.reverse b.used with
        | mk answer output =>
            rcases answer with ⟨stored, failure⟩
            dsimp only
            split
            · rename_i hwhole
              simp only [Bool.and_eq_true, Option.isNone_iff_eq_none, beq_iff_eq] at hwhole
              obtain ⟨rfl, rfl⟩ := hwhole
              rw [← hfail]
              exact .whole hfail hoffer
            · rename_i hshort
              have hpart : failure = none → stored ≠ b.used := by
                rintro rfl rfl
                simp at hshort
              cases failure with
              | none => exact .short hfail hoffer hpart
              | some e => exact .short hfail hoffer hpart

/-- What a flush does when something is held back and nothing has failed. -/
theorem flush_cases (hnone : b.failure = none) (hpos : 0 < b.used) :
    (∃ output, b.output.offer b.held.reverse b.used = ((b.used, none), output)
      ∧ b.flush = { b with held := [], used := 0, output })
    ∨ ∃ stored failure output, b.output.offer b.held.reverse b.used = ((stored, failure), output)
      ∧ (failure = none → stored ≠ b.used)
      ∧ b.flush =
        { b with
          held := b.held.take (b.used - stored)
          used := b.used - stored
          failure := some (failure.getD shortWrite)
          output } := by
  have hflushed := b.flushed
  generalize b.flush = b' at hflushed ⊢
  cases hflushed with
  | failed hfail =>
      rw [hnone] at hfail
      cases hfail
  | idle _ hused => omega
  | whole _ hoffer => exact Or.inl ⟨_, hoffer, rfl⟩
  | short _ hoffer hpart => exact Or.inr ⟨_, _, _, hoffer, hpart, rfl⟩

/-- A flush moves bytes from the buffer to the output and loses none of them, even when it
fails. -/
theorem Flushed.accepted_eq (h : b.Flushed b') (hused : b.used = b.held.length) :
    b'.accepted = b.accepted := by
  have hcontents := b.output.contents_offer b.held.reverse b.used
  cases h with
  | failed _ => rfl
  | idle _ _ => rfl
  | whole _ hoffer =>
      have hall : b.used = b.held.reverse.length := by rw [List.length_reverse, hused]
      rw [hoffer] at hcontents
      rw [accepted, hcontents, hall, List.take_length, List.reverse_nil, List.append_nil, accepted]
  | @short stored _ _ _ hoffer _ =>
      have hle : (b.output.offer b.held.reverse b.used).1.1 ≤ b.used :=
        b.output.stored_offer_le b.held.reverse b.used
      rw [hoffer] at hcontents hle
      dsimp only at hle
      -- what is not stored is the end of what was held back
      have hrest : (b.held.take (b.used - stored)).reverse = b.held.reverse.drop stored := by
        rw [List.reverse_take, ← hused, Nat.sub_sub_self hle]
      rw [accepted, hcontents, hrest, List.append_assoc, List.take_append_drop, accepted]

/-- A flush keeps both counters right and changes nothing else about the output. -/
theorem Flushed.counters (h : b.Flushed b') (hused : b.used = b.held.length)
    (hsize : b.output.size = b.output.contents.length) :
    b'.output.sink = b.output.sink ∧ b'.used = b'.held.length
      ∧ b'.output.size = b'.output.contents.length := by
  have hsink := b.output.sink_offer b.held.reverse b.used
  have hcount := Output.size_offer_eq hsize b.held.reverse
  rw [List.length_reverse, ← hused] at hcount
  cases h with
  | failed _ => exact ⟨rfl, hused, hsize⟩
  | idle _ _ => exact ⟨rfl, hused, hsize⟩
  | whole _ hoffer =>
      rw [hoffer] at hcount hsink
      exact ⟨hsink, rfl, hcount⟩
  | short _ hoffer _ =>
      rw [hoffer] at hcount hsink
      refine ⟨hsink, ?_, hcount⟩
      dsimp only
      rw [List.length_take, ← hused]
      omega

/-- A flush that does not fail leaves nothing behind, and nothing had failed before it. -/
theorem Flushed.of_failure_eq_none (h : b.Flushed b') (hnone : b'.failure = none) :
    b.failure = none ∧ b'.used = 0 := by
  cases h with
  | failed hfail =>
      rw [hfail] at hnone
      cases hnone
  | idle hbefore hused => exact ⟨hbefore, hused⟩
  | whole hbefore _ => exact ⟨hbefore, rfl⟩
  | short _ _ _ => cases hnone

theorem Carries.flush (h : b.Carries sink emitted) : b.flush.Carries sink emitted := by
  obtain ⟨hsink, hused, hsize⟩ := b.flushed.counters h.used_eq h.size_eq
  refine ⟨hsink.trans h.sink_eq, hused, hsize, ?_, ?_⟩
  · rw [b.flushed.accepted_eq h.used_eq]
    exact h.accepted_prefix
  · intro hnone
    rw [b.flushed.accepted_eq h.used_eq]
    exact h.accepted_eq (b.flushed.of_failure_eq_none hnone).1

theorem Carries.held_flush (h : b.Carries sink emitted) (hnone : b.flush.failure = none) :
    b.flush.held = [] := by
  rw [← List.length_eq_zero_iff, ← h.flush.used_eq]
  exact (b.flushed.of_failure_eq_none hnone).2

/-- After a flush that does not fail the output holds everything that was handed over. -/
theorem Carries.stored_of_flush (h : b.Carries sink emitted) (hnone : b.flush.failure = none) :
    b.flush.output.contents = emitted := by
  have haccepted := h.flush.accepted_eq hnone
  rwa [accepted, h.held_flush hnone, List.reverse_nil, List.append_nil] at haccepted

/-! ## Writing -/

/-- A buffer that fails on the way keeps what it has taken over. -/
theorem Carries.fail (h : b.Carries sink emitted) (e : Failure) (bs : Bytes) :
    ({ b with failure := some e } : Buffer).Carries sink (emitted ++ bs) :=
  ⟨h.sink_eq, h.used_eq, h.size_eq, h.accepted_prefix.trans (List.prefix_append emitted bs), nofun⟩

/-- A block that is offered while nothing is held back counts as handed over as far as it is
stored. -/
theorem Carries.offer (h : b.Carries sink emitted) (hnone : b.failure = none)
    (hheld : b.held = []) (bs : Bytes) :
    ({ b with output := (b.output.offer bs bs.length).2 } : Buffer).Carries sink
      (emitted ++ bs.take (b.output.offer bs bs.length).1.1) := by
  have hemitted := h.accepted_eq hnone
  rw [accepted, hheld, List.reverse_nil, List.append_nil] at hemitted
  have haccepted : ({ b with output := (b.output.offer bs bs.length).2 } : Buffer).accepted
      = emitted ++ bs.take (b.output.offer bs bs.length).1.1 := by
    rw [accepted, Output.contents_offer, hemitted, hheld, List.reverse_nil, List.append_nil]
  refine ⟨h.sink_eq, h.used_eq, Output.size_offer_eq h.size_eq bs, ?_, fun _ => haccepted⟩
  exact haccepted ▸ List.prefix_rfl

/-! ## Moves -/

/-- What a buffer does in one move, by which it is handed the given bytes. -/
inductive Move : Buffer → Bytes → Buffer → Prop
  /-- A buffer that has failed does nothing any more. -/
  | ignore {b : Buffer} {e : Failure} (bs : Bytes) : b.failure = some e → Move b bs b
  | hold {b : Buffer} (bs : Bytes) : b.failure = none → Move b bs (b.hold bs bs.length)
  | flush {b : Buffer} : b.failure = none → 0 < b.used → Move b [] b.flush
  /-- A block that is offered while nothing is held back is handed over as far as it is stored. -/
  | store {b : Buffer} {bs : Bytes} {stored : Nat} {output : Output} :
      b.failure = none → b.used = 0 → 0 < bs.length →
      b.output.offer bs bs.length = ((stored, none), output) →
      Move b (bs.take stored) { b with output }
  | refuse {b : Buffer} {bs : Bytes} {stored : Nat} {e : Failure} {output : Output} :
      b.failure = none → b.used = 0 → 0 < bs.length →
      b.output.offer bs bs.length = ((stored, some e), output) →
      Move b bs { b with output, failure := some e }
  /-- An output that stores nothing and does not fail is given up. -/
  | stall {b : Buffer} (bs : Bytes) :
      b.failure = none → b.output.sink.Stalls → Move b bs { b with failure := some shortWrite }

/-- Moves one after the other. -/
inductive Moves : Buffer → Bytes → Buffer → Prop
  | refl (b : Buffer) : Moves b [] b
  | step {b b' b'' : Buffer} {bs bs' : Bytes} :
      Move b bs b' → Moves b' bs' b'' → Moves b (bs ++ bs') b''

theorem Move.moves {bs : Bytes} (h : Move b bs b') : Moves b bs b' := by
  have hmoves := Moves.step h (.refl b')
  rwa [List.append_nil] at hmoves

theorem Moves.trans {b'' : Buffer} {bs bs' : Bytes} (h : Moves b bs b') (h' : Moves b' bs' b'') :
    Moves b (bs ++ bs') b'' := by
  induction h with
  | refl b => exact h'
  | step hmove _ ih =>
      rw [List.append_assoc]
      exact .step hmove (ih h')

/-- What every move keeps holds after any number of them. -/
theorem Moves.preserves {P : Buffer → Bytes → Prop} {bs : Bytes}
    (hmove : ∀ {b b' emitted bs}, P b emitted → Move b bs b' → P b' (emitted ++ bs))
    (h : Moves b bs b') (hb : P b emitted) : P b' (emitted ++ bs) := by
  induction h generalizing emitted with
  | refl b => rwa [List.append_nil]
  | step hfirst _ ih =>
      rw [← List.append_assoc]
      exact ih (hmove hb hfirst)

theorem flush_moves (b : Buffer) : Moves b [] b.flush := by
  cases hfail : b.failure with
  | some e =>
      have hflush : b.flush = b := by simp [flush, hfail]
      rw [hflush]
      exact .refl b
  | none =>
      rcases Nat.eq_zero_or_pos b.used with hused | hused
      · have hflush : b.flush = b := by simp [flush, hused]
        rw [hflush]
        exact .refl b
      · exact (Move.flush hfail hused).moves

/-- There are rounds enough unless the output stalls. -/
theorem direct_moves (rounds : Nat) (bs : Bytes) (hnone : b.failure = none) (hused : b.used = 0)
    (hrounds : bs.length ≤ rounds ∨ b.output.sink.Stalls) :
    Moves b bs (b.direct rounds bs bs.length) := by
  -- a round that stores a byte leaves a block for which one round less is enough
  induction rounds generalizing b bs with
  | zero =>
      rw [direct]
      split
      · exact (Move.hold bs hnone).moves
      · rename_i hlong
        rcases hrounds with hzero | hstalls
        · omega
        · exact (Move.stall bs hnone hstalls).moves
  | succ rounds ih =>
      rw [direct]
      split
      · exact (Move.hold bs hnone).moves
      · rename_i hlong
        have hpos : 0 < bs.length := by omega
        cases hoffer : b.output.offer bs bs.length with
        | mk answer output =>
            rcases answer with ⟨stored, failure⟩
            cases failure with
            | some e => exact (Move.refuse hnone hused hpos hoffer).moves
            | none =>
                have hsink : output.sink = b.output.sink := by
                  rw [← b.output.sink_offer bs bs.length, hoffer]
                have hanswer : b.output.sink.take b.output.size bs.length = (stored, none) :=
                  congrArg Prod.fst hoffer
                have hrest : (bs.drop stored).length ≤ rounds ∨ output.sink.Stalls := by
                  rw [List.length_drop, hsink]
                  rcases Nat.eq_zero_or_pos stored with rfl | hstored
                  · exact Or.inr ⟨_, _, hpos, hanswer⟩
                  · rcases hrounds with hle | hstalls
                    · exact Or.inl (by omega)
                    · exact Or.inr hstalls
                have hmoves := ih (b := { b with output }) (bs.drop stored) hnone hused hrest
                rw [List.length_drop] at hmoves
                have hall := Moves.step (.store hnone hused hpos hoffer) hmoves
                rwa [List.take_append_drop] at hall

theorem put_moves (b : Buffer) (byte : UInt8) : Moves b [byte] (b.put byte) := by
  have hroom : Moves b [] (if b.capacity ≤ b.used then b.flush else b) := by
    split
    · exact b.flush_moves
    · exact .refl b
  rw [Buffer.put]
  generalize (if b.capacity ≤ b.used then b.flush else b) = b' at hroom ⊢
  refine hroom.trans (Move.moves ?_)
  cases hfail : b'.failure with
  | some e => exact .ignore [byte] hfail
  | none => exact .hold [byte] hfail

theorem write_moves (b : Buffer) (bs : Bytes) : Moves b bs (b.write bs) := by
  rw [Buffer.write]
  cases hfail : b.failure with
  | some e => exact (Move.ignore bs hfail).moves
  | none =>
      simp only [Option.isSome_none, Bool.false_eq_true, if_false]
      split
      · exact (Move.hold bs hfail).moves
      · split
        · rename_i hempty
          exact direct_moves bs.length bs hfail (beq_iff_eq.1 hempty) (Or.inl (Nat.le_refl _))
        · -- the front of the block fills the buffer, which is then flushed
          rename_i hlong _
          have hfree : (bs.take (b.capacity - b.used)).length = b.capacity - b.used := by
            rw [List.length_take]
            omega
          have hhold := (Move.hold (bs.take (b.capacity - b.used)) hfail).moves
          rw [hfree] at hhold
          have hfront := hhold.trans (flush_moves _)
          have hflushed := (b.hold (bs.take (b.capacity - b.used)) (b.capacity - b.used)).flushed
          generalize (b.hold (bs.take (b.capacity - b.used)) (b.capacity - b.used)).flush = b'
            at hfront hflushed ⊢
          rw [List.append_nil] at hfront
          have hrest : Moves b' (bs.drop (b.capacity - b.used))
              (if b'.failure.isSome then b'
                else b'.direct bs.length (bs.drop (b.capacity - b.used))
                  (bs.length - (b.capacity - b.used))) := by
            cases hfail' : b'.failure with
            | some e => exact (Move.ignore _ hfail').moves
            | none =>
                rw [← List.length_drop]
                refine direct_moves bs.length _ hfail' (hflushed.of_failure_eq_none hfail').2
                  (Or.inl ?_)
                rw [List.length_drop]
                omega
          have hall := hfront.trans hrest
          rwa [List.take_append_drop] at hall

/-- A write is a series of moves. -/
theorem step_moves (b : Buffer) (w : Write) : Moves b w.bytes (b.step w) := by
  cases w with
  | byte byte => exact b.put_moves byte
  | block bs => exact b.write_moves bs

/-- So is a series of writes. -/
theorem emit_moves (b : Buffer) (writes : List Write) :
    Moves b (writes.flatMap Write.bytes) (b.emit writes) := by
  induction writes generalizing b with
  | nil => exact .refl b
  | cons w writes ih =>
      rw [List.flatMap_cons]
      exact (b.step_moves w).trans (ih (b.step w))

/-! ## The invariant is kept -/

theorem Carries.held_eq_nil (h : b.Carries sink emitted) (hused : b.used = 0) : b.held = [] := by
  rw [← List.length_eq_zero_iff, ← h.used_eq, hused]

theorem Carries.move {bs : Bytes} (h : b.Carries sink emitted) (hmove : Move b bs b') :
    b'.Carries sink (emitted ++ bs) := by
  cases hmove with
  | ignore bs hfail => exact h.of_failed hfail bs
  | hold bs hnone => exact h.hold hnone bs
  | flush hnone _ =>
      rw [List.append_nil]
      exact h.flush
  | @store bs stored output hnone hused _ hoffer =>
      have hstored := h.offer hnone (h.held_eq_nil hused) bs
      rwa [hoffer] at hstored
  | @refuse bs stored e output hnone hused _ hoffer =>
      -- the block is the part that is stored and the part that is lost
      have hstored := h.offer hnone (h.held_eq_nil hused) bs
      rw [hoffer] at hstored
      have hlost := hstored.fail e (bs.drop stored)
      rwa [List.append_assoc, List.take_append_drop] at hlost
  | stall bs _ _ => exact h.fail shortWrite bs

theorem Carries.step (h : b.Carries sink emitted) (w : Write) :
    (b.step w).Carries sink (emitted ++ w.bytes) :=
  (b.step_moves w).preserves (P := (Carries · sink)) Carries.move h

/-- A series of writes: what is handed over grows by the bytes of each of them. -/
theorem Carries.emit (h : b.Carries sink emitted) (writes : List Write) :
    (b.emit writes).Carries sink (emitted ++ writes.flatMap Write.bytes) :=
  (b.emit_moves writes).preserves (P := (Carries · sink)) Carries.move h

/-! ## Outputs that take everything -/

theorem Carries.offer_eq (h : b.Carries sink emitted) (hall : sink.TakesAll) (bs : Bytes)
    (n : Nat) : (b.output.offer bs n).1 = (n, none) := by
  rw [← hall.take_eq b.output.size n, ← h.sink_eq]
  rfl

theorem Carries.failure_flush (h : b.Carries sink emitted) (hall : sink.TakesAll)
    (hnone : b.failure = none) : b.flush.failure = none := by
  have hanswer := h.offer_eq hall b.held.reverse b.used
  have hflushed := b.flushed
  generalize b.flush = b' at hflushed ⊢
  cases hflushed with
  | failed hfail =>
      rw [hnone] at hfail
      cases hfail
  | idle _ _ => exact hnone
  | whole _ _ => exact hnone
  | short _ hoffer hpart =>
      rw [hoffer] at hanswer
      cases hanswer
      exact absurd rfl (hpart rfl)

theorem Carries.failure_move {bs : Bytes} (h : b.Carries sink emitted) (hall : sink.TakesAll)
    (hnone : b.failure = none) (hmove : Move b bs b') : b'.failure = none := by
  cases hmove with
  | ignore bs hfail =>
      rw [hnone] at hfail
      cases hfail
  | hold bs _ => exact hnone
  | flush _ _ => exact h.failure_flush hall hnone
  | store _ _ _ _ => exact hnone
  | @refuse bs _ _ _ _ _ _ hoffer =>
      have hanswer := h.offer_eq hall bs bs.length
      rw [hoffer] at hanswer
      cases hanswer
  | stall bs _ hstalls =>
      rw [h.sink_eq] at hstalls
      exact absurd hstalls (Sink.not_stalls hall.atOnce_eq)

/-- An output that takes everything never makes a buffer fail. -/
theorem Carries.failure_emit (h : b.Carries sink emitted) (hall : sink.TakesAll)
    (hnone : b.failure = none) (writes : List Write) : (b.emit writes).failure = none :=
  ((b.emit_moves writes).preserves (P := fun b emitted => b.Carries sink emitted ∧ b.failure = none)
    (fun hb hmove => ⟨hb.1.move hmove, hb.1.failure_move hall hb.2 hmove⟩) ⟨h, hnone⟩).2

end Buffer

end RoundTrip.Run
