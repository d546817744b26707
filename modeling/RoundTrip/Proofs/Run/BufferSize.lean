import RoundTrip.Proofs.Run.Calls
import RoundTrip.Proofs.Run.Refusal

/-!
# The size of the buffer

The size of the buffer decides how an emission is cut into writes, and nothing else about the
result. An output with room for all of it holds the emission after a run that succeeds. A smaller
one is filled up, whichever write meets its end (`Buffer.Fills`), and the run fails.

Main statement: `run_bufferSize_unobservable`.
-/

set_option autoImplicit false

namespace RoundTrip.Run

open RoundTrip.Store

/-! ## Outputs with limited room -/

/-- An output with limited room, or with room for everything. Nothing but a write can fail. -/
def Sink.limited (room : Option (Nat × Failure)) (regular : Bool) : Sink :=
  { ideal with capacity := room, regular }

namespace Output

/-- An offer never stores more than there is room for. -/
theorem holds_offer {o : Output} (hcut : o.sink.atOnce = none) (hholds : o.sink.Holds o.size)
    (bs : Bytes) (n : Nat) : o.sink.Holds (o.offer bs n).2.size := by
  rw [size_offer]
  change o.sink.Holds (o.size + (o.sink.take o.size n).1)
  rcases Sink.take_cases hcut o.size n with ⟨hwhole, hroom⟩ | ⟨limit, e, hcapacity, hlt, hfull⟩
  · rw [hwhole]
    exact hroom
  · have hle := hholds limit e hcapacity
    rw [hfull]
    intro limit' e' hcapacity'
    rw [hcapacity] at hcapacity'
    cases hcapacity'
    dsimp only
    omega

/-- An offer that is not stored as a whole fills the output up and fails. -/
theorem full_of_offer {o output : Output} {bs : Bytes} {n stored : Nat} {failure : Option Failure}
    (hcut : o.sink.atOnce = none) (hholds : o.sink.Holds o.size)
    (hoffer : o.offer bs n = ((stored, failure), output)) (hpart : failure = none → stored ≠ n) :
    ∃ e, failure = some e ∧ o.sink.capacity = some (output.size, e)
      ∧ output.size < o.size + n := by
  have hanswer : o.sink.take o.size n = (stored, failure) := congrArg Prod.fst hoffer
  have hsize : output.size = o.size + stored := by
    have hcount := o.size_offer bs n
    rwa [hoffer] at hcount
  rcases Sink.take_cases hcut o.size n with ⟨hwhole, -⟩ | ⟨limit, e, hcapacity, hlt, hfull⟩
  · rw [hanswer] at hwhole
    cases hwhole
    exact absurd rfl (hpart rfl)
  · have hle := hholds limit e hcapacity
    rw [hanswer] at hfull
    cases hfull
    have hlimit : output.size = limit := by omega
    exact ⟨e, rfl, hlimit ▸ hcapacity, by omega⟩

/-- Every block that was offered was not empty and is stored as a whole. -/
structure Whole (o : Output) : Prop where
  offers_eq : o.offers = o.blocks.map List.length
  ne_nil : ∀ block ∈ o.blocks, block ≠ []

theorem Whole.offer {o : Output} (h : o.Whole) (hall : o.sink.TakesAll) {block : Bytes}
    (hblock : block ≠ []) : (o.offer block block.length).2.Whole := by
  have hblocks : (o.offer block block.length).2.blocks = block :: o.blocks := by
    simp [Output.offer, hall.take_eq]
  refine ⟨?_, ?_⟩
  · rw [hblocks, List.map_cons, ← h.offers_eq]
    rfl
  · rw [hblocks]
    exact List.forall_mem_cons.2 ⟨hblock, h.ne_nil⟩

end Output

/-! ## Moves with limited room -/

namespace Buffer

variable {b b' : Buffer} {sink : Sink} {emitted bs : Bytes}

/-- In one move at most one block is offered, and it is not empty. -/
theorem Carries.output_move (h : b.Carries sink emitted) (hmove : Move b bs b') :
    b'.output = b.output
      ∨ ∃ block, block ≠ [] ∧ b'.output = (b.output.offer block block.length).2 := by
  cases hmove with
  | ignore _ _ => exact Or.inl rfl
  | hold _ _ => exact Or.inl rfl
  | flush hnone hpos =>
      have hheld : b.held.reverse.length = b.used := by rw [List.length_reverse, h.used_eq]
      have hblock : b.held.reverse ≠ [] := by
        rw [← List.length_pos_iff, hheld]
        exact hpos
      refine Or.inr ⟨b.held.reverse, hblock, ?_⟩
      rw [hheld]
      rcases flush_cases hnone hpos with ⟨output, hoffer, hflush⟩ | ⟨_, _, output, hoffer, -, hflush⟩
      · rw [hflush, hoffer]
      · rw [hflush, hoffer]
  | store _ _ hpos hoffer => exact Or.inr ⟨_, List.length_pos_iff.1 hpos, by rw [hoffer]⟩
  | refuse _ _ hpos hoffer => exact Or.inr ⟨_, List.length_pos_iff.1 hpos, by rw [hoffer]⟩
  | stall _ _ _ => exact Or.inl rfl

/-- As long as nothing has failed, the two counters give the number of bytes handed over. -/
theorem Carries.length_eq (h : b.Carries sink emitted) (hnone : b.failure = none) :
    emitted.length = b.output.size + b.used := by
  rw [← h.accepted_eq hnone, accepted, List.length_append, List.length_reverse, ← h.used_eq,
    ← h.size_eq]

/-- A buffer before an output with limited room: the output is not overfilled, and it is full once
the buffer has failed, which happens only when more has been handed over than there is room for. -/
structure Fills (b : Buffer) (sink : Sink) (emitted : Bytes) : Prop
    extends b.Carries sink emitted where
  holds : sink.Holds b.output.size
  full : ∀ e, b.failure = some e →
    sink.capacity = some (b.output.size, e) ∧ b.output.size < emitted.length

theorem Fills.move (hcut : sink.atOnce = none) (h : b.Fills sink emitted)
    (hmove : Move b bs b') : b'.Fills sink (emitted ++ bs) := by
  have hcarries := h.toCarries.move hmove
  have hcut' : b.output.sink.atOnce = none := h.sink_eq ▸ hcut
  have hholds' : b.output.sink.Holds b.output.size := h.sink_eq ▸ h.holds
  have hholds : sink.Holds b'.output.size := by
    rcases h.toCarries.output_move hmove with hsame | ⟨block, -, hoffer⟩
    · rw [hsame]
      exact h.holds
    · have hroom := Output.holds_offer hcut' hholds' block block.length
      rw [hoffer, ← h.sink_eq]
      exact hroom
  refine ⟨hcarries, hholds, ?_⟩
  -- a move makes the buffer fail only if its block is not stored as a whole
  intro e hfail
  cases hmove with
  | ignore bs _ =>
      obtain ⟨hcapacity, hlt⟩ := h.full e hfail
      refine ⟨hcapacity, ?_⟩
      rw [List.length_append]
      omega
  | hold bs hnone =>
      change b.failure = some e at hfail
      rw [hnone] at hfail
      cases hfail
  | flush hnone hpos =>
      -- what is held back has been handed over before, so the counters give the bound
      have hlength := h.toCarries.length_eq hnone
      rw [List.append_nil]
      rcases flush_cases hnone hpos with ⟨output, -, hflush⟩ | ⟨_, _, output, hoffer, hpart, hflush⟩
      · rw [hflush] at hfail
        change b.failure = some e at hfail
        rw [hnone] at hfail
        cases hfail
      · obtain ⟨e', rfl, hcapacity, hlt⟩ := Output.full_of_offer hcut' hholds' hoffer hpart
        rw [hflush] at hfail ⊢
        cases hfail
        exact ⟨h.sink_eq ▸ hcapacity, hlength ▸ hlt⟩
  | store hnone _ _ _ =>
      change b.failure = some e at hfail
      rw [hnone] at hfail
      cases hfail
  | @refuse bs _ e' _ hnone hused _ hoffer =>
      have hlength := h.toCarries.length_eq hnone
      obtain ⟨e'', hsome, hcapacity, hlt⟩ := Output.full_of_offer hcut' hholds' hoffer nofun
      cases hsome
      cases hfail
      refine ⟨h.sink_eq ▸ hcapacity, ?_⟩
      rw [List.length_append]
      dsimp only
      omega
  | stall bs _ hstalls => exact absurd (h.sink_eq ▸ hstalls) (Sink.not_stalls hcut)

theorem fills_new (capacity : Nat) (sink : Sink) : (new capacity sink).Fills sink [] :=
  ⟨carries_new capacity sink, fun _ _ _ => Nat.zero_le _, nofun⟩

/-- An output that takes everything has been offered blocks that are not empty, and stores them. -/
theorem Carries.whole_move (h : b.Carries sink emitted) (hall : sink.TakesAll)
    (hwhole : b.output.Whole) (hmove : Move b bs b') : b'.output.Whole := by
  rcases h.output_move hmove with hsame | ⟨block, hblock, hoffer⟩
  · rw [hsame]
    exact hwhole
  · rw [hoffer]
    exact hwhole.offer (h.sink_eq ▸ hall) hblock

end Buffer

/-! ## Emissions with limited room -/

theorem filled_moves (o : Options) (sink : Sink) (emission : Emission) :
    Buffer.Moves (.new o.bufferCapacity sink) emission.bytes (filled o sink emission).flush := by
  have hmoves := ((Buffer.new o.bufferCapacity sink).emit_moves emission.writes).trans
    (Buffer.flush_moves _)
  rwa [List.append_nil] at hmoves

/-- The output holds the whole emission if there is room for it, and is filled up otherwise. -/
theorem filled_stored (o : Options) (sink : Sink) (hcut : sink.atOnce = none)
    (emission : Emission) :
    ((filled o sink emission).flush.failure = none
      ∧ (filled o sink emission).flush.output.contents = emission.bytes
      ∧ sink.Holds emission.bytes.length)
    ∨ ∃ n e, (filled o sink emission).flush.failure = some e ∧ sink.capacity = some (n, e)
      ∧ n < emission.bytes.length
      ∧ (filled o sink emission).flush.output.contents = emission.bytes.take n := by
  have hfills := (filled_moves o sink emission).preserves (P := (Buffer.Fills · sink))
    (Buffer.Fills.move hcut) (Buffer.fills_new o.bufferCapacity sink)
  rw [List.nil_append] at hfills
  cases hfail : (filled o sink emission).flush.failure with
  | none =>
      have hstored := (filled_carries o sink emission).stored_of_flush hfail
      have hholds := hfills.holds
      rw [hfills.size_eq, hstored] at hholds
      exact Or.inl ⟨rfl, hstored, hholds⟩
  | some e =>
      obtain ⟨hcapacity, hlt⟩ := hfills.full e hfail
      refine Or.inr ⟨_, e, rfl, hcapacity, hlt, ?_⟩
      rw [hfills.size_eq]
      exact List.prefix_iff_eq_take.1 hfills.contents_prefix

/-- The blocks that the writes of an emission have stored, in order. -/
def chunks (o : Options) (sink : Sink) (emission : Emission) : List Bytes :=
  (filled o sink emission).flush.output.blocks.reverse

/-- Without faults the chunks are not empty and make up the emission, and each of them has been one
write. -/
theorem chunks_of_takesAll (o : Options) {sink : Sink} (hall : sink.TakesAll)
    (emission : Emission) :
    (∀ chunk ∈ chunks o sink emission, chunk ≠ [])
      ∧ (chunks o sink emission).flatten = emission.bytes
      ∧ (filled o sink emission).flush.output.calls
        = (chunks o sink emission).map fun chunk => .write chunk.length := by
  have hwhole := (filled_moves o sink emission).preserves
    (P := fun b emitted => b.Carries sink emitted ∧ b.output.Whole)
    (fun hb hmove => ⟨hb.1.move hmove, hb.1.whole_move hall hb.2 hmove⟩)
    ⟨Buffer.carries_new o.bufferCapacity sink, ⟨rfl, nofun⟩⟩
  have hfailure : (filled o sink emission).failure = none :=
    (Buffer.carries_new o.bufferCapacity sink).failure_emit hall rfl emission.writes
  have hflush := (filled_carries o sink emission).failure_flush hall hfailure
  refine ⟨?_, (filled_carries o sink emission).stored_of_flush hflush, ?_⟩
  · intro chunk hchunk
    exact hwhole.2.ne_nil chunk (List.mem_reverse.1 hchunk)
  · rw [Output.calls, hwhole.2.offers_eq, chunks, ← List.map_reverse, List.map_map]
    rfl

/-! ## Endings -/

/-- The call is a write. -/
def Call.isWrite : Call → Bool
  | write _ => true
  | _ => false

/-- The writes of a list of calls. -/
def writesOf (calls : List Call) : List Call := calls.filter Call.isWrite

/-- The calls other than writes. -/
def besideWrites (calls : List Call) : List Call := calls.filter fun call => !call.isWrite

theorem writesOf_calls (output : Output) : writesOf output.calls = output.calls := by
  rw [writesOf, List.filter_eq_self]
  intro call hcall
  obtain ⟨offered, -, rfl⟩ := List.mem_map.1 hcall
  rfl

theorem besideWrites_calls (output : Output) : besideWrites output.calls = [] := by
  rw [besideWrites, List.filter_eq_nil_iff]
  intro call hcall
  obtain ⟨offered, -, rfl⟩ := List.mem_map.1 hcall
  simp [Call.isWrite]

/-- No writes belong to the last look at an output. -/
theorem LastLook.besideWrites_eq {look : List Call} (h : LastLook look) :
    besideWrites look = look := by
  cases h <;> rfl

theorem writesOf_eq_nil {calls : List Call} (h : besideWrites calls = calls) :
    writesOf calls = [] := by
  rw [besideWrites, List.filter_eq_self] at h
  rw [writesOf, List.filter_eq_nil_iff]
  intro call hcall
  simpa using h call hcall

/-- The writes to an output between other calls. -/
theorem calls_between (output : Output) (front back : List Call)
    (hfront : besideWrites front = front) (hback : besideWrites back = back) :
    writesOf (front ++ (output.calls ++ back)) = output.calls
      ∧ besideWrites (front ++ (output.calls ++ back)) = front ++ back := by
  have hwrites := writesOf_calls output
  have hbeside := besideWrites_calls output
  have hfront' := writesOf_eq_nil hfront
  have hback' := writesOf_eq_nil hback
  unfold writesOf at *
  unfold besideWrites at *
  constructor
  · rw [List.filter_append, List.filter_append, hfront', hwrites, hback', List.nil_append,
      List.append_nil]
  · rw [List.filter_append, List.filter_append, hfront, hbeside, hback, List.nil_append]

theorem limited_takesAll (regular : Bool) : (Sink.limited none regular).TakesAll := ⟨rfl, rfl⟩

/-- Writing to an output with limited room ends with the output as it is after the last flush, which
alone decides whether the run succeeds. -/
theorem WriteEnding.of_limited {o : Options} {path : String} {room : Option (Nat × Failure)}
    {regular : Bool} {refused : Failure → Failure} {emission : Emission} {r : Report}
    (h : WriteEnding o path (.limited room regular) refused emission r)
    (hemission : emission.failure = none) :
    let flushed := (filled o (.limited room regular) emission).flush
    r.stored = some (path, flushed.output.contents)
    ∧ (flushed.failure = none → r.failure = none
        ∧ r.calls = flushed.output.calls ++ (settle (.limited room regular)).1 ++ [.close path])
    ∧ (∀ e, flushed.failure = some e → exitStatus r.failure = 2
        ∧ r.calls = flushed.output.calls ++ [.close path]) := by
  intro flushed
  cases h with
  | unencoded hencode =>
      -- a buffer that has failed is left alone by the flush
      obtain ⟨e', hfilled, -⟩ : ∃ e', (filled o (.limited room regular) emission).failure = some e'
          ∧ refused e' = _ := by
        simpa [hemission] using hencode
      have hflush : flushed = filled o (.limited room regular) emission := by
        simp [flushed, Buffer.flush, hfilled]
      rw [hflush]
      refine ⟨rfl, fun hnone => ?_, fun e _ => ⟨rfl, rfl⟩⟩
      rw [hfilled] at hnone
      cases hnone
  | unflushed _ _ hflush =>
      refine ⟨rfl, fun hnone => ?_, fun e _ => ⟨rfl, rfl⟩⟩
      rw [hnone] at hflush
      cases hflush
  | unsettled _ _ hsettle => cases regular <;> cases hsettle
  | unclosed _ _ _ hclose => cases hclose
  | complete _ hflush hsettle _ =>
      have hstored := (filled_carries o (.limited room regular) emission).stored_of_flush hflush
      refine ⟨by rw [hstored], fun _ => ⟨rfl, by rw [hsettle]⟩, fun e hfail => ?_⟩
      rw [hflush] at hfail
      cases hfail

/-! ## Main statement -/

section Limited

variable {α : Type} {codec : Codec α} {files : Files} {args : List String} {a : Arguments}
  {bs : Bytes} {value : α}

/-- The calls of a run on its way to its output. -/
def approach (o : Options) (a : Arguments) : List Call :=
  [.openInput a.input, .close a.input, .create a.output o.outputPermission]

/-- A run before an output with limited room: whether there is room for the encoding decides
everything but the writes. -/
theorem run_limited (o : Options) (room : Option (Nat × Failure)) (regular : Bool)
    (hargs : Arguments.parse args = .ok a) (hin : files.get? a.input = some bs)
    (hdecode : codec.decode bs = .ok value) (hencode : (codec.encode value).failure = none) :
    let sink := Sink.limited room regular
    let report := run (some codec) o (files.storage { Faults.none with output := sink }) args
    let bytes := (codec.encode value).bytes
    writesOf report.calls = (filled o sink (codec.encode value)).flush.output.calls
    ∧ ((sink.Holds bytes.length ∧ report.failure = none ∧ report.stored = some (a.output, bytes)
        ∧ besideWrites report.calls = approach o a ++ (settle sink).1 ++ [.close a.output])
      ∨ ∃ n full, room = some (n, full) ∧ n < bytes.length ∧ exitStatus report.failure = 2
        ∧ report.stored = some (a.output, bytes.take n)
        ∧ besideWrites report.calls = approach o a ++ [.close a.output]) := by
  intro sink report bytes
  have hreads : Reads (files.storage { Faults.none with output := sink }) a.input bs :=
    reads_files_iff.2 ⟨rfl, hin, nofun⟩
  obtain ⟨r, hwrite, hprocess⟩ := process_written (o := o) hreads hdecode rfl
  have hfailure : report.failure = r.failure := (run_failure hargs).trans (by rw [hprocess])
  have hstored : report.stored = r.stored := (run_stored hargs).trans (by rw [hprocess])
  have hcalls : report.calls = approach o a ++ r.calls :=
    (run_calls hargs).trans (congrArg Report.calls hprocess)
  obtain ⟨hleft, hsuccess, hfull⟩ := hwrite.of_limited hencode
  rw [← hstored] at hleft
  -- the step that meets the end of the output depends on the buffer, the outcome does not
  rcases filled_stored o sink rfl (codec.encode value) with
    ⟨hnone, hcontents, hholds⟩ | ⟨n, full, hfail, hcapacity, hlt, hcontents⟩
  · obtain ⟨hnone', hcalls'⟩ := hsuccess hnone
    rw [hcontents] at hleft
    rw [hcalls', List.append_assoc] at hcalls
    have hback : besideWrites ((settle sink).1 ++ [.close a.output])
        = (settle sink).1 ++ [.close a.output] := by
      rw [besideWrites, List.filter_append]
      exact congrArg (· ++ [Call.close a.output]) (lastLook_settle sink).besideWrites_eq
    obtain ⟨hwrites, hbeside⟩ := calls_between
      (filled o sink (codec.encode value)).flush.output (approach o a) _ rfl hback
    rw [hcalls]
    exact ⟨hwrites, Or.inl ⟨hholds, hfailure.trans hnone', hleft, by
      rw [List.append_assoc]; exact hbeside⟩⟩
  · obtain ⟨hstatus, hcalls'⟩ := hfull full hfail
    rw [hcontents] at hleft
    rw [hcalls'] at hcalls
    obtain ⟨hwrites, hbeside⟩ := calls_between
      (filled o sink (codec.encode value)).flush.output (approach o a) [.close a.output] rfl rfl
    rw [hcalls, hfailure]
    exact ⟨hwrites, Or.inr ⟨n, full, hcapacity, hlt, hstatus, hleft, hbeside⟩⟩

/-- With room for the encoding the run succeeds. -/
theorem run_of_holds (o : Options) (room : Option (Nat × Failure)) (regular : Bool)
    (hargs : Arguments.parse args = .ok a) (hin : files.get? a.input = some bs)
    (hdecode : codec.decode bs = .ok value) (hencode : (codec.encode value).failure = none)
    (hholds : (Sink.limited room regular).Holds (codec.encode value).bytes.length) :
    let sink := Sink.limited room regular
    let report := run (some codec) o (files.storage { Faults.none with output := sink }) args
    report.failure = none ∧ report.stored = some (a.output, (codec.encode value).bytes)
      ∧ besideWrites report.calls = approach o a ++ (settle sink).1 ++ [.close a.output] := by
  rcases (run_limited o room regular hargs hin hdecode hencode).2 with
    ⟨-, hsuccess⟩ | ⟨n, full, hroom, hlt, -⟩
  · exact hsuccess
  · exact absurd (hholds n full hroom) (Nat.not_le.2 hlt)

/-- With less room the run fails before the last look, and leaves the output full. -/
theorem run_of_overfull (o : Options) (room : Option (Nat × Failure)) (regular : Bool)
    (hargs : Arguments.parse args = .ok a) (hin : files.get? a.input = some bs)
    (hdecode : codec.decode bs = .ok value) (hencode : (codec.encode value).failure = none)
    (n : Nat) (full : Failure) (hroom : room = some (n, full))
    (hlt : n < (codec.encode value).bytes.length) :
    let sink := Sink.limited room regular
    let report := run (some codec) o (files.storage { Faults.none with output := sink }) args
    exitStatus report.failure = 2
      ∧ report.stored = some (a.output, (codec.encode value).bytes.take n)
      ∧ besideWrites report.calls = approach o a ++ [.close a.output] := by
  rcases (run_limited o room regular hargs hin hdecode hencode).2 with
    ⟨hholds, -⟩ | ⟨n', full', hroom', -, hfull⟩
  · exact absurd (hholds n full hroom) (Nat.not_le.2 hlt)
  · rw [hroom] at hroom'
    cases hroom'
    exact hfull

/-- Runs that succeed log the same, whatever their options. -/
theorem run_entries_eq {o o' : Options} {storage : Storage} (hargs : Arguments.parse args = .ok a)
    (h : (run (some codec) o storage args).failure = none)
    (h' : (run (some codec) o' storage args).failure = none) :
    (run (some codec) o storage args).entries = (run (some codec) o' storage args).entries := by
  rw [run_failure hargs] at h h'
  obtain ⟨bs₁, value₁, hreads₁, hdecode₁, -, -, hentries₁⟩ :=
    (process_ending codec o storage a).of_failure_eq_none h
  obtain ⟨bs₂, value₂, hreads₂, hdecode₂, -, -, hentries₂⟩ :=
    (process_ending codec o' storage a).of_failure_eq_none h'
  obtain rfl := hreads₁.unique hreads₂
  rw [hdecode₁] at hdecode₂
  cases hdecode₂
  simp only [run_eq hargs, Report.logged, Report.after, hentries₁, hentries₂]

end Limited

/-- **The size of the buffer cannot be seen in the result.** A value is encoded without a failure of
its own, in any series of writes, to an output with room for `n` bytes or for everything. If there is
room for the encoding, every run succeeds and leaves it in the output; otherwise every run has status
2 and leaves its first `n` bytes. So two runs with different buffers agree in their status, in all
files and in all calls but the writes, and in their logs when they succeed. Without a limit the
chunks that are written are not empty and make up the encoding. -/
theorem run_bufferSize_unobservable {α : Type} (codec : Codec α) (files : Files) (program : String)
    {input output : String} (extra : List String) {bs : Bytes} {value : α} (permission : Nat)
    (room : Option (Nat × Failure)) (regular : Bool) (hinput : input ≠ "") (houtput : output ≠ "")
    (hin : files.get? input = some bs) (hdecode : codec.decode bs = .ok value)
    (hencode : (codec.encode value).failure = none) :
    let sink := Sink.limited room regular
    let report (size : Int) := run (some codec) ⟨permission, size⟩
      (files.storage { Faults.none with output := sink }) (program :: input :: output :: extra)
    let bytes := (codec.encode value).bytes
    (∀ size, (∀ n full, room = some (n, full) → bytes.length ≤ n) →
      exitStatus (report size).failure = 0
        ∧ files.after (report size) = files.insert output bytes)
    ∧ (∀ size n full, room = some (n, full) → n < bytes.length →
      exitStatus (report size).failure = 2
        ∧ files.after (report size) = files.insert output (bytes.take n))
    ∧ (∀ size size', exitStatus (report size).failure = exitStatus (report size').failure
        ∧ files.after (report size) = files.after (report size')
        ∧ besideWrites (report size).calls = besideWrites (report size').calls
        ∧ (exitStatus (report size).failure = 0 →
            (report size).entries = (report size').entries))
    ∧ (room = none → ∀ size,
        (∀ chunk ∈ chunks ⟨permission, size⟩ sink (codec.encode value), chunk ≠ [])
        ∧ (chunks ⟨permission, size⟩ sink (codec.encode value)).flatten = bytes
        ∧ writesOf (report size).calls
          = (chunks ⟨permission, size⟩ sink (codec.encode value)).map
              fun chunk => .write chunk.length) := by
  intro sink report bytes
  have hargs := Arguments.parse_paths program extra hinput houtput
  have hrun (size : Int) :=
    run_limited ⟨permission, size⟩ room regular hargs hin hdecode hencode
  have hwhole (size : Int) :=
    run_of_holds ⟨permission, size⟩ room regular hargs hin hdecode hencode
  have hpart (size : Int) :=
    run_of_overfull ⟨permission, size⟩ room regular hargs hin hdecode hencode
  refine ⟨?_, ?_, ?_, ?_⟩
  · intro size hholds
    obtain ⟨hnone, hstored, -⟩ := hwhole size hholds
    rw [hnone]
    exact ⟨rfl, Files.after_eq_insert hstored⟩
  · intro size n full hroom hlt
    obtain ⟨hstatus, hstored, -⟩ := hpart size n full hroom hlt
    exact ⟨hstatus, Files.after_eq_insert hstored⟩
  · intro size size'
    rcases (hrun size).2 with ⟨hholds, -⟩ | ⟨n, full, hroom, hlt, -⟩
    · obtain ⟨hnone, hstored, hcalls⟩ := hwhole size hholds
      obtain ⟨hnone', hstored', hcalls'⟩ := hwhole size' hholds
      refine ⟨by rw [hnone, hnone'], ?_, hcalls.trans hcalls'.symm, ?_⟩
      · rw [Files.after_eq_insert hstored, Files.after_eq_insert hstored']
      · exact fun _ => run_entries_eq hargs hnone hnone'
    · obtain ⟨hstatus, hstored, hcalls⟩ := hpart size n full hroom hlt
      obtain ⟨hstatus', hstored', hcalls'⟩ := hpart size' n full hroom hlt
      refine ⟨hstatus.trans hstatus'.symm, ?_, hcalls.trans hcalls'.symm, ?_⟩
      · rw [Files.after_eq_insert hstored, Files.after_eq_insert hstored']
      · rw [hstatus]
        exact nofun
  · rintro rfl size
    obtain ⟨hne, hflatten, hwrites⟩ := chunks_of_takesAll ⟨permission, size⟩
      (limited_takesAll regular) (codec.encode value)
    exact ⟨hne, hflatten, (hrun size).1.trans hwrites⟩

/-- One byte and a block of five bytes before an output with room for four bytes, with a buffer of
one byte and with the default one: the first run fails when it encodes and the second one when it
flushes, and both leave the same four bytes. -/
theorem run_bufferSize_unobservable_full :
    let codec : Codec Bytes := ⟨.ok, fun bs => ⟨[.byte 7, .block bs], none⟩, id⟩
    let files : Files := [("in", [1, 2, 3, 4, 5])]
    let report (size : Int) := run (some codec) ⟨0, size⟩
      (files.storage { Faults.none with output := .limited (some (4, .plain "full")) true })
      ["copy", "in", "out"]
    (report 1).failure = some (.atSite (encodeSite "out") (.plain "full"))
      ∧ (report (-3)).failure = some (.atSite (flushSite "out") (.plain "full"))
      ∧ exitStatus (report 1).failure = 2 ∧ exitStatus (report (-3)).failure = 2
      ∧ files.after (report 1) = files.insert "out" [7, 1, 2, 3]
      ∧ files.after (report (-3)) = files.after (report 1) := by
  intro codec files report
  obtain ⟨-, hpart, hsame, -⟩ := run_bufferSize_unobservable codec files "copy" [] 0
    (some (4, .plain "full")) true (by decide : "in" ≠ "") (by decide : "out" ≠ "") rfl rfl rfl
  obtain ⟨hstatus, hfiles⟩ := hpart 1 4 _ rfl (by decide)
  obtain ⟨hstatus', hfiles', -, -⟩ := hsame (-3) 1
  exact ⟨by decide, by decide, hstatus, hstatus'.trans hstatus, hfiles, hfiles'⟩

end RoundTrip.Run
