import RoundTrip.Proofs.Run.Buffering
import RoundTrip.Run.Harness

/-!
# How a run ends

A run ends at the first of its steps that fails, or is complete. `Ending` lists the ways in which
it can end, each with its condition and with everything that the report then says; `WriteEnding`
does so for the part of a run that has an output. `process_ending` says that there is no other way,
so a fact about all runs is a case distinction over the endings.
-/

set_option autoImplicit false

namespace RoundTrip.Run

/-! ## Runs with an output -/

/-- The buffer before an output to which an emission has been handed. -/
def filled (o : Options) (sink : Sink) (emission : Emission) : Buffer :=
  (Buffer.new o.bufferCapacity sink).emit emission.writes

/-- A filled buffer accounts for the bytes of the emission. -/
theorem filled_carries (o : Options) (sink : Sink) (emission : Emission) :
    (filled o sink emission).Carries sink emission.bytes :=
  (Buffer.carries_new o.bufferCapacity sink).emit emission.writes

/-- The ways in which writing an emission to a created output ends. The output is closed in all of
them. -/
inductive WriteEnding (o : Options) (path : String) (sink : Sink) (refused : Failure → Failure)
    (emission : Emission) : Report → Prop
  | unencoded {e : Failure} :
      emission.failure.or ((filled o sink emission).failure.map refused) = some e →
      WriteEnding o path sink refused emission
        ⟨some (.atSite (encodeSite path) e),
          [reached .outputCreated [], failed (encodeSite path) e],
          (filled o sink emission).output.calls ++ [.close path],
          some (path, (filled o sink emission).output.contents)⟩
  | unflushed {e : Failure} :
      emission.failure = none → (filled o sink emission).failure = none →
      (filled o sink emission).flush.failure = some e →
      WriteEnding o path sink refused emission
        ⟨some (.atSite (flushSite path) e),
          [reached .outputCreated [], reached .encoded [], failed (flushSite path) e],
          (filled o sink emission).flush.output.calls ++ [.close path],
          some (path, (filled o sink emission).flush.output.contents)⟩
  | unsettled {calls : List Call} {e : Failure} :
      emission.failure = none → (filled o sink emission).flush.failure = none →
      settle sink = (calls, some e) →
      WriteEnding o path sink refused emission
        ⟨some (.atSite (flushSite path) e),
          [reached .outputCreated [], reached .encoded [], failed (flushSite path) e],
          (filled o sink emission).flush.output.calls ++ calls ++ [.close path],
          some (path, emission.bytes)⟩
  | unclosed {calls : List Call} {e : Failure} :
      emission.failure = none → (filled o sink emission).flush.failure = none →
      settle sink = (calls, none) → sink.closeFailure = some e →
      WriteEnding o path sink refused emission
        ⟨some (.atSite (closeSite path) e),
          [reached .outputCreated [], reached .encoded [],
            reached .flushed [("bytes", .integer emission.bytes.length)],
            failed (closeSite path) e],
          (filled o sink emission).flush.output.calls ++ calls ++ [.close path],
          some (path, emission.bytes)⟩
  | complete {calls : List Call} :
      emission.failure = none → (filled o sink emission).flush.failure = none →
      settle sink = (calls, none) → sink.closeFailure = none →
      WriteEnding o path sink refused emission
        ⟨none,
          [reached .outputCreated [], reached .encoded [],
            reached .flushed [("bytes", .integer emission.bytes.length)], reached .done []],
          (filled o sink emission).flush.output.calls ++ calls ++ [.close path],
          some (path, emission.bytes)⟩

/-- Nothing follows a flush that fails. -/
theorem conclude_of_unflushed {path : String} {b : Buffer} {e : Failure}
    (h : b.flush.failure = some e) :
    conclude path b
      = ((Report.stop (flushSite path) e).after .encoded [], b.flush.output) := by
  simp only [conclude, h]

theorem conclude_of_unsettled {path : String} {b : Buffer} {calls : List Call} {e : Failure}
    (h : b.flush.failure = none) (hsettle : settle b.flush.output.sink = (calls, some e)) :
    conclude path b
      = (((Report.stop (flushSite path) e).called calls).after .encoded [], b.flush.output) := by
  simp only [conclude, h, hsettle]

/-- An output that is flushed and settled is closed. -/
theorem conclude_of_settled {path : String} {b : Buffer} {calls : List Call}
    (h : b.flush.failure = none) (hsettle : settle b.flush.output.sink = (calls, none)) :
    conclude path b
      = ((((finish path b.flush.output.sink).after .flushed
          [("bytes", .integer b.flush.output.size)]).called calls).after .encoded [],
        b.flush.output) := by
  simp only [conclude, h, hsettle]

/-- An emission that cannot be encoded is left in the output as far as it has come. -/
theorem writeOutput_of_unencoded {o : Options} {path : String} {sink : Sink}
    {refused : Failure → Failure} {emission : Emission} {e : Failure}
    (h : emission.failure.or ((filled o sink emission).failure.map refused) = some e) :
    writeOutput o path sink refused emission =
      { ((Report.stop (encodeSite path) e).after .outputCreated []) with
        calls := (filled o sink emission).output.calls ++ [.close path]
        stored := some (path, (filled o sink emission).output.contents) } := by
  have hcalls : (Report.stop (encodeSite path) e).calls = [] := rfl
  unfold filled at h ⊢
  simp only [writeOutput, h, hcalls, List.append_nil]

theorem writeOutput_of_encoded {o : Options} {path : String} {sink : Sink}
    {refused : Failure → Failure} {emission : Emission}
    (h : emission.failure.or ((filled o sink emission).failure.map refused) = none) :
    writeOutput o path sink refused emission =
      let concluded := conclude path (filled o sink emission)
      { (concluded.1.after .outputCreated []) with
        calls := concluded.2.calls ++ concluded.1.calls ++ [.close path]
        stored := some (path, concluded.2.contents) } := by
  unfold filled at h ⊢
  simp only [writeOutput, h]

theorem writeOutput_ending (o : Options) (path : String) (sink : Sink)
    (refused : Failure → Failure) (emission : Emission) :
    WriteEnding o path sink refused emission (writeOutput o path sink refused emission) := by
  have hcarries := filled_carries o sink emission
  cases hencode : emission.failure.or ((filled o sink emission).failure.map refused) with
  | some e =>
      have hending : WriteEnding o path sink refused emission _ := .unencoded hencode
      rw [writeOutput_of_unencoded hencode]
      simpa [Report.after, Report.logged, Report.stop] using hending
  | none =>
      obtain ⟨hemission, hfilled⟩ : emission.failure = none
          ∧ (filled o sink emission).failure = none := by
        simpa using hencode
      rw [writeOutput_of_encoded hencode]
      dsimp only
      cases hflush : (filled o sink emission).flush.failure with
      | some e =>
          have hending : WriteEnding o path sink refused emission _ :=
            .unflushed hemission hfilled hflush
          rw [conclude_of_unflushed hflush]
          simpa [Report.after, Report.logged, Report.stop] using hending
      | none =>
          -- from here on the output holds the whole emission
          have hstored := hcarries.stored_of_flush hflush
          have hsize := hcarries.flush.size_eq
          rw [hstored] at hsize
          have hsink := hcarries.flush.sink_eq
          cases hsettle : settle sink with
          | mk calls failure =>
              rw [← hsink] at hsettle
              cases failure with
              | some e =>
                  rw [conclude_of_unsettled hflush hsettle, hstored]
                  rw [hsink] at hsettle
                  have hending : WriteEnding o path sink refused emission _ :=
                    .unsettled hemission hflush hsettle
                  simpa [Report.after, Report.logged, Report.called, Report.stop] using hending
              | none =>
                  rw [conclude_of_settled hflush hsettle, hsize, hstored, hsink, finish]
                  rw [hsink] at hsettle
                  cases hclose : sink.closeFailure with
                  | some e =>
                      have hending : WriteEnding o path sink refused emission _ :=
                        .unclosed hemission hflush hsettle hclose
                      simpa [Report.after, Report.logged, Report.called, Report.stop]
                        using hending
                  | none =>
                      have hending : WriteEnding o path sink refused emission _ :=
                        .complete hemission hflush hsettle hclose
                      simpa [Report.after, Report.logged, Report.called, Report.complete]
                        using hending

/-! ## Runs with both paths -/

/-- The input can be opened and read, and `bs` is all of it. -/
def Reads (storage : Storage) (path : String) (bs : Bytes) : Prop :=
  ∃ source, storage.openInput path = .ok source ∧ source.read = .ok bs

/-- There is one thing that can be read at a path. -/
theorem Reads.unique {storage : Storage} {path : String} {bs bs' : Bytes}
    (h : Reads storage path bs) (h' : Reads storage path bs') : bs = bs' := by
  obtain ⟨source, hopen, hread⟩ := h
  obtain ⟨source', hopen', hread'⟩ := h'
  rw [hopen] at hopen'
  cases hopen'
  rw [hread] at hread'
  cases hread'
  rfl

/-- The ways in which a run ends whose arguments are in order. -/
inductive Ending {α : Type} (codec : Codec α) (o : Options) (storage : Storage) (a : Arguments) :
    Report → Prop
  | unopened {e : Failure} :
      storage.openInput a.input = .error e →
      Ending codec o storage a
        ⟨some (.atSite (openSite a.input) e), [failed (openSite a.input) e],
          [.openInput a.input], none⟩
  | unread {source : Source} {e : Failure} :
      storage.openInput a.input = .ok source → source.read = .error e →
      Ending codec o storage a
        ⟨some (.atSite (readSite a.input) e),
          [reached .inputOpened [], failed (readSite a.input) e],
          [.openInput a.input, .close a.input], none⟩
  | undecoded {bs : Bytes} {e : Failure} :
      Reads storage a.input bs → codec.decode bs = .error e →
      Ending codec o storage a
        ⟨some (.atSite (decodeSite a.input) e),
          [reached .inputOpened [], reached .inputRead [("bytes", .integer bs.length)],
            failed (decodeSite a.input) e],
          [.openInput a.input, .close a.input], none⟩
  | uncreated {bs : Bytes} {value : α} {e : Failure} :
      Reads storage a.input bs → codec.decode bs = .ok value → storage.create a.output = .error e →
      Ending codec o storage a
        ⟨some (.atSite (createSite a.output) e),
          [reached .inputOpened [], reached .inputRead [("bytes", .integer bs.length)],
            reached .decoded [], failed (createSite a.output) e],
          [.openInput a.input, .close a.input, .create a.output o.outputPermission], none⟩
  | written {bs : Bytes} {value : α} {sink : Sink} {r : Report} :
      Reads storage a.input bs → codec.decode bs = .ok value → storage.create a.output = .ok sink →
      WriteEnding o a.output sink codec.refused (codec.encode value) r →
      Ending codec o storage a
        ⟨r.failure,
          [reached .inputOpened [], reached .inputRead [("bytes", .integer bs.length)],
            reached .decoded []] ++ r.entries,
          [.openInput a.input, .close a.input, .create a.output o.outputPermission] ++ r.calls,
          r.stored⟩

/-- **Every run ends in one of the listed ways.** -/
theorem process_ending {α : Type} (codec : Codec α) (o : Options) (storage : Storage)
    (a : Arguments) : Ending codec o storage a (process codec o storage a) := by
  rw [process]
  cases hopen : storage.openInput a.input with
  | error e => exact .unopened hopen
  | ok source =>
      dsimp only
      cases hread : source.read with
      | error e => exact .unread hopen hread
      | ok bs =>
          have hreads : Reads storage a.input bs := ⟨source, hopen, hread⟩
          dsimp only
          rw [convert]
          cases hdecode : codec.decode bs with
          | error e => exact .undecoded hreads hdecode
          | ok value =>
              dsimp only
              rw [createOutput]
              cases hcreate : storage.create a.output with
              | error e => exact .uncreated hreads hdecode hcreate
              | ok sink =>
                  exact .written hreads hdecode hcreate
                    (writeOutput_ending o a.output sink codec.refused (codec.encode value))

/-- A run that reads and decodes its input and creates its output writes to it. -/
theorem process_written {α : Type} {codec : Codec α} {o : Options} {storage : Storage}
    {a : Arguments} {bs : Bytes} {value : α} {sink : Sink} (hreads : Reads storage a.input bs)
    (hdecode : codec.decode bs = .ok value) (hcreate : storage.create a.output = .ok sink) :
    ∃ r, WriteEnding o a.output sink codec.refused (codec.encode value) r
      ∧ process codec o storage a =
        ⟨r.failure,
          [reached .inputOpened [], reached .inputRead [("bytes", .integer bs.length)],
            reached .decoded []] ++ r.entries,
          [.openInput a.input, .close a.input, .create a.output o.outputPermission] ++ r.calls,
          r.stored⟩ := by
  obtain ⟨source, hopen, hread⟩ := hreads
  refine ⟨_, writeOutput_ending o a.output sink codec.refused (codec.encode value), ?_⟩
  simp only [process, hopen, hread, convert, hdecode, createOutput, hcreate]
  rfl

end RoundTrip.Run
