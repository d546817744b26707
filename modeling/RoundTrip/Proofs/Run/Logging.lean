import RoundTrip.Frame
import RoundTrip.Proofs.Run.Stages
import RoundTrip.Session

/-!
# Logging and the rest of a session

A program hands entries to its logger between all of its other steps, and both write to one error
stream. Nothing else depends on the logger: the session comes to the world that the report of its
run describes (`perform_run`), and a report knows no logger.

Main statement: `main_logging_unobservable`, for two runs with any two loggers.
-/

set_option autoImplicit false

namespace RoundTrip.Session

open RoundTrip.Run RoundTrip.Store

/-! ## What a logger writes -/

section Loggers

variable {σ : Type}

/-- What a logger writes about entries that it hears one after the other. -/
def Listener.written (l : Listener σ) : σ → List Log.Entry → String
  | _, [] => ""
  | memory, e :: entries => (l.hear memory e).2 ++ l.written (l.hear memory e).1 entries

/-- The world after several entries. -/
def World.heardAll (l : Listener σ) (w : World σ) (entries : List Log.Entry) : World σ :=
  entries.foldl (World.heard l) w

theorem World.heardAll_append (l : Listener σ) (w : World σ) (entries entries' : List Log.Entry) :
    w.heardAll l (entries ++ entries') = (w.heardAll l entries).heardAll l entries' :=
  List.foldl_append

/-- A logger sees neither files nor calls. -/
theorem World.heardAll_with (l : Listener σ) (w : World σ) (files : Files) (calls : List Call)
    (entries : List Log.Entry) :
    heardAll l { w with files, calls } entries = { w.heardAll l entries with files, calls } := by
  induction entries generalizing w with
  | nil => rfl
  | cons e entries ih => exact ih (w.heard l e)

/-- Entries change neither files nor calls, and what is written about them comes behind what was
there. -/
theorem World.heardAll_eq (l : Listener σ) (w : World σ) (entries : List Log.Entry) :
    (w.heardAll l entries).files = w.files ∧ (w.heardAll l entries).calls = w.calls
      ∧ (w.heardAll l entries).stream = w.stream ++ l.written w.memory entries := by
  induction entries generalizing w with
  | nil => exact ⟨rfl, rfl, (String.append_empty).symm⟩
  | cons e entries ih =>
      obtain ⟨hfiles, hcalls, hstream⟩ := ih (w.heard l e)
      refine ⟨hfiles, hcalls, hstream.trans ?_⟩
      rw [Listener.written, ← String.append_assoc]
      rfl

/-- A recording logger remembers what it hears. -/
theorem World.memory_heardAll_recording (w : World (List Log.Entry)) (entries : List Log.Entry) :
    (w.heardAll .recording entries).memory = w.memory ++ entries := by
  induction entries generalizing w with
  | nil => exact (List.append_nil _).symm
  | cons e entries ih =>
      calc ((w.heard .recording e).heardAll .recording entries).memory
        _ = (w.memory ++ [e]) ++ entries := ih (w.heard .recording e)
        _ = w.memory ++ e :: entries := List.append_assoc _ _ _

theorem written_deaf (entries : List Log.Entry) : Listener.deaf.written () entries = "" := by
  induction entries with
  | nil => rfl
  | cons e entries ih => exact ih

theorem written_writing (logger : Log.Logger) (entries : List Log.Entry) :
    (Listener.writing logger).written () entries = String.join (entries.map logger.write) := by
  induction entries with
  | nil => rfl
  | cons e entries ih =>
      rw [List.map_cons, String.join_cons, ← ih]
      rfl

end Loggers

/-! ## What a step changes

Calls, files and entries are parts of a world that do not touch each other, so the order of a step
that logs and of one that does not can be exchanged. -/

section Steps

variable {σ α : Type} {l : Listener σ} {faults : Faults} {w : World σ}

@[simp] theorem files_called (calls : List Call) : (w.called calls).files = w.files := rfl

@[simp] theorem files_heard (e : Log.Entry) : (w.heard l e).files = w.files := rfl

@[simp] theorem called_heard (e : Log.Entry) (calls : List Call) :
    (w.heard l e).called calls = (w.called calls).heard l e := rfl

@[simp] theorem stored_heard (e : Log.Entry) (path : String) (bs : Bytes) :
    (w.heard l e).stored path bs = (w.stored path bs).heard l e := rfl

@[simp] theorem called_stored (path : String) (bs : Bytes) (calls : List Call) :
    (w.stored path bs).called calls = (w.called calls).stored path bs := rfl

@[simp] theorem called_called (calls calls' : List Call) :
    (w.called calls).called calls' = w.called (calls ++ calls') := by
  simp [World.called]

/-- Of two contents that are put in one place, the later ones stay. -/
@[simp] theorem stored_stored (path : String) (bs bs' : Bytes) :
    (w.stored path bs).stored path bs' = w.stored path bs' := by
  simp [World.stored, Files.insert, Files.erase]

@[simp high] theorem bind_run {β : Type} (x : StateM (World σ) α) (f : α → StateM (World σ) β) :
    (x >>= f).run w = (f (x.run w).1).run (x.run w).2 := rfl

@[simp high] theorem map_run {β : Type} (x : StateM (World σ) α) (f : α → β) :
    (f <$> x).run w = (f (x.run w).1, (x.run w).2) := rfl

@[simp high] theorem pure_run (a : α) : (pure a : StateM (World σ) α).run w = (a, w) := rfl

@[simp high] theorem get_run : (get : StateM (World σ) (World σ)).run w = (w, w) := rfl

@[simp high] theorem modify_run (f : World σ → World σ) :
    (modify f : StateM (World σ) Unit).run w = ((), f w) := rfl

@[simp] theorem log_run (e : Log.Entry) : (log l e).run w = ((), w.heard l e) := rfl

@[simp] theorem call_run (calls : List Call) : (call calls).run w = ((), w.called calls) := rfl

@[simp] theorem say_run (text : String) : (say text).run w = ((), w.said text) := rfl

@[simp] theorem advance_run (state : State) (fields : List Log.Field) :
    (advance l state fields).run w = ((), w.heard l (reached state fields)) := rfl

@[simp] theorem fail_run (site : Site) (e : Failure) :
    (fail l site e).run w = (.atSite site e, w.heard l (failed site e)) := rfl

@[simp] theorem deliver_run (path : String) (before after : Output) :
    (deliver path before after).run w
      = ((), (w.called (after.calls.drop before.calls.length)).stored path after.contents) := rfl

/-- The world after everything that a report tells. -/
def World.after (l : Listener σ) (w : World σ) (r : Report) : World σ :=
  World.heardAll l { w with files := w.files.after r, calls := w.calls ++ r.calls } r.entries

theorem after_of_stored {r : Report} {path : String} {bs : Bytes}
    (h : r.stored = some (path, bs)) :
    w.after l r = ((w.called r.calls).stored path bs).heardAll l r.entries := by
  rw [World.after, Files.after_eq_insert h]
  rfl

theorem after_of_unstored {r : Report} (h : r.stored = none) :
    w.after l r = (w.called r.calls).heardAll l r.entries := by
  rw [World.after, Files.after_eq_self h]
  rfl

theorem after_called (r : Report) (calls : List Call) :
    w.after l (r.called calls) = (w.called calls).after l r := by
  simp only [World.after, World.called, Report.called, List.append_assoc]
  rfl

theorem after_logged (r : Report) (entries : List Log.Entry) :
    w.after l (r.logged entries) = (w.heardAll l entries).after l r := by
  obtain ⟨hfiles, hcalls, -⟩ := w.heardAll_eq l entries
  simp only [World.after, hfiles, hcalls, ← World.heardAll_with, ← World.heardAll_append]
  rfl

/-- A flush makes its calls behind those that were made before. -/
theorem calls_flush (b : Buffer) :
    b.output.calls ++ b.flush.output.calls.drop b.output.calls.length = b.flush.output.calls := by
  have hbehind : b.output.calls <+: b.flush.output.calls := by
    have hflushed := b.flushed
    generalize b.flush = b' at hflushed ⊢
    cases hflushed with
    | failed _ => exact List.prefix_rfl
    | idle _ _ => exact List.prefix_rfl
    | whole _ hoffer =>
        obtain rfl := congrArg Prod.snd hoffer
        simp [Output.offer, Output.calls]
    | short _ hoffer _ =>
        obtain rfl := congrArg Prod.snd hoffer
        simp [Output.offer, Output.calls]
  exact List.prefix_iff_eq_append.1 hbehind

/-! ## What a session does -/

@[simp] theorem calls_new (sink : Sink) : (Output.new sink).calls = [] := rfl

section Output

variable {o : Options} {path : String} {sink : Sink} {refused : Failure → Failure}
  {emission : Emission}

/-- An emission that cannot be encoded is left in the output as far as it has come. -/
theorem fillOutput_of_unencoded {e : Failure}
    (h : emission.failure.or ((filled o sink emission).failure.map refused) = some e) :
    (fillOutput l o path sink refused emission).run w =
      (some (.atSite (encodeSite path) e),
        ((w.called (filled o sink emission).output.calls).stored path
          (filled o sink emission).output.contents).heard l (failed (encodeSite path) e)) := by
  unfold filled at h ⊢
  simp [fillOutput, h]

/-- What has been encoded is flushed. The output has then seen all writes of both steps. -/
theorem fillOutput_of_encoded (hemission : emission.failure = none)
    (hfilled : (filled o sink emission).failure = none) :
    (fillOutput l o path sink refused emission).run w =
      let b := (filled o sink emission).flush
      let flushed : World σ :=
        ((w.called b.output.calls).stored path b.output.contents).heard l (reached .encoded [])
      match b.failure, settle sink with
      | some e, _ =>
          (some (.atSite (flushSite path) e), flushed.heard l (failed (flushSite path) e))
      | none, (calls, some e) =>
          (some (.atSite (flushSite path) e),
            (flushed.called calls).heard l (failed (flushSite path) e))
      | none, (calls, none) =>
          (none, (flushed.called calls).heard l
            (reached .flushed [("bytes", .integer b.output.size)])) := by
  -- the writes of filling and of flushing are delivered apart and come to those of the whole
  have hcalls := calls_flush (filled o sink emission)
  have hfurther (calls : List Call) := congrArg (· ++ calls) hcalls
  simp only [List.append_assoc] at hfurther
  have hsink := (filled_carries o sink emission).flush.sink_eq
  have hfill : (fillOutput l o path sink refused emission).run w =
      (flushOutput l path (filled o sink emission)).run
        (((w.called (filled o sink emission).output.calls).stored path
          (filled o sink emission).output.contents).heard l (reached .encoded [])) := by
    unfold filled at hfilled ⊢
    simp [fillOutput, hemission, hfilled]
  rw [hfill]
  dsimp only
  cases hflush : (filled o sink emission).flush.failure with
  | some e => simp [flushOutput, hflush, hcalls]
  | none =>
      cases hsettle : settle sink with
      | mk calls failure =>
          cases failure with
          | some e => simp [flushOutput, hflush, hsink, hsettle, hfurther]
          | none => simp [flushOutput, hflush, hsink, hsettle, hfurther]

/-- The last steps of a run, with the output that they create. -/
theorem produce_run {r : Report} (hcreate : (w.files.storage faults).create path = .ok sink)
    (h : WriteEnding o path sink refused emission r) :
    (produce l faults o path refused emission).run w
      = (r.failure, w.after l (r.called [.create path o.outputPermission])) := by
  have hcarries := filled_carries o sink emission
  -- what is flushed without a failure has been encoded without one, and is the whole emission
  have hwhole (hflush : (filled o sink emission).flush.failure = none) :
      (filled o sink emission).failure = none
        ∧ (filled o sink emission).flush.output.contents = emission.bytes
        ∧ (filled o sink emission).flush.output.size = emission.bytes.length := by
    have hstored := hcarries.stored_of_flush hflush
    refine ⟨((filled o sink emission).flushed.of_failure_eq_none hflush).1, hstored, ?_⟩
    rw [hcarries.flush.size_eq, hstored]
  cases h with
  | unencoded hencode =>
      rw [after_of_stored rfl]
      simp [produce, writeOutput, hcreate, fillOutput_of_unencoded hencode, World.heardAll,
        Report.called]
  | unflushed hemission hfilled hflush =>
      rw [after_of_stored rfl]
      simp [produce, writeOutput, hcreate, fillOutput_of_encoded hemission hfilled, hflush,
        World.heardAll, Report.called]
  | unsettled hemission hflush hsettle =>
      obtain ⟨hfilled, hstored, -⟩ := hwhole hflush
      rw [after_of_stored rfl]
      simp [produce, writeOutput, hcreate, fillOutput_of_encoded hemission hfilled, hflush, hsettle,
        hstored, World.heardAll, Report.called]
  | unclosed hemission hflush hsettle hclose =>
      obtain ⟨hfilled, hstored, hsize⟩ := hwhole hflush
      rw [after_of_stored rfl]
      simp [produce, writeOutput, hcreate, fillOutput_of_encoded hemission hfilled, hflush, hsettle,
        hclose, hstored, hsize, World.heardAll, Report.called]
  | complete hemission hflush hsettle hclose =>
      obtain ⟨hfilled, hstored, hsize⟩ := hwhole hflush
      rw [after_of_stored rfl]
      simp [produce, writeOutput, hcreate, fillOutput_of_encoded hemission hfilled, hflush, hsettle,
        hclose, hstored, hsize, World.heardAll, Report.called]

end Output

theorem announce_run (a : Arguments) : (announce l a).run w = ((), w.heardAll l (opening a)) := by
  cases h : a.extra.isEmpty with
  | true => simp [announce, opening, h, World.heardAll]
  | false => simp [announce, opening, h, World.heardAll]

/-- A session with both paths comes to the world that the ending of its run describes. -/
theorem process_run {codec : Codec α} {o : Options} {a : Arguments} {r : Report}
    (h : Ending codec o (w.files.storage faults) a r) :
    (process l faults codec o a).run w = (r.failure, w.after l r) := by
  cases h with
  | unopened hopen =>
      rw [after_of_unstored rfl]
      simp [process, readInput, hopen, World.heardAll]
  | unread hopen hread =>
      rw [after_of_unstored rfl]
      simp [process, readInput, readSource, hopen, hread, World.heardAll]
  | undecoded hreads hdecode =>
      obtain ⟨source, hopen, hread⟩ := hreads
      rw [after_of_unstored rfl]
      simp [process, readInput, readSource, hopen, hread, hdecode, World.heardAll]
  | uncreated hreads hdecode hcreate =>
      obtain ⟨source, hopen, hread⟩ := hreads
      rw [after_of_unstored rfl]
      simp [process, readInput, readSource, hopen, hread, hdecode, produce, writeOutput, hcreate,
        World.heardAll]
  | @written bs value sink r hreads hdecode hcreate hwrite =>
      obtain ⟨source, hopen, hread⟩ := hreads
      -- the output is produced in the world in which the input has been read and closed
      let front := [reached .inputOpened [], reached .inputRead [("bytes", .integer bs.length)],
        reached .decoded []]
      let read := (w.called [.openInput a.input, .close a.input]).heardAll l front
      have hsteps : (process l faults codec o a).run w
          = (produce l faults o a.output codec.refused (codec.encode value)).run read := by
        simp [process, readInput, readSource, hopen, hread, hdecode, read, front, World.heardAll]
      have hcreate : (read.files.storage faults).create a.output = .ok sink := hcreate
      rw [hsteps, produce_run hcreate hwrite, ← after_logged, ← after_called]
      rfl

/-- **A session does what is reported of its run.** -/
theorem perform_run (codec : Option (Codec α)) (o : Options) (args : List String) :
    (perform l faults codec o args).run w =
      ((run codec o (w.files.storage faults) args).failure,
        w.after l (run codec o (w.files.storage faults) args)) := by
  cases codec with
  | none =>
      rw [after_of_unstored rfl]
      simp [perform, run, World.called, World.heardAll]
  | some c =>
      cases hargs : Arguments.parse args with
      | error e =>
          simp only [perform, run, hargs]
          rw [after_of_unstored rfl]
          simp [Report.stop, World.called, World.heardAll]
      | ok a =>
          have hfiles := (w.heardAll_eq l (opening a)).1
          have hending := process_ending c o (w.files.storage faults) a
          rw [← hfiles] at hending
          have hopening : w.after l (run (some c) o (w.files.storage faults) args)
              = (w.heardAll l (opening a)).after l
                  (Run.process c o (w.files.storage faults) a) := by
            rw [← after_logged, run_eq hargs]
            simp [Report.logged, Report.after, opening]
          rw [run_failure hargs, hopening]
          simp only [perform, hargs, bind_run, announce_run]
          rw [process_run hending, hfiles]

/-- How a program ends that starts with an empty error stream. The diagnostics come behind
everything that is logged. -/
theorem main_run {files : Files} {codec : Option (Codec α)} {o : Options} {args : List String}
    {report : Report} (l : Listener σ) (memory : σ)
    (h : run codec o (files.storage faults) args = report) :
    let ran := (main l faults codec o args).run (.start files memory)
    ran.1 = exitStatus report.failure ∧ ran.2.files = files.after report
      ∧ ran.2.calls = report.calls
      ∧ ran.2.stream = l.written memory report.entries ++ diagnostics args report.failure := by
  intro ran
  have hran : ran = (exitStatus report.failure,
      ((World.start files memory).after l report).said (diagnostics args report.failure)) := by
    simp only [ran, main, bind_run, perform_run, say_run, pure_run]
    rw [← h]
    rfl
  obtain ⟨hfiles, hcalls, hstream⟩ :=
    World.heardAll_eq l { World.start files memory with
      files := files.after report, calls := [] ++ report.calls } report.entries
  rw [hran]
  refine ⟨rfl, hfiles, hcalls, congrArg (· ++ diagnostics args report.failure) ?_⟩
  exact hstream.trans String.empty_append

/-- The error stream of a program with the logger of a configuration. -/
theorem stream_main {files : Files} (logger : Option Log.Logger) (codec : Option (Codec α))
    (o : Options) (args : List String) :
    ((main (.ofLogger? logger) faults codec o args).run (.start files ())).2.stream
      = transcript logger args (run codec o (files.storage faults) args) := by
  generalize hreport : run codec o (files.storage faults) args = report
  obtain ⟨-, -, -, hstream⟩ := main_run (.ofLogger? logger) () hreport
  rw [hstream, transcript]
  cases logger with
  | none => exact congrArg (· ++ _) (written_deaf _)
  | some logger => exact congrArg (· ++ _) (written_writing logger _)

/-- What a recording logger remembers of a program. -/
theorem memory_main_recording {files : Files} {codec : Option (Codec α)} {o : Options}
    {args : List String} :
    ((main .recording faults codec o args).run (.start files [])).2.memory
      = (run codec o (files.storage faults) args).entries := by
  simp only [main, bind_run, perform_run, say_run, pure_run, World.said, World.after,
    World.memory_heardAll_recording]
  rfl

end Steps

/-! ## What a program says at its end -/

section Diagnostics

variable {α : Type} {args : List String}

theorem diagnostics_eq_empty_iff (failure : Option Failure) :
    diagnostics args failure = "" ↔ exitStatus failure = 0 := by
  cases failure with
  | none => exact ⟨fun _ => rfl, fun _ => rfl⟩
  | some e =>
      have hstatus : exitStatus (some e) ≠ 0 := by
        unfold exitStatus
        grind
      refine ⟨fun h => ?_, fun h => absurd h hstatus⟩
      have hchars := congrArg String.toList h
      simp [diagnostics] at hchars

/-- A run ends at its first stage when a path is missing or empty, and never else. -/
theorem kind_eq_configuration_iff {codec : Codec α} {o : Options} {storage : Storage}
    {report : Report} {stage : Stage} {e : Failure}
    (h : StopsAt codec o storage args report stage e) :
    stage.kind = .configuration ↔ args.getD 1 "" = "" ∨ args.getD 2 "" = "" := by
  rw [← Arguments.parse_eq_error_iff]
  constructor
  · intro hkind
    obtain rfl : stage = .arguments := by
      revert hkind
      cases stage <;> decide
    cases h.fails with
    | arguments hargs => exact ⟨e, hargs⟩
  · rintro ⟨e', hargs⟩
    refine Decidable.byContradiction fun hkind => ?_
    have hbefore : Stage.arguments ∈ stage.before := by
      revert hkind
      cases stage <;> decide
    exact h.first _ hbefore e' (.arguments hargs)

/-- How a program is called is said when a path is missing or empty. -/
theorem diagnostics_run {codec : Option (Codec α)} {o : Options} {storage : Storage} {e : Failure}
    (h : (run codec o storage args).failure = some e) :
    diagnostics args (some e) = e.message ++ "\n"
      ++ if codec.isSome ∧ (args.getD 1 "" = "" ∨ args.getD 2 "" = "") then usage args else "" := by
  cases codec with
  | none =>
      obtain rfl : .plain "unictest: codec is required" = e := Option.some.inj h
      simp [diagnostics, Failure.site?]
  | some c =>
      obtain hcompletes | ⟨stage, inner, hstops⟩ := run_outcome c o storage args
      · -- a complete run has no failure to report
        rw [hcompletes.failure_eq] at h
        cases h
      · rw [hstops.failure_eq] at h
        obtain rfl := Option.some.inj h
        simp [diagnostics, Failure.site?, Stage.site, kind_eq_configuration_iff hstops]

end Diagnostics

/-! ## Main statement -/

/-- **Logging does not interfere.** Two programs that differ in their loggers alone end with one
status, with the same files and after the same calls. On the error stream each has what its logger
writes about the entries of the run, which are those that a recording logger remembers, and behind
it one text for both: none after success, else the failure, and how the program is called when a
path is missing or empty. -/
theorem main_logging_unobservable {σ τ α : Type} (l : Listener σ) (l' : Listener τ) (memory : σ)
    (memory' : τ) (codec : Option (Codec α)) (o : Options) (files : Files) (faults : Faults)
    (args : List String) :
    let ran := (main l faults codec o args).run (.start files memory)
    let ran' := (main l' faults codec o args).run (.start files memory')
    let entries := ((main .recording faults codec o args).run (.start files [])).2.memory
    ran.1 = ran'.1 ∧ ran.2.files = ran'.2.files ∧ ran.2.calls = ran'.2.calls
      ∧ ∃ text,
          ran.2.stream = l.written memory entries ++ text
          ∧ ran'.2.stream = l'.written memory' entries ++ text
          ∧ (text = "" ↔ ran.1 = 0)
          ∧ (ran.1 ≠ 0 →
              ∃ e, ((perform l faults codec o args).run (.start files memory)).1 = some e
                ∧ text = e.message ++ "\n"
                    ++ if codec.isSome ∧ (args.getD 1 "" = "" ∨ args.getD 2 "" = "")
                      then usage args else "") := by
  intro ran ran' entries
  generalize hreport : run codec o (files.storage faults) args = report
  obtain ⟨hstatus, hfiles, hcalls, hstream⟩ := main_run l memory hreport
  obtain ⟨hstatus', hfiles', hcalls', hstream'⟩ := main_run l' memory' hreport
  have hentries : entries = report.entries := memory_main_recording.trans (by rw [hreport])
  rw [hentries]
  refine ⟨hstatus.trans hstatus'.symm, hfiles.trans hfiles'.symm, hcalls.trans hcalls'.symm,
    diagnostics args report.failure, hstream, hstream', ?_, ?_⟩
  · rw [hstatus, diagnostics_eq_empty_iff]
  · intro hfailed
    have hperform : ((perform l faults codec o args).run (.start files memory)).1
        = report.failure := by
      rw [perform_run, ← hreport]
      rfl
    rw [hperform]
    cases hfailure : report.failure with
    | none =>
        rw [hstatus, hfailure] at hfailed
        exact absurd rfl hfailed
    | some e => exact ⟨e, rfl, diagnostics_run (hreport ▸ hfailure)⟩

/-- No output path, and a logger that discards everything or one that writes errors. -/
theorem main_logging_unobservable_missing_output :
    let codec : Codec Bytes := ⟨.ok, .once, id⟩
    let files : Files := [("in", [1, 2])]
    let logger := Log.Logger.ofSeverity .console .error
    let ran := (main .deaf .none (some codec) .default ["copy", "in"]).run (.start files ())
    let ran' :=
      (main (.writing logger) .none (some codec) .default ["copy", "in"]).run (.start files ())
    let text := "Failed to parse arguments: no output file provided\n"
      ++ "Usage: copy <input-file> <output-file>\n"
    ran.1 = 2 ∧ ran'.1 = 2 ∧ ran'.2.files = files ∧ ran'.2.calls = []
      ∧ ran.2.stream = text
      ∧ ran'.2.stream = logger.write (failed argumentSite (.known .missingOutput)) ++ text := by
  intro codec files logger ran ran' text
  have hstatus : ran.1 = 2 := rfl
  obtain ⟨hstatus', hfiles, hcalls, said, hstream, hstream', -, hsaid⟩ :=
    main_logging_unobservable .deaf (.writing logger) () () (some codec) .default files .none
      ["copy", "in"]
  obtain ⟨e, he, rfl⟩ := hsaid (by decide)
  cases he
  refine ⟨hstatus, hstatus'.symm.trans hstatus, hfiles.symm, hcalls.symm, hstream, ?_⟩
  rw [hstream', written_writing]
  rfl

end RoundTrip.Session
