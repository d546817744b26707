import RoundTrip.Frame
import RoundTrip.Proofs.Run.Integrity

/-!
# Inputs that are refused

A run has status 1 exactly when its input was read to the end and the codec refused it. Every
failure up to the creation of the output leaves all files as they were, and the failures before
that creation do not even open the output.

Main statement: `run_refusal_untouched`. It speaks of the command line, the files and the plan of
faults alone; `Arguments.parse_eq_ok_iff` and `reads_files_iff` connect these with what a run meets.
-/

set_option autoImplicit false

namespace RoundTrip.Run

open RoundTrip.Store

/-! ## Inputs -/

/-- An input is read to its end when no fault lies before that end or at it. -/
theorem source_read_eq_ok_iff {faults : Faults} {contents bs : Bytes} :
    (faults.source contents).read = .ok bs ↔
      bs = contents ∧ ∀ n e, faults.read = some (n, e) → contents.length < n := by
  rw [Faults.source]
  cases hread : faults.read with
  | none => simp [Source.read, eq_comm]
  | some fault =>
      rcases fault with ⟨n, e⟩
      by_cases hn : n ≤ contents.length
      · simp [Source.read, hn]
      · simp [Source.read, hn, eq_comm, Nat.lt_of_not_le hn]

/-- What a run reads from files under a plan of faults. -/
theorem reads_files_iff {files : Files} {faults : Faults} {path : String} {bs : Bytes} :
    Reads (files.storage faults) path bs ↔
      faults.openInput = none ∧ files.get? path = some bs
        ∧ ∀ n e, faults.read = some (n, e) → bs.length < n := by
  constructor
  · intro h
    obtain ⟨hget, hread⟩ := reads_files h
    obtain ⟨source, hopen, -⟩ := h
    refine ⟨?_, hget, (source_read_eq_ok_iff.1 hread).2⟩
    simp only [Files.storage] at hopen
    split at hopen
    · cases hopen
    · rename_i hnone
      exact hnone
  · rintro ⟨hnone, hget, hfault⟩
    refine ⟨faults.source bs, ?_, source_read_eq_ok_iff.2 ⟨rfl, hfault⟩⟩
    simp only [Files.storage, hnone, hget]

/-! ## Endings -/

/-- The failures of writing come after the creation of the output, and none of them is a refusal. -/
theorem WriteEnding.failure_cases {o : Options} {path : String} {sink : Sink}
    {refused : Failure → Failure} {emission : Emission} {r : Report}
    (h : WriteEnding o path sink refused emission r) :
    r.failure = none ∨ ∃ site e, r.failure = some (.atSite site e) ∧ site.kind = .io
      ∧ State.decoded.code < site.state.code := by
  have hcreated : State.decoded.code < State.outputCreated.code := by decide
  have hencoded : State.decoded.code < State.encoded.code := by decide
  have hflushed : State.decoded.code < State.flushed.code := by decide
  cases h with
  | unencoded _ => exact Or.inr ⟨_, _, rfl, rfl, hcreated⟩
  | unflushed _ _ _ => exact Or.inr ⟨_, _, rfl, rfl, hencoded⟩
  | unsettled _ _ _ => exact Or.inr ⟨_, _, rfl, rfl, hencoded⟩
  | unclosed _ _ _ _ => exact Or.inr ⟨_, _, rfl, rfl, hflushed⟩
  | complete _ _ _ _ => exact Or.inl rfl

/-- A failure of storage has status 2. -/
theorem exitStatus_of_io {site : Site} (e : Failure) (h : site.kind = .io) :
    exitStatus (some (.atSite site e)) = 2 := by
  have hrefusal : ¬ Kind.io = Kind.decode := by decide
  simp [exitStatus, Failure.site?, Site.recoverable, h, hrefusal]

/-- A run has status 1 exactly when its input was read and refused. -/
theorem Ending.exitStatus_eq_one_iff {α : Type} {codec : Codec α} {o : Options} {storage : Storage}
    {a : Arguments} {r : Report} (h : Ending codec o storage a r) :
    exitStatus r.failure = 1 ↔
      ∃ bs e, Reads storage a.input bs ∧ codec.decode bs = .error e := by
  constructor
  · intro hstatus
    cases h with
    | unopened _ => cases hstatus
    | unread _ _ => cases hstatus
    | undecoded hreads hdecode => exact ⟨_, _, hreads, hdecode⟩
    | uncreated _ _ _ => cases hstatus
    | written _ _ _ hwrite =>
        dsimp only at hstatus
        rcases hwrite.failure_cases with hnone | ⟨site, e, hfailure, hkind, -⟩
        · rw [hnone] at hstatus
          cases hstatus
        · rw [hfailure, exitStatus_of_io e hkind] at hstatus
          cases hstatus
  · rintro ⟨bs, e, hreads, hdecode⟩
    cases h with
    | unopened hopen =>
        obtain ⟨source, hopen', -⟩ := hreads
        rw [hopen] at hopen'
        cases hopen'
    | unread hopen hread =>
        obtain ⟨source, hopen', hread'⟩ := hreads
        rw [hopen] at hopen'
        cases hopen'
        rw [hread] at hread'
        cases hread'
    | undecoded _ _ => rfl
    | uncreated hreads' hdecode' _ =>
        rw [hreads.unique hreads', hdecode'] at hdecode
        cases hdecode
    | written hreads' hdecode' _ _ =>
        rw [hreads.unique hreads', hdecode'] at hdecode
        cases hdecode

/-- The failing step is one of those before the output is opened. -/
def Site.precedesOutput (site : Site) : Prop :=
  site.op = "parse arguments" ∨ site.op = "open input file" ∨ site.op = "read input file"
    ∨ site.op = "decode input file"

/-- A failure up to the creation of the output stores nothing, and only the failure of that creation
has tried to open the output. -/
theorem Ending.untouched {α : Type} {codec : Codec α} {o : Options} {storage : Storage}
    {a : Arguments} {r : Report} (h : Ending codec o storage a r) {site : Site} {e : Failure}
    (hfailure : r.failure = some (.atSite site e)) (hstate : site.state.code ≤ State.decoded.code) :
    r.stored = none ∧ (site.op = "create output file"
      ∨ site.precedesOutput ∧ ∀ path permission, Call.create path permission ∉ r.calls) := by
  cases h with
  | unopened _ =>
      cases hfailure
      exact ⟨rfl, Or.inr ⟨Or.inr (Or.inl rfl), by simp⟩⟩
  | unread _ _ =>
      cases hfailure
      exact ⟨rfl, Or.inr ⟨Or.inr (Or.inr (Or.inl rfl)), by simp⟩⟩
  | undecoded _ _ =>
      cases hfailure
      exact ⟨rfl, Or.inr ⟨Or.inr (Or.inr (Or.inr rfl)), by simp⟩⟩
  | uncreated _ _ _ =>
      cases hfailure
      exact ⟨rfl, Or.inl rfl⟩
  | written _ _ _ hwrite =>
      dsimp only at hfailure
      rcases hwrite.failure_cases with hnone | ⟨site', e', hfailure', -, hlater⟩
      · rw [hnone] at hfailure
        cases hfailure
      · rw [hfailure'] at hfailure
        cases hfailure
        exact absurd hlater (UInt8.not_lt.2 hstate)

/-! ## Main statement -/

/-- **A refused input leaves everything as it was.** The status of a run is 1 exactly when both
paths are given, the input is there and is read to its end, and the codec refuses it. Whenever a
run fails at or before the creation of its output, all files are as they were before, and a failure
of an earlier step comes before any attempt to open the output. -/
theorem run_refusal_untouched {α : Type} (codec : Option (Codec α)) (o : Options) (files : Files)
    (faults : Faults) (args : List String) :
    let report := run codec o (files.storage faults) args
    (exitStatus report.failure = 1 ↔
      ∃ c program input output extra bs e, codec = some c
        ∧ args = program :: input :: output :: extra ∧ input ≠ "" ∧ output ≠ ""
        ∧ faults.openInput = none ∧ files.get? input = some bs
        ∧ (∀ n f, faults.read = some (n, f) → bs.length < n) ∧ c.decode bs = .error e)
    ∧ ∀ site e, report.failure = some (.atSite site e) →
        site.state.code ≤ State.decoded.code →
        files.after report = files ∧ (site.op = "create output file"
          ∨ site.precedesOutput
            ∧ ∀ path permission, Call.create path permission ∉ report.calls) := by
  intro report
  cases codec with
  | none =>
      refine ⟨⟨fun h => ?_, ?_⟩, ?_⟩
      · cases h
      · rintro ⟨c, _, _, _, _, _, _, hcodec, _⟩
        cases hcodec
      · intro site e h
        cases h
  | some c =>
      cases hargs : Arguments.parse args with
      | error e =>
          have hreport : report = .stop argumentSite e := by simp only [report, run, hargs]
          rw [hreport]
          refine ⟨⟨fun h => ?_, ?_⟩, ?_⟩
          · cases h
          · rintro ⟨_, program, input, output, extra, _, _, _, rfl, hinput, houtput, _⟩
            rw [Arguments.parse_paths program extra hinput houtput] at hargs
            cases hargs
          · intro site e' h _
            cases h
            exact ⟨Files.after_eq_self rfl, Or.inr ⟨Or.inl rfl, by simp [Report.stop]⟩⟩
      | ok a =>
          have hending := process_ending c o (files.storage faults) a
          have hfailure : report.failure = _ := run_failure hargs
          have hstored : report.stored = _ := run_stored hargs
          have hcalls : report.calls = _ := run_calls hargs
          rw [hfailure]
          refine ⟨?_, ?_⟩
          · rw [hending.exitStatus_eq_one_iff]
            simp only [reads_files_iff]
            obtain ⟨program, hline, hinput, houtput⟩ := Arguments.parse_eq_ok_iff.1 hargs
            constructor
            · rintro ⟨bs, e, ⟨hopen, hget, hread⟩, hdecode⟩
              exact ⟨c, program, a.input, a.output, a.extra, bs, e, rfl, hline, hinput, houtput,
                hopen, hget, hread, hdecode⟩
            · rintro ⟨c', _, _, _, _, bs, e, hcodec, hline', _, _, hopen, hget, hread, hdecode⟩
              cases hcodec
              rw [hline] at hline'
              cases hline'
              exact ⟨bs, e, ⟨hopen, hget, hread⟩, hdecode⟩
          · intro site e h hstate
            obtain ⟨hnone, huntried⟩ := hending.untouched h hstate
            rw [hcalls]
            exact ⟨Files.after_eq_self (hstored.trans hnone), huntried⟩

/-- A frame that is cut off is refused although the output could not be closed, and the older file
at the output path is still there. -/
theorem run_refusal_untouched_cut_frame :
    exitStatus (run (some Frame.codec) .default (Files.storage [("in", [1, 0, 0]), ("out", [7])]
        { Faults.none with output := { Sink.ideal with closeFailure := some (.plain "late") } })
        ["frame", "in", "out"]).failure = 1
      ∧ Files.after [("in", [1, 0, 0]), ("out", [7])]
          (run (some Frame.codec) .default (Files.storage [("in", [1, 0, 0]), ("out", [7])]
            { Faults.none with output := { Sink.ideal with closeFailure := some (.plain "late") } })
            ["frame", "in", "out"]) = [("in", [1, 0, 0]), ("out", [7])] := by
  have h := run_refusal_untouched (some Frame.codec) .default [("in", [1, 0, 0]), ("out", [7])]
    { Faults.none with output := { Sink.ideal with closeFailure := some (.plain "late") } }
    ["frame", "in", "out"]
  refine ⟨h.1.2 ⟨Frame.codec, "frame", "in", "out", [], [1, 0, 0], _, rfl, rfl, by decide,
    by decide, rfl, rfl, by simp [Faults.none], rfl⟩, ?_⟩
  exact (h.2 (decodeSite "in") (Frame.Corruption.shortHeader 3).toFailure rfl (by decide)).1

end RoundTrip.Run
