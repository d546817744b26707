import RoundTrip.Proofs.Run.Endings
import RoundTrip.Store.Files

/-!
# Runs that lose nothing

A run that succeeds has read all of its input and has put exactly the bytes of the emission into its
output, under every plan of faults, and no other file has changed. Without faults a run succeeds
when decoding and encoding do.

Main statement: `run_lossless`. The endings of a run without faults are in `faultless_cases`.
-/

set_option autoImplicit false

namespace RoundTrip.Run

open RoundTrip.Store

/-! ## Command lines -/

/-- Two paths that are not empty are a command line. -/
theorem Arguments.parse_paths (program : String) {input output : String} (extra : List String)
    (hinput : input ≠ "") (houtput : output ≠ "") :
    Arguments.parse (program :: input :: output :: extra) = .ok ⟨input, output, extra⟩ := by
  simp [Arguments.parse, hinput, houtput]

/-- A command line is in order when it has two paths that are not empty. -/
theorem Arguments.parse_eq_ok_iff {args : List String} {a : Arguments} :
    Arguments.parse args = .ok a ↔
      ∃ program, args = program :: a.input :: a.output :: a.extra
        ∧ a.input ≠ "" ∧ a.output ≠ "" := by
  constructor
  · intro h
    unfold Arguments.parse at h
    split at h
    · rename_i program input rest
      split at h
      · cases h
      · rename_i hinput
        split at h
        · rename_i output extra
          split at h
          · cases h
          · rename_i houtput
            cases h
            exact ⟨program, rfl, by simpa using hinput, by simpa using houtput⟩
        · cases h
    · cases h
  · rintro ⟨program, rfl, hinput, houtput⟩
    exact Arguments.parse_paths program a.extra hinput houtput

/-- A command line is refused when a path is missing or empty. -/
theorem Arguments.parse_eq_error_iff {args : List String} :
    (∃ e, Arguments.parse args = .error e) ↔ args.getD 1 "" = "" ∨ args.getD 2 "" = "" := by
  rcases args with _ | ⟨program, _ | ⟨input, _ | ⟨output, extra⟩⟩⟩
  · simp [Arguments.parse]
  · simp [Arguments.parse]
  · by_cases hinput : input = "" <;> simp [Arguments.parse, hinput]
  · by_cases hinput : input = ""
    · simp [Arguments.parse, hinput]
    · by_cases houtput : output = "" <;> simp [Arguments.parse, hinput, houtput]

theorem run_eq {α : Type} {codec : Codec α} {o : Options} {storage : Storage} {args : List String}
    {a : Arguments} (h : Arguments.parse args = .ok a) :
    run (some codec) o storage args =
      ((process codec o storage a).after .argsParsed
        [("input", .text a.input), ("output", .text a.output)]).logged
        (if a.extra.isEmpty then [] else [extraArguments a.extra]) := by
  simp only [run, h]

theorem run_stored {α : Type} {codec : Codec α} {o : Options} {storage : Storage}
    {args : List String} {a : Arguments} (h : Arguments.parse args = .ok a) :
    (run (some codec) o storage args).stored = (process codec o storage a).stored := by
  rw [run_eq h]
  rfl

theorem run_failure {α : Type} {codec : Codec α} {o : Options} {storage : Storage}
    {args : List String} {a : Arguments} (h : Arguments.parse args = .ok a) :
    (run (some codec) o storage args).failure = (process codec o storage a).failure := by
  rw [run_eq h]
  rfl

theorem run_calls {α : Type} {codec : Codec α} {o : Options} {storage : Storage}
    {args : List String} {a : Arguments} (h : Arguments.parse args = .ok a) :
    (run (some codec) o storage args).calls = (process codec o storage a).calls := by
  rw [run_eq h]
  rfl

/-- A run that succeeds has a codec and both paths. -/
theorem of_run_failure_eq_none {α : Type} {codec : Option (Codec α)} {o : Options}
    {storage : Storage} {args : List String} (h : (run codec o storage args).failure = none) :
    ∃ c a, codec = some c ∧ Arguments.parse args = .ok a := by
  cases codec with
  | none => cases h
  | some c =>
      cases hargs : Arguments.parse args with
      | error e =>
          simp only [run, hargs] at h
          cases h
      | ok a => exact ⟨c, a, rfl, rfl⟩

/-- What becomes of a command line: a harness without a codec, or a command line without two paths,
does nothing and fails, and every other run ends in one of the listed ways. -/
inductive Execution {α : Type} (codec : Option (Codec α)) (o : Options) (storage : Storage)
    (args : List String) (report : Report) : Prop
  | idle {e : Failure} :
      (codec = none ∨ args.getD 1 "" = "" ∨ args.getD 2 "" = "") → report.failure = some e →
      report.calls = [] → report.stored = none → Execution codec o storage args report
  | proceeds {c : Codec α} {a : Arguments} {r : Report} :
      codec = some c → a.input = args.getD 1 "" → a.output = args.getD 2 "" → a.input ≠ "" →
      a.output ≠ "" → Ending c o storage a r → report.failure = r.failure →
      report.calls = r.calls → report.stored = r.stored → Execution codec o storage args report

theorem run_execution {α : Type} (codec : Option (Codec α)) (o : Options) (storage : Storage)
    (args : List String) : Execution codec o storage args (run codec o storage args) := by
  cases codec with
  | none => exact .idle (Or.inl rfl) rfl rfl rfl
  | some c =>
      cases hargs : Arguments.parse args with
      | error e =>
          have hmissing := Arguments.parse_eq_error_iff.1 ⟨e, hargs⟩
          have hrun : run (some c) o storage args = .stop argumentSite e := by
            simp only [run, hargs]
          rw [hrun]
          exact .idle (Or.inr hmissing) rfl rfl rfl
      | ok a =>
          obtain ⟨program, hline, hinput, houtput⟩ := Arguments.parse_eq_ok_iff.1 hargs
          have hin : a.input = args.getD 1 "" := by simp [hline]
          have hout : a.output = args.getD 2 "" := by simp [hline]
          exact .proceeds rfl hin hout hinput houtput (process_ending c o storage a)
            (run_failure hargs) (run_calls hargs) (run_stored hargs)

/-! ## Success -/

/-- What a complete run has done. -/
theorem Ending.of_failure_eq_none {α : Type} {codec : Codec α} {o : Options} {storage : Storage}
    {a : Arguments} {r : Report} (h : Ending codec o storage a r) (hnone : r.failure = none) :
    ∃ bs value, Reads storage a.input bs ∧ codec.decode bs = .ok value
      ∧ (codec.encode value).failure = none
      ∧ r.stored = some (a.output, (codec.encode value).bytes)
      ∧ r.entries =
        [reached .inputOpened [], reached .inputRead [("bytes", .integer bs.length)],
          reached .decoded [], reached .outputCreated [], reached .encoded [],
          reached .flushed [("bytes", .integer (codec.encode value).bytes.length)],
          reached .done []] := by
  cases h with
  | unopened _ => cases hnone
  | unread _ _ => cases hnone
  | undecoded _ _ => cases hnone
  | uncreated _ _ _ => cases hnone
  | @written bs value sink r hreads hdecode _ hwrite =>
      cases hwrite with
      | unencoded _ => cases hnone
      | unflushed _ _ _ => cases hnone
      | unsettled _ _ _ => cases hnone
      | unclosed _ _ _ _ => cases hnone
      | complete hemission _ _ _ => exact ⟨bs, value, hreads, hdecode, hemission, rfl, rfl⟩

/-! ## The flat store -/

/-- An input that is read is read to its end. -/
theorem source_read_eq_ok {faults : Faults} {contents bs : Bytes}
    (h : (faults.source contents).read = .ok bs) : bs = contents := by
  rw [Faults.source] at h
  split at h
  · cases h
    rfl
  · split at h
    · cases h
    · cases h
      rfl

theorem reads_files {files : Files} {faults : Faults} {path : String} {bs : Bytes}
    (h : Reads (files.storage faults) path bs) :
    files.get? path = some bs ∧ (faults.source bs).read = .ok bs := by
  obtain ⟨source, hopen, hread⟩ := h
  simp only [Files.storage] at hopen
  split at hopen
  · cases hopen
  · split at hopen
    · rename_i contents hcontents
      cases hopen
      obtain rfl := source_read_eq_ok hread
      exact ⟨hcontents, hread⟩
    · cases hopen

/-! ## Runs without faults -/

theorem ideal_takesAll : Sink.ideal.TakesAll := ⟨rfl, rfl⟩

/-- Writing to an ideal output succeeds when encoding does. -/
theorem WriteEnding.of_ideal {o : Options} {path : String} {refused : Failure → Failure}
    {emission : Emission} {r : Report} (h : WriteEnding o path .ideal refused emission r)
    (hemission : emission.failure = none) :
    r.failure = none ∧ r.stored = some (path, emission.bytes) := by
  have hfilled : (filled o .ideal emission).failure = none :=
    (Buffer.carries_new o.bufferCapacity .ideal).failure_emit ideal_takesAll rfl emission.writes
  have hflushed : (filled o .ideal emission).flush.failure = none :=
    (filled_carries o .ideal emission).failure_flush ideal_takesAll hfilled
  cases h with
  | unencoded hencode =>
      rw [hemission, hfilled] at hencode
      cases hencode
  | unflushed _ _ hflush =>
      rw [hflushed] at hflush
      cases hflush
  | unsettled _ _ hsettle => cases hsettle
  | unclosed _ _ _ hclose => cases hclose
  | complete _ _ _ _ => exact ⟨rfl, rfl⟩

/-- Without faults a run on an existing input ends at decoding or goes on to its output. -/
theorem faultless_cases {α : Type} {codec : Codec α} {o : Options} {files : Files} {a : Arguments}
    {r : Report} {bs : Bytes} (h : Ending codec o (files.storage .none) a r)
    (hin : files.get? a.input = some bs) :
    (∃ e, codec.decode bs = .error e ∧ r.failure = some (.atSite (decodeSite a.input) e)
      ∧ r.stored = none)
    ∨ ∃ value, codec.decode bs = .ok value ∧ ((codec.encode value).failure = none →
        r.failure = none ∧ r.stored = some (a.output, (codec.encode value).bytes)) := by
  have hopen : (files.storage .none).openInput a.input = .ok ⟨bs, none, none⟩ := by
    simp only [Files.storage, hin]
    rfl
  -- whatever is read is the input
  have hread : ∀ {bs'}, Reads (files.storage .none) a.input bs' → bs' = bs := by
    intro bs' hreads
    have hget := (reads_files hreads).1
    rw [hin] at hget
    cases hget
    rfl
  cases h with
  | unopened hopen' =>
      rw [hopen] at hopen'
      cases hopen'
  | unread hopen' hread' =>
      rw [hopen] at hopen'
      cases hopen'
      cases hread'
  | undecoded hreads hdecode =>
      rw [hread hreads] at hdecode
      exact Or.inl ⟨_, hdecode, rfl, rfl⟩
  | uncreated _ _ hcreate => cases hcreate
  | written hreads hdecode hcreate hwrite =>
      rw [hread hreads] at hdecode
      cases hcreate
      exact Or.inr ⟨_, hdecode, hwrite.of_ideal⟩

/-- Without faults the harness refuses an existing input and changes nothing, or it puts the
encoding of its value into the output. -/
theorem run_faultless_cases {α : Type} (codec : Codec α) (o : Options) (files : Files)
    (program : String) {input output : String} (extra : List String) {bs : Bytes}
    (hinput : input ≠ "") (houtput : output ≠ "") (hin : files.get? input = some bs) :
    let report := run (some codec) o (files.storage .none) (program :: input :: output :: extra)
    (∃ e, codec.decode bs = .error e ∧ exitStatus report.failure = 1 ∧ files.after report = files)
    ∨ ∃ value, codec.decode bs = .ok value ∧ ((codec.encode value).failure = none →
        exitStatus report.failure = 0
          ∧ files.after report = files.insert output (codec.encode value).bytes) := by
  intro report
  have hargs := Arguments.parse_paths program extra hinput houtput
  have hfailure : report.failure = _ := run_failure hargs
  have hstored : report.stored = _ := run_stored hargs
  rcases faultless_cases (process_ending codec o (files.storage .none) ⟨input, output, extra⟩) hin
    with ⟨e, hdecode, hfailed, hnothing⟩ | ⟨value, hdecode, hsuccess⟩
  · left
    rw [hfailed] at hfailure
    rw [hnothing] at hstored
    exact ⟨e, hdecode, by rw [hfailure]; rfl, Files.after_eq_self hstored⟩
  · right
    refine ⟨value, hdecode, ?_⟩
    intro hencode
    obtain ⟨hnone, hbytes⟩ := hsuccess hencode
    rw [hnone] at hfailure
    rw [hbytes] at hstored
    exact ⟨by rw [hfailure]; rfl, Files.after_eq_insert hstored⟩

/-! ## Main statement -/

/-- **A run that succeeds has lost nothing.** Under every plan of faults, with every buffer and
every way of writing, success means that the input was there and was read to its end, that its value
was encoded, and that the output holds exactly the bytes of the encoding while no other file has
changed; the log gives both numbers of bytes. The two paths may be the same. Without faults a run
succeeds whenever decoding and encoding do. -/
theorem run_lossless {α : Type} (codec : Option (Codec α)) (o : Options) (files : Files)
    (args : List String) :
    (∀ faults : Faults, (run codec o (files.storage faults) args).failure = none →
      ∃ c a bs value, codec = some c ∧ Arguments.parse args = .ok a
        ∧ files.get? a.input = some bs ∧ (faults.source bs).read = .ok bs
        ∧ c.decode bs = .ok value ∧ (c.encode value).failure = none
        ∧ (files.after (run codec o (files.storage faults) args)).get? a.output
            = some (c.encode value).bytes
        ∧ (∀ path, path ≠ a.output →
            (files.after (run codec o (files.storage faults) args)).get? path = files.get? path)
        ∧ (run codec o (files.storage faults) args).entries =
            (if a.extra.isEmpty then [] else [extraArguments a.extra])
              ++ [reached .argsParsed [("input", .text a.input), ("output", .text a.output)],
                reached .inputOpened [], reached .inputRead [("bytes", .integer bs.length)],
                reached .decoded [], reached .outputCreated [], reached .encoded [],
                reached .flushed [("bytes", .integer (c.encode value).bytes.length)],
                reached .done []])
    ∧ ∀ c a bs value, codec = some c → Arguments.parse args = .ok a →
        files.get? a.input = some bs → c.decode bs = .ok value → (c.encode value).failure = none →
        (run codec o (files.storage .none) args).failure = none := by
  constructor
  · intro faults hnone
    obtain ⟨c, a, rfl, hargs⟩ := of_run_failure_eq_none hnone
    rw [run_failure hargs] at hnone
    obtain ⟨bs, value, hreads, hdecode, hemission, hstored, hentries⟩ :=
      (process_ending c o (files.storage faults) a).of_failure_eq_none hnone
    obtain ⟨hget, hread⟩ := reads_files hreads
    have hafter : files.after (run (some c) o (files.storage faults) args)
        = files.insert a.output (c.encode value).bytes :=
      Files.after_eq_insert ((run_stored hargs).trans hstored)
    refine ⟨c, a, bs, value, rfl, hargs, hget, hread, hdecode, hemission, ?_, ?_, ?_⟩
    · rw [hafter, Files.get?_insert_self]
    · intro path hpath
      rw [hafter, Files.get?_insert_of_ne files _ hpath]
    · simp only [run_eq hargs, Report.logged, Report.after, hentries]
      rfl
  · rintro c a bs value rfl hargs hin hdecode hemission
    rw [run_failure hargs]
    rcases faultless_cases (process_ending c o (files.storage .none) a) hin with
      ⟨e, herror, -, -⟩ | ⟨value', hvalue, hsuccess⟩
    · rw [hdecode] at herror
      cases herror
    · rw [hdecode] at hvalue
      cases hvalue
      exact (hsuccess hemission).1

/-- A file of five bytes copied onto itself through a buffer of two bytes, with at most three bytes
stored at once. -/
theorem run_lossless_same_path :
    (run (some (⟨.ok, .once, id⟩ : Codec Bytes)) ⟨0, 2⟩
        (Files.storage [("x", [1, 2, 3, 4, 5])]
          ⟨none, none, none, { Sink.ideal with atOnce := some 3 }, none⟩)
        ["copy", "x", "x"]).failure = none
      ∧ (Files.after [("x", [1, 2, 3, 4, 5])] (run (some (⟨.ok, .once, id⟩ : Codec Bytes)) ⟨0, 2⟩
        (Files.storage [("x", [1, 2, 3, 4, 5])]
          ⟨none, none, none, { Sink.ideal with atOnce := some 3 }, none⟩)
        ["copy", "x", "x"])).get? "x" = some [1, 2, 3, 4, 5] := by
  have success : (run (some (⟨.ok, .once, id⟩ : Codec Bytes)) ⟨0, 2⟩
      (Files.storage [("x", [1, 2, 3, 4, 5])]
        ⟨none, none, none, { Sink.ideal with atOnce := some 3 }, none⟩)
      ["copy", "x", "x"]).failure = none := by decide
  obtain ⟨c, a, bs, value, hc, hargs, hget, -, hdecode, -, hout, -, -⟩ :=
    (run_lossless _ _ _ _).1 _ success
  cases hc
  cases hargs
  cases hget
  cases hdecode
  exact ⟨success, hout⟩

end RoundTrip.Run
