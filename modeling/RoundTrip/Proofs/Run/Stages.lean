import RoundTrip.Proofs.Run.Integrity

/-!
# The stages of a run

A run comes to its stages in a fixed order and ends at the first one that fails. `Fails` says of
each stage on its own whether it fails and how, so several stages may fail under one plan of
faults; it does not follow the run. The log has one entry for each state that the run has reached
and, after them, one for the failure.

Main statement: `run_stops_at_first_failure`.
-/

set_option autoImplicit false

namespace RoundTrip.Run

/-! ## Stages -/

/-- A step of a run that can fail. -/
inductive Stage where
  | arguments | openInput | readInput | decode | create | encode | flush | close
  deriving DecidableEq, Repr

namespace Stage

/-- The stages in their order. -/
def all : List Stage := [arguments, openInput, readInput, decode, create, encode, flush, close]

/-- The stages before the given one. -/
def before (s : Stage) : List Stage := all.takeWhile (· ≠ s)

/-- The class of the failures of a stage. -/
def kind : Stage → Kind
  | arguments => .configuration
  | decode => .decode
  | _ => .io

/-- The state of a run that comes to a stage. -/
def state : Stage → State
  | arguments => .start
  | openInput => .argsParsed
  | readInput => .inputOpened
  | decode => .inputRead
  | create => .decoded
  | encode => .outputCreated
  | flush => .encoded
  | close => .flushed

/-- What a stage does, in words. -/
def op : Stage → String
  | arguments => "parse arguments"
  | openInput => "open input file"
  | readInput => "read input file"
  | decode => "decode input file"
  | create => "create output file"
  | encode => "encode output file"
  | flush => "flush output file"
  | close => "close output file"

/-- The file of a stage: the second or the third word of the command line. -/
def path (args : List String) : Stage → String
  | arguments => ""
  | openInput | readInput | decode => args.getD 1 ""
  | create | encode | flush | close => args.getD 2 ""

/-- The site of the failures of a stage. -/
def site (args : List String) (s : Stage) : Site := ⟨s.kind, s.state, s.op, s.path args⟩

end Stage

/-! ## Failures of a stage -/

section Fails

variable {α : Type}

/-- A value has been decoded and an output has been created for it. -/
inductive Prepared (codec : Codec α) (storage : Storage) (args : List String) : α → Sink → Prop
  | intro {a : Arguments} {bs : Bytes} {value : α} {sink : Sink} :
      Arguments.parse args = .ok a → Reads storage a.input bs → codec.decode bs = .ok value →
      storage.create a.output = .ok sink → Prepared codec storage args value sink

/-- How encoding a value fails: by itself, or because the output refuses a write. -/
def encodeFailure? (codec : Codec α) (o : Options) (value : α) (sink : Sink) : Option Failure :=
  (codec.encode value).failure.or
    ((filled o sink (codec.encode value)).failure.map codec.refused)

/-- How flushing fails: in the last write, in the look at the status, or in the synchronisation of a
regular file. -/
def flushFailure? (codec : Codec α) (o : Options) (value : α) (sink : Sink) : Option Failure :=
  (filled o sink (codec.encode value)).flush.failure.or
    (sink.statusFailure.or (if sink.regular then sink.syncFailure else none))

/-- A stage fails, whatever happens in the other ones. -/
inductive Fails (codec : Codec α) (o : Options) (storage : Storage) (args : List String) :
    Stage → Failure → Prop
  | arguments {e : Failure} :
      Arguments.parse args = .error e → Fails codec o storage args .arguments e
  | openInput {a : Arguments} {e : Failure} :
      Arguments.parse args = .ok a → storage.openInput a.input = .error e →
      Fails codec o storage args .openInput e
  | readInput {a : Arguments} {source : Source} {e : Failure} :
      Arguments.parse args = .ok a → storage.openInput a.input = .ok source →
      source.read = .error e → Fails codec o storage args .readInput e
  | decode {a : Arguments} {bs : Bytes} {e : Failure} :
      Arguments.parse args = .ok a → Reads storage a.input bs → codec.decode bs = .error e →
      Fails codec o storage args .decode e
  | create {a : Arguments} {e : Failure} :
      Arguments.parse args = .ok a → storage.create a.output = .error e →
      Fails codec o storage args .create e
  | encode {value : α} {sink : Sink} {e : Failure} :
      Prepared codec storage args value sink → encodeFailure? codec o value sink = some e →
      Fails codec o storage args .encode e
  | flush {value : α} {sink : Sink} {e : Failure} :
      Prepared codec storage args value sink → flushFailure? codec o value sink = some e →
      Fails codec o storage args .flush e
  | close {a : Arguments} {sink : Sink} {e : Failure} :
      Arguments.parse args = .ok a → storage.create a.output = .ok sink →
      sink.closeFailure = some e → Fails codec o storage args .close e

/-- A stage that does not fail. -/
def Passes (codec : Codec α) (o : Options) (storage : Storage) (args : List String)
    (s : Stage) : Prop :=
  ∀ e, ¬ Fails codec o storage args s e

variable {codec : Codec α} {o : Options} {storage : Storage} {args : List String} {a : Arguments}
  {bs : Bytes} {value : α} {sink : Sink}

/-- A run prepares one value and one output. -/
theorem Prepared.unique {value' : α} {sink' : Sink} (h : Prepared codec storage args value sink)
    (h' : Prepared codec storage args value' sink') : value = value' ∧ sink = sink' := by
  cases h with
  | intro hargs hreads hdecode hcreate =>
      cases h' with
      | intro hargs' hreads' hdecode' hcreate' =>
          rw [hargs] at hargs'
          cases hargs'
          rw [hreads.unique hreads', hdecode'] at hdecode
          cases hdecode
          rw [hcreate] at hcreate'
          cases hcreate'
          exact ⟨rfl, rfl⟩

/-! ## Stages that have been passed

A run that comes to a stage has passed those before it. Each lemma adds the last of them. -/

theorem passed_next {s t : Stage} (hnext : t.before = s.before ++ [s])
    (hbefore : ∀ r ∈ s.before, Passes codec o storage args r)
    (hpasses : Passes codec o storage args s) :
    ∀ r ∈ t.before, Passes codec o storage args r := by
  rw [hnext, List.forall_mem_append, List.forall_mem_singleton]
  exact ⟨hbefore, hpasses⟩

theorem passed_openInput (hargs : Arguments.parse args = .ok a) :
    ∀ s ∈ Stage.openInput.before, Passes codec o storage args s := by
  refine passed_next (s := .arguments) (by decide) (by simp [Stage.before, Stage.all]) ?_
  intro e hfails
  cases hfails with
  | arguments herror =>
      rw [hargs] at herror
      cases herror

theorem passed_readInput {source : Source} (hargs : Arguments.parse args = .ok a)
    (hopen : storage.openInput a.input = .ok source) :
    ∀ s ∈ Stage.readInput.before, Passes codec o storage args s := by
  refine passed_next (by decide) (passed_openInput hargs) ?_
  intro e hfails
  cases hfails with
  | openInput hargs' herror =>
      rw [hargs] at hargs'
      cases hargs'
      rw [hopen] at herror
      cases herror

theorem passed_decode (hargs : Arguments.parse args = .ok a) (hreads : Reads storage a.input bs) :
    ∀ s ∈ Stage.decode.before, Passes codec o storage args s := by
  obtain ⟨source, hopen, hread⟩ := hreads
  refine passed_next (by decide) (passed_readInput hargs hopen) ?_
  intro e hfails
  cases hfails with
  | readInput hargs' hopen' herror =>
      rw [hargs] at hargs'
      cases hargs'
      rw [hopen] at hopen'
      cases hopen'
      rw [hread] at herror
      cases herror

theorem passed_create (hargs : Arguments.parse args = .ok a) (hreads : Reads storage a.input bs)
    (hdecode : codec.decode bs = .ok value) :
    ∀ s ∈ Stage.create.before, Passes codec o storage args s := by
  refine passed_next (by decide) (passed_decode hargs hreads) ?_
  intro e hfails
  cases hfails with
  | decode hargs' hreads' herror =>
      rw [hargs] at hargs'
      cases hargs'
      rw [← hreads.unique hreads', hdecode] at herror
      cases herror

theorem passed_encode (h : Prepared codec storage args value sink) :
    ∀ s ∈ Stage.encode.before, Passes codec o storage args s := by
  cases h with
  | intro hargs hreads hdecode hcreate =>
      refine passed_next (by decide) (passed_create hargs hreads hdecode) ?_
      intro e hfails
      cases hfails with
      | create hargs' herror =>
          rw [hargs] at hargs'
          cases hargs'
          rw [hcreate] at herror
          cases herror

theorem passed_flush (h : Prepared codec storage args value sink)
    (hencode : encodeFailure? codec o value sink = none) :
    ∀ s ∈ Stage.flush.before, Passes codec o storage args s := by
  refine passed_next (by decide) (passed_encode h) ?_
  intro e hfails
  cases hfails with
  | encode h' herror =>
      obtain ⟨rfl, rfl⟩ := h.unique h'
      rw [hencode] at herror
      cases herror

theorem passed_close (h : Prepared codec storage args value sink)
    (hencode : encodeFailure? codec o value sink = none)
    (hflush : flushFailure? codec o value sink = none) :
    ∀ s ∈ Stage.close.before, Passes codec o storage args s := by
  refine passed_next (by decide) (passed_flush h hencode) ?_
  intro e hfails
  cases hfails with
  | flush h' herror =>
      obtain ⟨rfl, rfl⟩ := h.unique h'
      rw [hflush] at herror
      cases herror

theorem passes_close (h : Prepared codec storage args value sink)
    (hclose : sink.closeFailure = none) : Passes codec o storage args .close := by
  intro e hfails
  cases h with
  | intro hargs _ _ hcreate =>
      cases hfails with
      | close hargs' hcreate' herror =>
          rw [hargs] at hargs'
          cases hargs'
          rw [hcreate] at hcreate'
          cases hcreate'
          rw [hclose] at herror
          cases herror

/-- Every stage is the last one or comes before it. -/
theorem passes_of_before_close
    (hbefore : ∀ s ∈ Stage.close.before, Passes codec o storage args s)
    (hclose : Passes codec o storage args .close) (s : Stage) : Passes codec o storage args s := by
  cases s with
  | close => exact hclose
  | _ => exact hbefore _ (by decide)

end Fails

/-! ## The log -/

/-- The names of the states that a run reaches, in their order. -/
def itinerary : List String :=
  ["args_parsed", "input_opened", "input_read", "decoded", "output_created", "encoded", "flushed",
    "done"]

/-- The state that an entry reports as reached. -/
def reachedState? (entry : Log.Entry) : Option String :=
  if entry.message = "unictest.transition" then
    match entry.fields.lookup "state" with
    | some (.text name) => some name
    | _ => none
  else none

/-- The states that a log reports as reached. -/
def transitions (entries : List Log.Entry) : List String := entries.filterMap reachedState?

/-- The entry reports a failure. -/
def reportsFailure (entry : Log.Entry) : Bool :=
  entry.message == "unictest.abort" || entry.message == "unictest.decode_rejected"

/-- An entry has everything that is known of a failure at a site, as a warning when the input was
refused. An empty path is left out. -/
structure Records (entry : Log.Entry) (site : Site) (e : Failure) : Prop where
  severity : entry.severity = if site.kind = .decode then .warn else .error
  kind : entry.fields.lookup "kind" = some (.text site.kind.name)
  state : entry.fields.lookup "state" = some (.text site.state.name)
  op : entry.fields.lookup "op" = some (.text site.op)
  path : (entry.fields.lookup "path").getD (.text "") = .text site.path
  error : entry.fields.lookup "err" = some (.failure e.message)

@[simp] theorem reachedState?_reached (state : State) (fields : List Log.Field) :
    reachedState? (reached state fields) = some state.name := rfl

@[simp] theorem reachedState?_extraArguments (extra : List String) :
    reachedState? (extraArguments extra) = none := rfl

@[simp] theorem reportsFailure_reached (state : State) (fields : List Log.Field) :
    reportsFailure (reached state fields) = false := rfl

@[simp] theorem reportsFailure_extraArguments (extra : List String) :
    reportsFailure (extraArguments extra) = false := rfl

@[simp] theorem reachedState?_failed (site : Site) (e : Failure) :
    reachedState? (failed site e) = none := by
  cases h : site.recoverable <;> simp [failed, h, reachedState?]

@[simp] theorem reportsFailure_failed (site : Site) (e : Failure) :
    reportsFailure (failed site e) = true := by
  cases h : site.recoverable <;> simp [failed, h, reportsFailure]

theorem records_failed (site : Site) (e : Failure) : Records (failed site e) site e := by
  have hpath : (List.lookup "path" (if site.path.isEmpty then [] else
      [("path", Log.Datum.text site.path)])).getD (.text "") = .text site.path := by
    by_cases h : site.path = ""
    · simp [h]
    · simp [h]
  unfold failed Site.recoverable
  by_cases h : site.kind = .decode
  · simp only [h, decide_true, if_true]
    exact ⟨by simp [h], by rw [h]; rfl, rfl, rfl, hpath, rfl⟩
  · simp only [h, decide_false, Bool.false_eq_true, if_false]
    exact ⟨by simp [h], rfl, rfl, rfl, hpath, rfl⟩

/-- The entries of a run before its input is opened. -/
def opening (a : Arguments) : List Log.Entry :=
  (if a.extra.isEmpty then [] else [extraArguments a.extra])
    ++ [reached .argsParsed [("input", .text a.input), ("output", .text a.output)]]

/-- A log reports the given states as reached, one after the other, and no failure. -/
structure Tells (entries : List Log.Entry) (names : List String) : Prop where
  transitions_eq : transitions entries = names
  failures_eq : entries.filter reportsFailure = []

theorem tells_opening (a : Arguments) : Tells (opening a) ["args_parsed"] := by
  unfold opening
  split
  · exact ⟨rfl, rfl⟩
  · exact ⟨rfl, rfl⟩

/-- One state more. -/
theorem Tells.reached {entries : List Log.Entry} {names : List String} (h : Tells entries names)
    (state : State) (fields : List Log.Field) :
    Tells (entries ++ [Run.reached state fields]) (names ++ [state.name]) := by
  constructor
  · rw [← h.transitions_eq]
    simp [transitions]
  · rw [List.filter_append, h.failures_eq]
    rfl

/-! ## How a run ends -/

section Outcome

variable {α : Type} (codec : Codec α) (o : Options) (storage : Storage) (args : List String)

/-- A report of a run that ends at a stage: it is the first one that fails, the states up to it have
been reached, and the last entry of the log, and no other, reports its failure. -/
structure StopsAt (report : Report) (stage : Stage) (e : Failure) : Prop where
  fails : Fails codec o storage args stage e
  first : ∀ s ∈ stage.before, Passes codec o storage args s
  failure_eq : report.failure = some (.atSite (stage.site args) e)
  transitions_eq : transitions report.entries = itinerary.take stage.state.code.toNat
  failures_eq : report.entries.filter reportsFailure = [failed (stage.site args) e]
  last_eq : report.entries.getLast? = some (failed (stage.site args) e)

/-- A report of a run in which no stage fails. -/
structure Completes (report : Report) : Prop where
  passes : ∀ s, Passes codec o storage args s
  failure_eq : report.failure = none
  transitions_eq : transitions report.entries = itinerary
  failures_eq : report.entries.filter reportsFailure = []

variable {codec o storage args} {a : Arguments}

/-- A log that ends with the failure of a stage belongs to a run that ends there. -/
theorem StopsAt.of_tells {report : Report} {stage : Stage} {e : Failure} {front : List Log.Entry}
    (hfails : Fails codec o storage args stage e)
    (hfirst : ∀ s ∈ stage.before, Passes codec o storage args s)
    (htells : Tells front (itinerary.take stage.state.code.toNat))
    (hfailure : report.failure = some (.atSite (stage.site args) e))
    (hentries : report.entries = front ++ [failed (stage.site args) e]) :
    StopsAt codec o storage args report stage e := by
  refine ⟨hfails, hfirst, hfailure, ?_, ?_, ?_⟩
  · rw [hentries, ← htells.transitions_eq]
    simp [transitions]
  · rw [hentries, List.filter_append, htells.failures_eq]
    simp
  · rw [hentries]
    simp

theorem settle_failure (sink : Sink) :
    (settle sink).2
      = sink.statusFailure.or (if sink.regular then sink.syncFailure else none) := by
  unfold settle
  cases sink.statusFailure with
  | some e => rfl
  | none => cases sink.regular <;> rfl

/-- What is flushed without a failure has been encoded without one. -/
theorem encodeFailure?_eq_none {value : α} {sink : Sink}
    (hemission : (codec.encode value).failure = none)
    (hflush : (filled o sink (codec.encode value)).flush.failure = none) :
    encodeFailure? codec o value sink = none := by
  rw [encodeFailure?, hemission, ((filled o sink _).flushed.of_failure_eq_none hflush).1]
  rfl

theorem flushFailure?_eq {value : α} {sink : Sink}
    (hflush : (filled o sink (codec.encode value)).flush.failure = none) :
    flushFailure? codec o value sink = (settle sink).2 := by
  rw [flushFailure?, hflush, settle_failure, Option.none_or]

/-- Writing goes through the stages of the output. -/
theorem WriteEnding.outcome {path : String} {value : α} {sink : Sink} {r report : Report}
    {front : List Log.Entry} (h : WriteEnding o path sink codec.refused (codec.encode value) r)
    (hpath : args.getD 2 "" = path) (hprepared : Prepared codec storage args value sink)
    (htells : Tells front (itinerary.take State.decoded.code.toNat))
    (hfailure : report.failure = r.failure) (hentries : report.entries = front ++ r.entries) :
    Completes codec o storage args report
      ∨ ∃ stage e, StopsAt codec o storage args report stage e := by
  subst hpath
  -- what the log tells up to each state, for the ending that stops right behind it
  have hcreated := htells.reached .outputCreated []
  have hencoded := hcreated.reached .encoded []
  have hflushed := hencoded.reached .flushed
    [("bytes", .integer (codec.encode value).bytes.length)]
  cases h with
  | unencoded hencode =>
      exact Or.inr ⟨.encode, _, .of_tells (.encode hprepared hencode) (passed_encode hprepared)
        hcreated hfailure (hentries.trans (by simp; rfl))⟩
  | @unflushed e hemission hfilled hflush =>
      have hencode : encodeFailure? codec o value sink = none := by
        rw [encodeFailure?, hemission, hfilled]
        rfl
      have hfails : flushFailure? codec o value sink = some e := by
        rw [flushFailure?, hflush, Option.some_or]
      exact Or.inr ⟨.flush, _, .of_tells (.flush hprepared hfails) (passed_flush hprepared hencode)
        hencoded hfailure (hentries.trans (by simp; rfl))⟩
  | unsettled hemission hflush hsettle =>
      have hencode := encodeFailure?_eq_none hemission hflush
      have hfails := flushFailure?_eq hflush
      rw [hsettle] at hfails
      exact Or.inr ⟨.flush, _, .of_tells (.flush hprepared hfails) (passed_flush hprepared hencode)
        hencoded hfailure (hentries.trans (by simp; rfl))⟩
  | unclosed hemission hflush hsettle hclose =>
      have hencode := encodeFailure?_eq_none hemission hflush
      have hpasses := flushFailure?_eq hflush
      rw [hsettle] at hpasses
      cases hprepared with
      | intro hargs hreads hdecode hcreate =>
          exact Or.inr ⟨.close, _, .of_tells (.close hargs hcreate hclose)
            (passed_close (.intro hargs hreads hdecode hcreate) hencode hpasses)
            hflushed hfailure (hentries.trans (by simp; rfl))⟩
  | complete hemission hflush hsettle hclose =>
      have hencode := encodeFailure?_eq_none hemission hflush
      have hpasses := flushFailure?_eq hflush
      rw [hsettle] at hpasses
      have hdone : Tells _ itinerary := hflushed.reached .done []
      refine Or.inl ⟨passes_of_before_close (passed_close hprepared hencode hpasses)
        (passes_close hprepared hclose), hfailure, ?_, ?_⟩
      · rw [hentries]
        simpa using hdone.transitions_eq
      · rw [hentries]
        simpa using hdone.failures_eq

/-- A run that has both paths goes through its stages. -/
theorem run_outcome_of_parse (hargs : Arguments.parse args = .ok a) :
    Completes codec o storage args (run (some codec) o storage args)
      ∨ ∃ stage e, StopsAt codec o storage args (run (some codec) o storage args) stage e := by
  have hrun : run (some codec) o storage args
      = { process codec o storage a with
          entries := opening a ++ (process codec o storage a).entries } := by
    simp [run_eq hargs, Report.logged, Report.after, opening]
  have hending := process_ending codec o storage a
  rw [hrun]
  generalize process codec o storage a = r at hending
  obtain ⟨program, rfl, -, -⟩ := Arguments.parse_eq_ok_iff.1 hargs
  have hopened := (tells_opening a).reached .inputOpened []
  cases hending with
  | unopened hopen =>
      exact Or.inr ⟨.openInput, _, .of_tells (.openInput hargs hopen) (passed_openInput hargs)
        (tells_opening a) rfl rfl⟩
  | unread hopen hread =>
      exact Or.inr ⟨.readInput, _, .of_tells (.readInput hargs hopen hread)
        (passed_readInput hargs hopen) hopened rfl (by simp; rfl)⟩
  | @undecoded bs _ hreads hdecode =>
      have hread := hopened.reached .inputRead [("bytes", .integer bs.length)]
      exact Or.inr ⟨.decode, _, .of_tells (.decode hargs hreads hdecode)
        (passed_decode hargs hreads) hread rfl (by simp; rfl)⟩
  | @uncreated bs _ _ hreads hdecode hcreate =>
      have hread := hopened.reached .inputRead [("bytes", .integer bs.length)]
      exact Or.inr ⟨.create, _, .of_tells (.create hargs hcreate)
        (passed_create hargs hreads hdecode) (hread.reached .decoded []) rfl (by simp; rfl)⟩
  | @written bs _ _ _ hreads hdecode hcreate hwrite =>
      have hread := hopened.reached .inputRead [("bytes", .integer bs.length)]
      exact hwrite.outcome rfl (.intro hargs hreads hdecode hcreate) (hread.reached .decoded []) rfl
        (by simp)

/-- Every run with a codec is complete or ends at a stage. -/
theorem run_outcome (codec : Codec α) (o : Options) (storage : Storage) (args : List String) :
    Completes codec o storage args (run (some codec) o storage args)
      ∨ ∃ stage e, StopsAt codec o storage args (run (some codec) o storage args) stage e := by
  cases hargs : Arguments.parse args with
  | ok a => exact run_outcome_of_parse hargs
  | error e =>
      have hrun : run (some codec) o storage args = .stop argumentSite e := by
        simp only [run, hargs]
      have htells : Tells [] (itinerary.take State.start.code.toNat) := ⟨rfl, rfl⟩
      rw [hrun]
      exact Or.inr ⟨.arguments, e, .of_tells (.arguments hargs) (by simp [Stage.before, Stage.all])
        htells rfl rfl⟩

end Outcome

/-! ## Closing the input -/

/-- Storage in which closing an input ends in the given way. -/
def Storage.closingInput (storage : Storage) (closing : Option Failure) : Storage where
  openInput path :=
    (storage.openInput path).map fun source => { source with closeFailure := closing }
  create := storage.create

/-- A run does not look at the way in which closing its input ends. -/
theorem run_closingInput {α : Type} (codec : Option (Codec α)) (o : Options) (storage : Storage)
    (args : List String) (closing : Option Failure) :
    run codec o (storage.closingInput closing) args = run codec o storage args := by
  have hprocess : ∀ (c : Codec α) (a : Arguments),
      process c o (storage.closingInput closing) a = process c o storage a := by
    intro c a
    have hopen : (storage.closingInput closing).openInput a.input
        = (storage.openInput a.input).map fun source =>
            { source with closeFailure := closing } := rfl
    rw [process, process, hopen]
    cases storage.openInput a.input with
    | error e => rfl
    | ok source => rfl
  simp only [run, hprocess]

/-! ## Main statement -/

/-- **A run ends at the first stage that fails.** The states that it logs are a beginning of the
itinerary, all of it exactly when the run succeeds. Else its failure names the last of these states
and the kind, the words and the path of the first stage that fails, whatever else fails behind it,
and one entry after all others reports the same. A run fails whenever a stage does, and how closing
the input ends does not matter. -/
theorem run_stops_at_first_failure {α : Type} (codec : Option (Codec α)) (o : Options)
    (storage : Storage) (args : List String) :
    let report := run codec o storage args
    transitions report.entries <+: itinerary
    ∧ ("done" ∈ transitions report.entries ↔ report.failure = none)
    ∧ (report.failure = none → report.entries.filter reportsFailure = [])
    ∧ (∀ c, codec = some c → report.failure ≠ none →
        ∃ stage e entry, Fails c o storage args stage e
          ∧ (∀ s ∈ stage.before, ∀ e', ¬ Fails c o storage args s e')
          ∧ report.failure = some (.atSite (stage.site args) e)
          ∧ (transitions report.entries).getLastD "start" = stage.state.name
          ∧ report.entries.filter reportsFailure = [entry]
          ∧ report.entries.getLast? = some entry ∧ Records entry (stage.site args) e)
    ∧ (∀ c stage e, codec = some c → Fails c o storage args stage e → report.failure ≠ none)
    ∧ ∀ closing, run codec o (storage.closingInput closing) args = report := by
  intro report
  cases codec with
  | none =>
      refine ⟨List.nil_prefix, ?_, ?_, ?_, ?_, run_closingInput _ o storage args⟩
      · simp [report, run, transitions]
      · simp [report, run]
      · intro c hcodec
        cases hcodec
      · intro c stage e hcodec
        cases hcodec
  | some c =>
      rcases run_outcome c o storage args with hcomplete | ⟨stage, e, hstops⟩
      · refine ⟨?_, ?_, ?_, ?_, ?_, run_closingInput _ o storage args⟩
        · exact hcomplete.transitions_eq ▸ List.prefix_rfl
        · simp [report, hcomplete.transitions_eq, hcomplete.failure_eq, itinerary]
        · exact fun _ => hcomplete.failures_eq
        · intro c' _ hfailure
          exact absurd hcomplete.failure_eq hfailure
        · rintro c' stage e hcodec hfails
          cases hcodec
          exact absurd hfails (hcomplete.passes stage e)
      · have hfailed : report.failure ≠ none := by simp [report, hstops.failure_eq]
        refine ⟨?_, ?_, ?_, ?_, ?_, run_closingInput _ o storage args⟩
        · exact hstops.transitions_eq ▸ List.take_prefix _ _
        · simp only [hfailed, iff_false]
          rw [show transitions report.entries = _ from hstops.transitions_eq]
          cases stage <;> decide
        · exact fun hnone => absurd hnone hfailed
        · intro c' hcodec _
          cases hcodec
          refine ⟨stage, e, failed (stage.site args) e, hstops.fails, hstops.first,
            hstops.failure_eq, ?_, hstops.failures_eq, hstops.last_eq, records_failed _ e⟩
          rw [show transitions report.entries = _ from hstops.transitions_eq]
          cases stage <;> rfl
        · exact fun _ _ _ _ _ => hfailed

/-- A full output that cannot be closed either, and an input whose closing fails too: the run
reports that the output is full. -/
theorem run_stops_at_first_failure_full_output :
    let storage : Storage :=
      ⟨fun _ => .ok ⟨[1, 2, 3], none, some (.plain "early")⟩,
        fun _ => .ok { Sink.ideal with
          capacity := some (2, .plain "full"), closeFailure := some (.plain "late") }⟩
    let codec : Codec Bytes := ⟨.ok, .once, id⟩
    (run (some codec) ⟨0, 1⟩ storage ["copy", "in", "out"]).failure
        = some (.atSite (encodeSite "out") (.plain "full"))
      ∧ Fails codec ⟨0, 1⟩ storage ["copy", "in", "out"] .close (.plain "late")
      ∧ Fails codec ⟨0, 1⟩ storage ["copy", "in", "out"] .encode (.plain "full")
      ∧ ∀ s ∈ Stage.encode.before, ∀ e, ¬ Fails codec ⟨0, 1⟩ storage ["copy", "in", "out"] s e := by
  intro storage codec
  have hfailure : (run (some codec) ⟨0, 1⟩ storage ["copy", "in", "out"]).failure
      = some (.atSite (encodeSite "out") (.plain "full")) := rfl
  obtain ⟨stage, e, -, hfails, hfirst, hsite, -⟩ :=
    (run_stops_at_first_failure (some codec) ⟨0, 1⟩ storage ["copy", "in", "out"]).2.2.2.1 codec rfl
      (by rw [hfailure]; exact Option.some_ne_none _)
  rw [hfailure] at hsite
  obtain ⟨hencode, rfl⟩ := Failure.atSite.inj (Option.some.inj hsite)
  have hstage : stage = .encode := by
    revert hencode
    cases stage <;> decide
  subst hstage
  exact ⟨hfailure, .close rfl rfl rfl, hfails, hfirst⟩

end RoundTrip.Run
