import RoundTrip.Proofs.Run.Integrity

/-!
# What a failure leaves behind

Once a run has created its output, the output holds a prefix of what was handed to the buffer,
wherever the run fails and whatever the output does with the writes. It holds all of it when the
failure comes after the last byte, and no other file has changed.

`Buffer.handed` counts the bytes up to and including the first write that meets a failure, as if
encoding stopped there; this is no more than the whole emission.

Main statement: `run_leaves_beginning`.
-/

set_option autoImplicit false

namespace RoundTrip.Run

open RoundTrip.Store

/-! ## Bytes that are handed over -/

namespace Buffer

/-- The bytes of a series of writes up to the first write that meets a failure. -/
def handed (b : Buffer) : List Write → Bytes
  | [] => []
  | w :: writes => if b.failure.isSome then [] else w.bytes ++ (b.step w).handed writes

variable {b : Buffer} {sink : Sink} {emitted : Bytes}

theorem handed_of_failed {e : Failure} (h : b.failure = some e) (writes : List Write) :
    b.handed writes = [] := by
  cases writes with
  | nil => rfl
  | cons w writes => simp [handed, h]

theorem handed_prefix (b : Buffer) (writes : List Write) :
    b.handed writes <+: writes.flatMap Write.bytes := by
  induction writes generalizing b with
  | nil => exact List.prefix_rfl
  | cons w writes ih =>
      rw [handed, List.flatMap_cons]
      split
      · exact List.nil_prefix
      · exact (List.prefix_append_right_inj w.bytes).2 (ih (b.step w))

/-- A buffer that has failed is not changed by a write. -/
theorem step_of_failed {e : Failure} (h : b.failure = some e) (w : Write) : b.step w = b := by
  have hflush : b.flush = b := by simp [flush, h]
  cases w with
  | byte byte => simp [step, put, hflush, h]
  | block bs => simp [step, write, h]

theorem emit_of_failed {e : Failure} (h : b.failure = some e) (writes : List Write) :
    b.emit writes = b := by
  induction writes with
  | nil => rfl
  | cons w writes ih =>
      rw [emit, List.foldl_cons, step_of_failed h w]
      exact ih

/-- The invariant holds with the bytes up to the first failure alone. -/
theorem Carries.emit_handed (h : b.Carries sink emitted) (writes : List Write) :
    (b.emit writes).Carries sink (emitted ++ b.handed writes) := by
  -- behind the first failure neither the buffer nor the count changes, so the induction ends there
  induction writes generalizing b emitted with
  | nil => exact (List.append_nil emitted).symm ▸ h
  | cons w writes ih =>
      cases hfail : b.failure with
      | some e =>
          rw [emit_of_failed hfail, handed_of_failed hfail, List.append_nil]
          exact h
      | none =>
          have hhanded : b.handed (w :: writes) = w.bytes ++ (b.step w).handed writes := by
            simp [handed, hfail]
          rw [hhanded, ← List.append_assoc]
          exact ih (h.step w)

end Buffer

/-- The bytes of an emission that are handed to the buffer before an output. -/
def handed (o : Options) (sink : Sink) (emission : Emission) : Bytes :=
  (Buffer.new o.bufferCapacity sink).handed emission.writes

theorem filled_carries_handed (o : Options) (sink : Sink) (emission : Emission) :
    (filled o sink emission).Carries sink (handed o sink emission) :=
  (Buffer.carries_new o.bufferCapacity sink).emit_handed emission.writes

/-- When nothing fails, everything is handed over. -/
theorem handed_eq_bytes {o : Options} {sink : Sink} {emission : Emission}
    (h : (filled o sink emission).flush.failure = none) :
    handed o sink emission = emission.bytes := by
  have hhanded := (filled_carries_handed o sink emission).stored_of_flush h
  have hbytes := (filled_carries o sink emission).stored_of_flush h
  exact hhanded.symm.trans hbytes

/-! ## Endings -/

/-- A run fails behind the last write: at the look at the status or the synchronisation, which are
parts of flushing, or when the output is closed. -/
inductive FailsLate (report : Report) (path : String) : Prop
  | look {e : Failure} :
      report.failure = some (.atSite (flushSite path) e) → Call.status ∈ report.calls →
      FailsLate report path
  | close {e : Failure} :
      report.failure = some (.atSite (closeSite path) e) → FailsLate report path

theorem FailsLate.of_eq {r report : Report} {path : String} (h : FailsLate report path)
    (hfailure : report.failure = r.failure) (hcalls : report.calls = r.calls) :
    FailsLate r path := by
  cases h with
  | look hflush hstatus =>
      rw [hfailure] at hflush
      rw [hcalls] at hstatus
      exact .look hflush hstatus
  | close hclose =>
      rw [hfailure] at hclose
      exact .close hclose

/-- What is left of an emission in the output. -/
theorem WriteEnding.leaves {o : Options} {path : String} {sink : Sink}
    {refused : Failure → Failure} {emission : Emission} {r : Report}
    (h : WriteEnding o path sink refused emission r) :
    ∃ left, r.stored = some (path, left) ∧ left <+: handed o sink emission
      ∧ (FailsLate r path → left = emission.bytes) := by
  have hcarries := filled_carries_handed o sink emission
  cases h with
  | unencoded _ =>
      refine ⟨_, rfl, hcarries.contents_prefix, fun hlate => ?_⟩
      -- encoding, flushing and closing are reported at sites of their own
      cases hlate with
      | look hfailure _ => simp [encodeSite, flushSite] at hfailure
      | close hfailure => simp [encodeSite, closeSite] at hfailure
  | unflushed _ _ _ =>
      refine ⟨_, rfl, hcarries.flush.contents_prefix, fun hlate => ?_⟩
      -- the last write has failed, so the status has not been looked at
      cases hlate with
      | look _ hstatus => simp [Output.calls] at hstatus
      | close hfailure => simp [flushSite, closeSite] at hfailure
  | unsettled _ hflush _ =>
      rw [handed_eq_bytes hflush]
      exact ⟨_, rfl, List.prefix_rfl, fun _ => rfl⟩
  | unclosed _ hflush _ _ =>
      rw [handed_eq_bytes hflush]
      exact ⟨_, rfl, List.prefix_rfl, fun _ => rfl⟩
  | complete _ hflush _ _ =>
      rw [handed_eq_bytes hflush]
      exact ⟨_, rfl, List.prefix_rfl, fun _ => rfl⟩

/-- A run that comes to the creation of its output, and whose output can be created, writes to it. -/
theorem Ending.of_create {α : Type} {codec : Codec α} {o : Options} {storage : Storage}
    {a : Arguments} {r : Report} (h : Ending codec o storage a r) {sink : Sink}
    (hcall : Call.create a.output o.outputPermission ∈ r.calls)
    (hcreate : storage.create a.output = .ok sink) :
    ∃ bs value left, Reads storage a.input bs ∧ codec.decode bs = .ok value
      ∧ r.stored = some (a.output, left) ∧ left <+: handed o sink (codec.encode value)
      ∧ (FailsLate r a.output → left = (codec.encode value).bytes) := by
  cases h with
  | unopened _ => simp at hcall
  | unread _ _ => simp at hcall
  | undecoded _ _ => simp at hcall
  | uncreated _ _ hrefused =>
      rw [hcreate] at hrefused
      cases hrefused
  | @written bs value _ r hreads hdecode hcreated hwrite =>
      rw [hcreate] at hcreated
      cases hcreated
      obtain ⟨left, hstored, hprefix, hwhole⟩ := hwrite.leaves
      refine ⟨bs, value, left, hreads, hdecode, hstored, hprefix, fun hlate => hwhole ?_⟩
      cases hlate with
      | look hfailure hstatus => exact .look hfailure (by simpa using hstatus)
      | close hfailure => exact .close hfailure

/-- A run stores nothing except at its output path. -/
theorem Ending.stored_path {α : Type} {codec : Codec α} {o : Options} {storage : Storage}
    {a : Arguments} {r : Report} (h : Ending codec o storage a r) :
    r.stored = none ∨ ∃ left, r.stored = some (a.output, left) := by
  cases h with
  | unopened _ => exact Or.inl rfl
  | unread _ _ => exact Or.inl rfl
  | undecoded _ _ => exact Or.inl rfl
  | uncreated _ _ _ => exact Or.inl rfl
  | written _ _ _ hwrite =>
      obtain ⟨left, hstored, -, -⟩ := hwrite.leaves
      exact Or.inr ⟨left, hstored⟩

/-! ## Main statement -/

/-- **A failure leaves a prefix of the encoding behind.** Under every plan of faults no path but that
of the output changes. Once the output has been created, the input has been decoded to a value, and
the output holds a prefix of the bytes of that value that were handed to the buffer. It holds all of
them when the failing step is the look at the status, the synchronisation or the closing. -/
theorem run_leaves_beginning {α : Type} (codec : Option (Codec α)) (o : Options) (files : Files)
    (faults : Faults) (args : List String) :
    let report := run codec o (files.storage faults) args
    let output := args.getD 2 ""
    (∀ path, path ≠ output → (files.after report).get? path = files.get? path)
    ∧ (Call.create output o.outputPermission ∈ report.calls → faults.create = none →
        ∃ c bs value left, codec = some c ∧ files.get? (args.getD 1 "") = some bs
          ∧ c.decode bs = .ok value ∧ (files.after report).get? output = some left
          ∧ left <+: handed o faults.output (c.encode value)
          ∧ handed o faults.output (c.encode value) <+: (c.encode value).bytes
          ∧ (FailsLate report output → left = (c.encode value).bytes)) := by
  intro report output
  cases run_execution codec o (files.storage faults) args with
  | idle _ _ hcalls hstored =>
      refine ⟨?_, ?_⟩
      · intro path _
        rw [Files.after_eq_self hstored]
      · intro hcall
        rw [hcalls] at hcall
        cases hcall
  | @proceeds c a r hcodec hin hout _ _ hending hfailure hcalls hstored =>
      have hpath : output = a.output := hout.symm
      rw [hpath, ← hin]
      refine ⟨?_, ?_⟩
      · intro other hother
        rcases hending.stored_path with hnothing | ⟨left, hleft⟩
        · rw [Files.after_eq_self (hstored.trans hnothing)]
        · rw [Files.after_eq_insert (hstored.trans hleft), Files.get?_insert_of_ne files _ hother]
      · intro hcall hcreate
        have hsink : (files.storage faults).create a.output = .ok faults.output := by
          simp only [Files.storage, hcreate]
        rw [hcalls] at hcall
        obtain ⟨bs, value, left, hreads, hdecode, hleft, hprefix, hwhole⟩ :=
          hending.of_create hcall hsink
        refine ⟨c, bs, value, left, hcodec, (reads_files hreads).1, hdecode, ?_, hprefix, ?_, ?_⟩
        · rw [Files.after_eq_insert (hstored.trans hleft), Files.get?_insert_self]
        · exact Buffer.handed_prefix _ _
        · intro hlate
          apply hwhole
          exact hlate.of_eq hfailure hcalls

/-- An output that stores two bytes at once and cannot be synchronised, in place of a longer file:
the run fails, and the output holds the five bytes of the encoding and nothing of the older file. -/
theorem run_leaves_beginning_unsynchronised :
    let files : Files := [("in", [1, 2, 3, 4, 5]), ("out", [9, 9, 9, 9, 9, 9, 9])]
    let faults : Faults := { Faults.none with
      output := { Sink.ideal with atOnce := some 2, syncFailure := some (.plain "late") } }
    let report := run (some (⟨.ok, .once, id⟩ : Codec Bytes)) ⟨0, 2⟩ (files.storage faults)
      ["copy", "in", "out"]
    Call.create "out" 0x1a4 ∈ report.calls ∧ FailsLate report "out"
      ∧ (files.after report).get? "out" = some [1, 2, 3, 4, 5] := by
  intro files faults report
  have hcall : Call.create "out" 0x1a4 ∈ report.calls := by decide
  have hlate : FailsLate report "out" :=
    .look (e := .plain "late") (by decide) (by decide)
  obtain ⟨c, bs, value, left, hc, hin, hdecode, hleft, -, -, hwhole⟩ :=
    (run_leaves_beginning (some (⟨.ok, .once, id⟩ : Codec Bytes)) ⟨0, 2⟩ files faults
      ["copy", "in", "out"]).2 hcall rfl
  cases hc
  cases hin
  cases hdecode
  refine ⟨hcall, hlate, hleft.trans ?_⟩
  rw [hwhole hlate]
  rfl

end RoundTrip.Run
