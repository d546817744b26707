import RoundTrip.Proofs.Run.Integrity

/-!
# The calls of a run

The calls that a run makes on its storage follow a protocol, whatever the storage answers: the input
is opened and closed, then the output is opened, written, looked at and closed, and a run may end
after some of these calls (`Protocol`).

`replay` follows a list of calls with the file that is open between them. It has no answer for a call
on a file that is not open, and none for a file that is opened while another one is. A run can be
replayed, and leaves nothing open.

Main statement: `run_calls_protocol`.
-/

set_option autoImplicit false

namespace RoundTrip.Run

/-! ## Words of calls -/

/-- The last look at an output: none, its status, or its status and then a synchronisation. -/
inductive LastLook : List Call → Prop
  | none : LastLook []
  | status : LastLook [.status]
  | sync : LastLook [.status, .sync]

/-- The lists of calls that a run may make. -/
inductive Protocol (input output : String) (permission : Nat) : List Call → Prop
  | idle : Protocol input output permission []
  | opening : Protocol input output permission [.openInput input]
  | reading : Protocol input output permission [.openInput input, .close input]
  | creating :
      Protocol input output permission
        [.openInput input, .close input, .create output permission]
  | writing (offers : List Nat) {look : List Call} :
      LastLook look →
      Protocol input output permission
        ([.openInput input, .close input, .create output permission]
          ++ (offers.map .write ++ look ++ [.close output]))

/-- The call belongs to the last look at an output. -/
def Call.looks (call : Call) : Prop := call = .status ∨ call = .sync

/-- Nothing is written behind the last look. -/
def WritesFirst (calls : List Call) : Prop :=
  calls.Pairwise fun earlier later => earlier.looks → ∀ offered, later ≠ .write offered

theorem LastLook.writesFirst {offers : List Nat} {look : List Call} (h : LastLook look)
    (path : String) : WritesFirst (offers.map .write ++ look ++ [.close path]) := by
  have hwrites : (offers.map Call.write).Pairwise
      fun earlier later => earlier.looks → ∀ offered, later ≠ .write offered := by
    rw [List.pairwise_map]
    exact List.pairwise_of_forall fun _ _ hlooks => by simp [Call.looks] at hlooks
  rw [WritesFirst, List.append_assoc]
  refine List.pairwise_append.2 ⟨hwrites, ?_, ?_⟩
  · cases h <;> simp
  · intro earlier hearlier later _ hlooks
    obtain ⟨offered, -, rfl⟩ := List.mem_map.1 hearlier
    simp [Call.looks] at hlooks

theorem Protocol.writesFirst {input output : String} {permission : Nat} {calls : List Call}
    (h : Protocol input output permission calls) : WritesFirst calls := by
  cases h with
  | idle => exact .nil
  | opening => simp [WritesFirst]
  | reading => simp [WritesFirst]
  | creating => simp [WritesFirst]
  | writing offers hlook =>
      refine List.pairwise_append.2 ⟨by simp, hlook.writesFirst output, ?_⟩
      intro earlier hearlier later _ hlooks
      rcases hlooks with rfl | rfl <;> simp at hearlier

/-! ## Open files -/

/-- What is open between two calls. -/
inductive Opened where
  | nothing
  | input (path : String)
  /-- The output, and whether the last look at it has begun. -/
  | output (path : String) (looked : Bool)
  deriving DecidableEq, Repr

namespace Opened

/-- What is open after a call. There is no answer to a call on a file that is not open, to the
opening of a file while another one is open, and to a write behind the last look. -/
def after? (storage : Storage) : Opened → Call → Option Opened
  | nothing, .openInput path =>
      some (if (storage.openInput path).isOk then input path else nothing)
  | nothing, .create path _ =>
      some (if (storage.create path).isOk then output path false else nothing)
  | input path, .close other => if other = path then some nothing else none
  | output path _, .close other => if other = path then some nothing else none
  | output path false, .write _ => some (output path false)
  | output path false, .status => some (output path true)
  | output path true, .sync => some (output path true)
  | _, _ => none

/-- How often a path is open. -/
def count (path : String) : Opened → Nat
  | nothing => 0
  | input other => if other = path then 1 else 0
  | output other _ => if other = path then 1 else 0

end Opened

/-- What is open after a list of calls. -/
def replay (storage : Storage) : Opened → List Call → Option Opened
  | opened, [] => some opened
  | opened, call :: calls =>
      match opened.after? storage call with
      | some next => replay storage next calls
      | none => none

section Replay

variable {storage : Storage} {opened opened' : Opened} {calls calls' : List Call}

theorem replay_append (h : replay storage opened calls = some opened') :
    replay storage opened (calls ++ calls') = replay storage opened' calls' := by
  induction calls generalizing opened with
  | nil =>
      cases h
      rfl
  | cons call calls ih =>
      rw [replay] at h
      rw [List.cons_append, replay]
      cases hnext : opened.after? storage call with
      | none =>
          rw [hnext] at h
          cases h
      | some next =>
          rw [hnext] at h
          exact ih h

/-- Writes leave an output open. -/
theorem replay_writes (storage : Storage) (path : String) (offers : List Nat) :
    replay storage (.output path false) (offers.map .write) = some (.output path false) := by
  induction offers with
  | nil => rfl
  | cons offered offers ih => exact ih

theorem LastLook.replay {look : List Call} (h : LastLook look) (storage : Storage)
    (path : String) :
    ∃ looked, Run.replay storage (.output path false) look = some (.output path looked) := by
  cases h with
  | none => exact ⟨false, rfl⟩
  | status => exact ⟨true, rfl⟩
  | sync => exact ⟨true, rfl⟩

/-- An output that is written and looked at is closed in the end. -/
theorem LastLook.replay_close {look : List Call} (h : LastLook look) (storage : Storage)
    (path : String) (offers : List Nat) :
    Run.replay storage (.output path false) (offers.map .write ++ look ++ [.close path])
      = some .nothing := by
  obtain ⟨looked, hlook⟩ := h.replay storage path
  rw [List.append_assoc, replay_append (replay_writes storage path offers), replay_append hlook]
  simp [Run.replay, Opened.after?]

/-! ## Openings and closings -/

/-- The call opens the file at a path. -/
def Call.opens (storage : Storage) (path : String) : Call → Bool
  | openInput other => decide (other = path) && (storage.openInput other).isOk
  | create other _ => decide (other = path) && (storage.create other).isOk
  | _ => false

/-- One call: a path that it opens is open more often by one, and one that it closes less often. -/
theorem Opened.count_after {call : Call} (path : String)
    (h : opened.after? storage call = some opened') :
    opened.count path + (if call.opens storage path then 1 else 0)
      = opened'.count path + if call == .close path then 1 else 0 := by
  -- the calls without an answer in a state are no steps from it
  cases opened with
  | nothing =>
      cases call with
      | openInput other =>
          cases h
          cases hok : (storage.openInput other).isOk <;> simp [Opened.count, Call.opens, hok]
      | create other permission =>
          cases h
          cases hok : (storage.create other).isOk <;> simp [Opened.count, Call.opens, hok]
      | _ => cases h
  | input other =>
      cases call with
      | close closed =>
          obtain ⟨rfl, rfl⟩ : closed = other ∧ opened' = .nothing := by
            simpa [Opened.after?, eq_comm] using h
          simp [Opened.count, Call.opens]
      | _ => cases h
  | output other looked =>
      cases call with
      | close closed =>
          obtain ⟨rfl, rfl⟩ : closed = other ∧ opened' = .nothing := by
            simpa [Opened.after?, eq_comm] using h
          simp [Opened.count, Call.opens]
      | write offered =>
          cases looked <;> cases h
          rfl
      | status =>
          cases looked <;> cases h
          rfl
      | sync =>
          cases looked <;> cases h
          rfl
      | _ => cases looked <;> cases h

/-- A list of calls opens a path as often as it closes it, up to what is open before and after
it. -/
theorem replay_count (path : String) (h : replay storage opened calls = some opened') :
    opened.count path + calls.countP (·.opens storage path)
      = opened'.count path + calls.count (.close path) := by
  induction calls generalizing opened with
  | nil =>
      cases h
      rfl
  | cons call calls ih =>
      rw [replay] at h
      cases hnext : opened.after? storage call with
      | none =>
          rw [hnext] at h
          cases h
      | some next =>
          rw [hnext] at h
          have hcall := Opened.count_after path hnext
          have hcalls := ih h
          rw [List.countP_cons, List.count_cons]
          omega

/-- An input that has been opened and closed is not open any more. -/
theorem replay_input {path : String} {source : Source}
    (hopen : storage.openInput path = .ok source) :
    replay storage .nothing [.openInput path, .close path] = some .nothing := by
  simp [replay, Opened.after?, hopen, Except.isOk, Except.toBool]

end Replay

/-! ## Endings -/

theorem lastLook_settle (sink : Sink) : LastLook (settle sink).1 := by
  unfold settle
  cases sink.statusFailure with
  | some e => exact .status
  | none =>
      cases sink.regular with
      | true => exact .sync
      | false => exact .status

/-- Writing ends with a last look and the closing of the output. A regular file is synchronised
when nothing fails. -/
theorem WriteEnding.calls_eq {o : Options} {path : String} {sink : Sink}
    {refused : Failure → Failure} {emission : Emission} {r : Report}
    (h : WriteEnding o path sink refused emission r) :
    ∃ (offers : List Nat) (look : List Call), LastLook look
      ∧ r.calls = offers.map .write ++ look ++ [.close path]
      ∧ (r.failure = none → sink.regular = true → look = [.status, .sync]) := by
  have hlook := lastLook_settle sink
  cases h with
  -- without a last flush the output is closed as it is
  | unencoded _ => exact ⟨_, [], .none, by rw [List.append_nil]; rfl, nofun⟩
  | unflushed _ _ _ => exact ⟨_, [], .none, by rw [List.append_nil]; rfl, nofun⟩
  | unsettled _ _ hsettle =>
      rw [hsettle] at hlook
      exact ⟨_, _, hlook, rfl, nofun⟩
  | unclosed _ _ hsettle _ =>
      rw [hsettle] at hlook
      exact ⟨_, _, hlook, rfl, nofun⟩
  | @complete calls _ _ hsettle _ =>
      rw [hsettle] at hlook
      refine ⟨_, _, hlook, rfl, fun _ hregular => ?_⟩
      -- only the kind of the file decides about the synchronisation when the status is known
      unfold settle at hsettle
      cases hstatus : sink.statusFailure with
      | some e =>
          rw [hstatus] at hsettle
          cases hsettle
      | none =>
          rw [hstatus, hregular] at hsettle
          exact (congrArg Prod.fst hsettle).symm

section Endings

variable {α : Type} {codec : Codec α} {o : Options} {storage : Storage} {a : Arguments}
  {r : Report}

/-- The calls of a run that has both paths are a word that is not empty. -/
theorem Ending.protocol (h : Ending codec o storage a r) :
    Protocol a.input a.output o.outputPermission r.calls ∧ r.calls ≠ [] := by
  cases h with
  | unopened _ => exact ⟨.opening, nofun⟩
  | unread _ _ => exact ⟨.reading, nofun⟩
  | undecoded _ _ => exact ⟨.reading, nofun⟩
  | uncreated _ _ _ => exact ⟨.creating, nofun⟩
  | written _ _ _ hwrite =>
      obtain ⟨offers, look, hlook, hcalls, -⟩ := hwrite.calls_eq
      rw [hcalls]
      exact ⟨.writing offers hlook, nofun⟩

/-- Every file that such a run has opened is closed. -/
theorem Ending.replay (h : Ending codec o storage a r) :
    Run.replay storage .nothing r.calls = some .nothing := by
  cases h with
  | unopened hopen => simp [Run.replay, Opened.after?, hopen, Except.isOk, Except.toBool]
  | unread hopen _ => exact replay_input hopen
  | undecoded hreads _ =>
      obtain ⟨source, hopen, -⟩ := hreads
      exact replay_input hopen
  | uncreated hreads _ hcreate =>
      obtain ⟨source, hopen, -⟩ := hreads
      refine (replay_append (replay_input hopen)).trans ?_
      simp [Run.replay, Opened.after?, hcreate, Except.isOk, Except.toBool]
  | @written _ _ sink r hreads _ hcreate hwrite =>
      obtain ⟨source, hopen, -⟩ := hreads
      obtain ⟨offers, look, hlook, hcalls, -⟩ := hwrite.calls_eq
      have hcreated : Run.replay storage .nothing [.create a.output o.outputPermission]
          = some (.output a.output false) := by
        simp [Run.replay, Opened.after?, hcreate, Except.isOk, Except.toBool]
      -- nothing is open when the output is created, even if both paths are the same
      dsimp only
      rw [hcalls]
      refine (replay_append (replay_input hopen)).trans ?_
      exact (replay_append hcreated).trans (hlook.replay_close storage a.output offers)

/-- A run that succeeds on a regular output synchronises it between the last write and the
closing. -/
theorem Ending.synchronised (h : Ending codec o storage a r) (hnone : r.failure = none)
    {sink : Sink} (hcreate : storage.create a.output = .ok sink) (hregular : sink.regular = true) :
    ∃ front, r.calls = front ++ [.status, .sync, .close a.output] ∧ Call.sync ∉ front := by
  cases h with
  | unopened _ => cases hnone
  | unread _ _ => cases hnone
  | undecoded _ _ => cases hnone
  | uncreated _ _ _ => cases hnone
  | written _ _ hcreate' hwrite =>
      rw [hcreate] at hcreate'
      cases hcreate'
      obtain ⟨offers, look, -, hcalls, hsync⟩ := hwrite.calls_eq
      obtain rfl := hsync hnone hregular
      refine ⟨[.openInput a.input, .close a.input, .create a.output o.outputPermission]
        ++ offers.map .write, ?_, by simp⟩
      rw [hcalls]
      simp

end Endings

/-! ## Main statement -/

/-- **The calls of a run follow the protocol.** Whatever the storage answers, the calls are a word of
`Protocol`. Every file that was opened is closed exactly once, the input before the output is opened,
and nothing is written behind the last look. There are no calls exactly when there is no codec or a
path is missing or empty. A run that succeeds on a regular output synchronises it behind the last
write and before it closes it. -/
theorem run_calls_protocol {α : Type} (codec : Option (Codec α)) (o : Options) (storage : Storage)
    (args : List String) :
    let report := run codec o storage args
    let input := args.getD 1 ""
    let output := args.getD 2 ""
    Protocol input output o.outputPermission report.calls
    ∧ replay storage .nothing report.calls = some .nothing
    ∧ (∀ path, report.calls.count (.close path) = report.calls.countP (·.opens storage path))
    ∧ WritesFirst report.calls
    ∧ (report.calls = [] ↔ codec = none ∨ input = "" ∨ output = "")
    ∧ (report.failure = none → ∀ sink, storage.create output = .ok sink → sink.regular = true →
        ∃ front, report.calls = front ++ [.status, .sync, .close output]
          ∧ Call.sync ∉ front) := by
  intro report input output
  -- what is closed is what was opened, as soon as the calls can be replayed
  have hcount : replay storage .nothing report.calls = some .nothing → ∀ path,
      report.calls.count (.close path) = report.calls.countP (·.opens storage path) := by
    intro hreplay path
    have hbalance := replay_count path hreplay
    simpa [Opened.count] using hbalance.symm
  cases run_execution codec o storage args with
  | idle hmissing hfailure hcalls _ =>
      have hreplay : replay storage .nothing report.calls = some .nothing := hcalls ▸ rfl
      refine ⟨hcalls ▸ .idle, hreplay, hcount hreplay, hcalls ▸ .nil, ?_, ?_⟩
      · exact iff_of_true hcalls hmissing
      · intro hnone
        rw [hfailure] at hnone
        cases hnone
  | @proceeds c a r hcodec hin hout hinput houtput hending hfailure hcalls _ =>
      obtain ⟨hprotocol, hsome⟩ := hending.protocol
      have hreplay := hending.replay
      rw [← hcalls] at hprotocol hsome hreplay
      rw [hin, hout] at hprotocol
      refine ⟨hprotocol, hreplay, hcount hreplay, hprotocol.writesFirst, ?_, ?_⟩
      · apply iff_of_false hsome
        rintro (hnone | hempty | hempty)
        · rw [hcodec] at hnone
          cases hnone
        · exact hinput (hin.trans hempty)
        · exact houtput (hout.trans hempty)
      · intro hnone sink hcreate hregular
        have hpath : output = a.output := hout.symm
        rw [hpath] at hcreate ⊢
        obtain ⟨front, hfront, hsync⟩ :=
          hending.synchronised (hfailure.symm.trans hnone) hcreate hregular
        exact ⟨front, hcalls.trans hfront, hsync⟩

/-- A file of five bytes copied onto itself through a buffer of two bytes, with at most three bytes
stored at once: the path is opened twice and closed twice, and the synchronisation comes last. -/
theorem run_calls_protocol_same_path :
    let storage := Store.Files.storage [("x", [1, 2, 3, 4, 5])]
      ⟨none, none, none, { Sink.ideal with atOnce := some 3 }, none⟩
    let report := run (some (⟨.ok, .once, id⟩ : Codec Bytes)) ⟨0, 2⟩ storage ["copy", "x", "x"]
    report.failure = none ∧ report.calls.countP (·.opens storage "x") = 2
      ∧ report.calls.count (.close "x") = 2
      ∧ ∃ front, report.calls = front ++ [.status, .sync, .close "x"] ∧ Call.sync ∉ front := by
  intro storage report
  have hnone : report.failure = none := by decide
  have hopened : report.calls.countP (·.opens storage "x") = 2 := by decide
  obtain ⟨-, -, hcount, -, -, hsync⟩ := run_calls_protocol
    (some (⟨.ok, .once, id⟩ : Codec Bytes)) ⟨0, 2⟩ storage ["copy", "x", "x"]
  exact ⟨hnone, hopened, (hcount "x").trans hopened, hsync hnone _ rfl rfl⟩

end RoundTrip.Run
