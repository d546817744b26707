import RoundTrip.Log.Entry
import RoundTrip.Run.Storage

/-!
# Reports

What a run did: how it ended, what it logged, which calls it made, and what it left in its
output. A report is put together from its end: what happens first is put before a report of what
follows.

Main definitions: `Report`, `Report.after`, `reached`, `failed`.
-/

set_option autoImplicit false

namespace RoundTrip.Run

/-! ## Log entries of a run -/

/-- The entry of a state that has been reached. -/
def reached (state : State) (fields : List Log.Field) : Log.Entry :=
  ⟨.debug, "unictest.transition", ("state", .text state.name) :: fields⟩

/-- The entry of extra arguments. -/
def extraArguments (extra : List String) : Log.Entry :=
  ⟨.warn, "ignoring extra arguments", [("extra", .texts extra)]⟩

/-- The entry of a failure at a site. -/
def failed (site : Site) (e : Failure) : Log.Entry :=
  let fields : List Log.Field :=
    [("kind", .text site.kind.name), ("state", .text site.state.name), ("op", .text site.op),
      ("err", .failure e.message)]
      ++ if site.path.isEmpty then [] else [("path", .text site.path)]
  if site.recoverable then ⟨.warn, "unictest.decode_rejected", fields⟩
  else ⟨.error, "unictest.abort", fields⟩

/-! ## Reports -/

/-- What a run did. -/
structure Report where
  /-- The failure that ended the run; a complete run has none. -/
  failure : Option Failure
  /-- The log entries, in order. -/
  entries : List Log.Entry
  /-- The calls on the storage, in order. -/
  calls : List Call
  /-- The path and the final contents of the output, once it has been created. -/
  stored : Option (String × Bytes)
  deriving DecidableEq, Repr

namespace Report

/-- A run that is complete. -/
def complete : Report := ⟨none, [reached .done []], [], none⟩

/-- A run that fails at a site. -/
def stop (site : Site) (e : Failure) : Report :=
  ⟨some (.atSite site e), [failed site e], [], none⟩

/-- A report with entries before its own ones. -/
def logged (r : Report) (entries : List Log.Entry) : Report :=
  { r with entries := entries ++ r.entries }

/-- A report with calls before its own ones. -/
def called (r : Report) (calls : List Call) : Report :=
  { r with calls := calls ++ r.calls }

/-- A report in which a state is reached first. -/
def after (r : Report) (state : State) (fields : List Log.Field) : Report :=
  r.logged [reached state fields]

end Report

end RoundTrip.Run
