import RoundTrip.Run.Harness

/-!
# A flat store

Files under paths, without directories: two paths are the same file when they are the same text.
A plan of faults says which steps of a run the store refuses.

Main definitions: `Files`, `Files.insert`, `Files.erase`, `Faults`, `Files.storage`,
`Files.after`. Main facts: `Files.get?_insert_self` and `Files.get?_insert_of_ne`.
-/

set_option autoImplicit false

namespace RoundTrip.Store

open RoundTrip.Run

/-! ## Files -/

/-- Files and their paths, each path once. -/
abbrev Files := List (String × Bytes)

namespace Files

/-- The contents of the file at a path. -/
def get? (files : Files) (path : String) : Option Bytes := files.lookup path

/-- The files without the one at a path. -/
def erase (files : Files) (path : String) : Files := files.filter fun f => f.1 != path

/-- The files with the given contents at a path. -/
def insert (files : Files) (path : String) (bs : Bytes) : Files :=
  (path, bs) :: files.erase path

/-- The files after a run: its output is put in place. -/
def after (files : Files) (r : Report) : Files :=
  match r.stored with
  | none => files
  | some (path, bs) => files.insert path bs

theorem after_eq_self {files : Files} {r : Report} (h : r.stored = none) :
    files.after r = files := by
  rw [after, h]

theorem after_eq_insert {files : Files} {r : Report} {path : String} {bs : Bytes}
    (h : r.stored = some (path, bs)) : files.after r = files.insert path bs := by
  rw [after, h]

@[simp] theorem get?_insert_self (files : Files) (path : String) (bs : Bytes) :
    (files.insert path bs).get? path = some bs := by
  simp [insert, get?]

theorem get?_cons_of_ne (files : Files) {path other : String} (bs : Bytes) (h : other ≠ path) :
    get? ((path, bs) :: files) other = files.get? other := by
  simp [get?, List.lookup_cons, beq_eq_false_iff_ne.2 h]

theorem get?_erase_of_ne (files : Files) {path other : String} (h : other ≠ path) :
    (files.erase path).get? other = files.get? other := by
  induction files with
  | nil => rfl
  | cons f files ih =>
      rcases f with ⟨name, bs⟩
      by_cases hname : name = path
      · subst hname
        rw [get?_cons_of_ne files bs h, ← ih]
        simp [erase]
      · have herase : erase ((name, bs) :: files) path = (name, bs) :: erase files path := by
          simp [erase, hname]
        rw [herase]
        by_cases hother : other = name
        · simp [get?, hother]
        · rw [get?_cons_of_ne _ bs hother, get?_cons_of_ne _ bs hother, ih]

/-- Putting a file in place changes no other one. -/
theorem get?_insert_of_ne (files : Files) {path other : String} (bs : Bytes) (h : other ≠ path) :
    (files.insert path bs).get? other = files.get? other := by
  rw [insert, get?_cons_of_ne _ bs h, get?_erase_of_ne files h]

end Files

/-! ## Faults -/

/-- The steps of a run that a store refuses, each with its failure. -/
structure Faults where
  /-- Opening the input. -/
  openInput : Option Failure
  /-- Reading the input, as soon as the given number of bytes has been read. -/
  read : Option (Nat × Failure)
  /-- Creating the output. -/
  create : Option Failure
  /-- What the created output refuses. -/
  output : Sink
  /-- Closing the input. -/
  closeInput : Option Failure := .none
  deriving DecidableEq, Repr

namespace Faults

/-- The plan that refuses nothing. -/
def none : Faults := ⟨.none, .none, .none, .ideal, .none⟩

/-- The input with the given contents under a plan. Reading asks for more until it meets the end
of the file, so it also meets a fault that lies there. -/
def source (faults : Faults) (contents : Bytes) : Source :=
  match faults.read with
  | .none => ⟨contents, .none, faults.closeInput⟩
  | some (n, e) =>
      if n ≤ contents.length then ⟨contents.take n, some e, faults.closeInput⟩
      else ⟨contents, .none, faults.closeInput⟩

end Faults

/-- The failure of opening a file that is not there. -/
def absent (path : String) : Failure := .within ("open " ++ path) (.known .notFound)

/-- Files under a plan of faults, as a run sees them. -/
def Files.storage (files : Files) (faults : Faults) : Storage where
  openInput path :=
    match faults.openInput with
    | some e => .error e
    | none =>
        match files.get? path with
        | some contents => .ok (faults.source contents)
        | none => .error (absent path)
  create _ :=
    match faults.create with
    | some e => .error e
    | none => .ok faults.output

/-- The codec that writes the given bytes in place of every value and then fails. -/
def sabotaged {α : Type} (codec : Codec α) (bs : Bytes) (e : Failure) : Codec α :=
  { codec with encode := fun _ => ⟨[.block bs], some e⟩ }

end RoundTrip.Store
