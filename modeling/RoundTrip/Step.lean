import RoundTrip.Bytes

/-!
# Steps

A step reads one thing from the front of an input and returns it with the rest. The
readers of the formats are built from steps; this module repeats them.

Main facts: `Step.times_zero` and `Step.times_succ` say how a repetition unfolds, and
`Step.bind_eq_ok` when two steps succeed one after the other.
-/

set_option autoImplicit false

namespace RoundTrip

/-- A reader of one thing from the front of an input. -/
abbrev Step (ε α : Type) := Bytes → Except ε (α × Bytes)

namespace Step

variable {ε α : Type}

/-- A series of two steps succeeds when the first one does and then the second one. -/
theorem bind_eq_ok {β : Type} {x : Except ε α} {f : α → Except ε β} {b : β} :
    (x >>= f) = .ok b ↔ ∃ a, x = .ok a ∧ f a = .ok b := by
  cases x with
  | error e => simp [bind, Except.bind]
  | ok a => simp [bind, Except.bind]

/-- Another wording of the errors changes no success. -/
theorem mapError_eq_ok {ε' : Type} {x : Except ε α} {f : ε → ε'} {a : α} :
    x.mapError f = .ok a ↔ x = .ok a := by
  constructor
  · intro h
    cases x with
    | error e => cases h
    | ok b =>
        cases h
        rfl
  · rintro rfl
    rfl

theorem mapError_eq_error {ε' : Type} {x : Except ε α} {f : ε → ε'} {e : ε'} :
    x.mapError f = .error e ↔ ∃ e', x = .error e' ∧ f e' = e := by
  constructor
  · intro h
    cases x with
    | error e' =>
        cases h
        exact ⟨e', rfl, rfl⟩
    | ok b => cases h
  · rintro ⟨e', rfl, rfl⟩
    rfl

/-- The next `n` things behind those already read (in reverse). -/
def timesLoop (step : Step ε α) : Nat → List α → Step ε (List α)
  | 0, done, bs => .ok (done.reverse, bs)
  | n + 1, done, bs =>
      match step bs with
      | .ok (a, rest) => timesLoop step n (a :: done) rest
      | .error e => .error e

/-- The next `n` things. -/
def times (step : Step ε α) (n : Nat) : Step ε (List α) := timesLoop step n []

theorem timesLoop_eq (step : Step ε α) (n : Nat) (done : List α) (bs : Bytes) :
    timesLoop step n done bs = (times step n bs).map fun r => (done.reverse ++ r.1, r.2) := by
  induction n generalizing done bs with
  | zero => simp [times, timesLoop, Except.map]
  | succ n ih =>
      rw [times, timesLoop, timesLoop]
      cases step bs with
      | error e => rfl
      | ok r =>
          simp only
          rw [ih, ih [r.1]]
          cases times step n r.2 <;> simp [Except.map]

@[simp] theorem times_zero (step : Step ε α) (bs : Bytes) : times step 0 bs = .ok ([], bs) := rfl

/-- Reading one thing more reads it first. -/
theorem times_succ (step : Step ε α) (n : Nat) (bs : Bytes) :
    times step (n + 1) bs =
      match step bs with
      | .ok (a, rest) => (times step n rest).map fun r => (a :: r.1, r.2)
      | .error e => .error e := by
  rw [times, timesLoop]
  cases step bs with
  | error e => rfl
  | ok r => simp [timesLoop_eq]

end Step

end RoundTrip
