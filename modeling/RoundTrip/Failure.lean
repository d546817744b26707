import RoundTrip.Run.State
import RoundTrip.Word

/-!
# Failures

A failure is a leaf (a text, a known cause, or left-over input) inside any number of
labels and run sites. Its message is read from the outside in; the causes that it
matches are those of its leaf, and its exit status is decided by its outermost site.

Main definitions: `Cause`, `Failure`, `Failure.message`, `Failure.causes`,
`Failure.site?`, `exitStatus`.
-/

set_option autoImplicit false

namespace RoundTrip

/-! ## Causes -/

/-- A cause that a caller can test a failure for. -/
inductive Cause where
  /-- Input is left over after a complete value. -/
  | trailingBytes
  /-- The input is longer than the limit. -/
  | tooLarge
  /-- The bytes are not a frame. -/
  | corruptFrame
  /-- The frame has no encoding. -/
  | invalidFrame
  /-- The document starts with white space. -/
  | leadingWhitespace
  /-- The message holds fields outside its schema. -/
  | unknownFields
  /-- The message is not written in its shortest form. -/
  | nonCanonical
  /-- No input path was given. -/
  | missingInput
  /-- No output path was given. -/
  | missingOutput
  /-- The input ends inside a value. -/
  | unexpectedEnd
  /-- The input ends where a value should start. -/
  | endOfInput
  /-- There is no such file. -/
  | notFound
  deriving DecidableEq, Repr

namespace Cause

/-- All causes, in the order in which a report lists them. -/
def all : List Cause :=
  [trailingBytes, tooLarge, corruptFrame, invalidFrame, leadingWhitespace, unknownFields,
    nonCanonical, missingInput, missingOutput, unexpectedEnd, endOfInput, notFound]

/-- The text of a cause that stands alone. -/
def text : Cause → String
  | trailingBytes => "codec: trailing bytes after value"
  | tooLarge => "codec: payload too large"
  | corruptFrame => "wire: corrupt frame"
  | invalidFrame => "wire: invalid frame"
  | leadingWhitespace => "codec: whitespace before JSON value"
  | unknownFields => "codec: unknown protobuf fields"
  | nonCanonical => "codec: non-canonical protobuf encoding"
  | missingInput => "no input file provided"
  | missingOutput => "no output file provided"
  | unexpectedEnd => "unexpected EOF"
  | endOfInput => "EOF"
  | notFound => "file does not exist"

end Cause

/-! ## Failures -/

/-- A failure and the way by which it reached the caller. -/
inductive Failure where
  /-- A text with no known cause. -/
  | plain (text : String)
  /-- A known cause. -/
  | known (cause : Cause)
  /-- A known cause with details. -/
  | detailed (cause : Cause) (detail : String)
  /-- A value that ended at `offset` of an input of the given length. -/
  | trailing (offset length : Int)
  /-- A label around a failure. -/
  | within (label : String) (inner : Failure)
  /-- A label around nothing. -/
  | emptyLabel (label : String)
  /-- A failure that a run met at the given site. -/
  | atSite (site : Run.Site) (inner : Failure)
  /-- A run site around nothing. -/
  | emptySite (site : Run.Site)
  deriving DecidableEq, Repr

namespace Failure

/-- The text of left-over input. The difference is taken on 64-bit words. -/
def trailingText (offset length : Int) : String :=
  "codec: " ++ toString (signedWord (length - offset))
    ++ " trailing byte(s) after value ending at offset " ++ toString offset
    ++ " of " ++ toString length

/-- The text that a run site puts before the failure it met. -/
def siteText (site : Run.Site) : String := "Failed to " ++ site.op ++ ": "

/-- The text of a failure, from the outside in. -/
def message : Failure → String
  | plain text => text
  | known cause => cause.text
  | detailed cause detail => cause.text ++ ": " ++ detail
  | trailing offset length => trailingText offset length
  | within label inner => label ++ ": " ++ inner.message
  | emptyLabel label => label ++ ": %!w(<nil>)"
  | atSite site inner => siteText site ++ inner.message
  | emptySite site => siteText site ++ "<nil>"

/-- A failure by a short text. A failure that a codec of this library words itself is kept. -/
def summarized (short : String) (e : Failure) : Failure :=
  if "codec: ".isPrefixOf e.message then e else plain short

/-- The cause of a failure: that of its leaf. -/
def cause? : Failure → Option Cause
  | plain _ => none
  | known cause => some cause
  | detailed cause _ => some cause
  | trailing _ _ => some .trailingBytes
  | within _ inner => inner.cause?
  | emptyLabel _ => none
  | atSite _ inner => inner.cause?
  | emptySite _ => none

/-- Every cause that a failure matches, in the order of `Cause.all`. -/
def causes (e : Failure) : List Cause := Cause.all.filter fun c => e.cause? = some c

/-- The left-over input that a failure reports: where its value ended, and the length of
the input. -/
def trailing? : Failure → Option (Int × Int)
  | trailing offset length => some (offset, length)
  | within _ inner => inner.trailing?
  | atSite _ inner => inner.trailing?
  | _ => none

/-- The outermost run site of a failure. -/
def site? : Failure → Option Run.Site
  | atSite site _ => some site
  | emptySite site => some site
  | within _ inner => inner.site?
  | _ => none

/-- A failure matches the cause of its leaf and no other. -/
theorem mem_causes_iff {c : Cause} {e : Failure} : c ∈ e.causes ↔ e.cause? = some c := by
  cases c <;> simp [causes, Cause.all]

/-- Left-over input is a cause of its own. -/
theorem trailing?_eq_none {e : Failure} (h : e.cause? ≠ some .trailingBytes) :
    e.trailing? = none := by
  induction e with
  | trailing offset length => exact absurd rfl h
  | within label inner ih => exact ih h
  | atSite site inner ih => exact ih h
  | _ => rfl

end Failure

/-! ## Exit status -/

/-- The exit status of a run: 0 after success, 1 when the input was refused, and 2 after
every other failure. -/
def exitStatus : Option Failure → Nat
  | none => 0
  | some e =>
      match e.site? with
      | some site => if site.recoverable then 1 else 2
      | none => 2

end RoundTrip
