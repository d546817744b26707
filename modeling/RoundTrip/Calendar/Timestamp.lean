import RoundTrip.Bytes
import RoundTrip.Calendar.Civil
import RoundTrip.Text.Digits

/-!
# Timestamps

Instants as texts such as `2013-03-21T20:04:00.5+01:00`. Reading takes a comma for the
point, an hour of one digit and zones of up to 24 hours and 60 minutes; writing leaves out
the trailing zeros of the fraction and writes `Z` for a zone without offset.

Main definitions: `Timestamp.read?`, `Timestamp.write`.
-/

set_option autoImplicit false

namespace RoundTrip.Timestamp

/-! ## Reading -/

/-- The value of an ASCII digit. -/
def digit? (b : UInt8) : Option Nat :=
  if 0x30 ≤ b ∧ b ≤ 0x39 then some (b.toNat - 0x30) else none

/-- A reader of one field of a timestamp. -/
abbrev Field (α : Type) := Bytes → Option (α × Bytes)

/-- The next byte, when it is the given one. -/
def mark (b : UInt8) : Field Unit
  | c :: rest => if c = b then some ((), rest) else none
  | [] => none

/-- Exactly `n` digits, behind the value of those already read. -/
def digits : (n : Nat) → Nat → Field Nat
  | 0, value, bs => some (value, bs)
  | n + 1, value, b :: rest => do digits n (10 * value + (← digit? b)) rest
  | _ + 1, _, [] => none

/-- A number of `n` digits between two bounds. -/
def number (n least greatest : Nat) : Field Nat := fun bs => do
  let (value, rest) ← digits n 0 bs
  if least ≤ value ∧ value ≤ greatest then some (value, rest) else none

/-- An hour of one or two digits. -/
def hour : Field Nat := fun bs =>
  match bs with
  | a :: b :: rest =>
      match digit? a, digit? b with
      | some x, some y => if 10 * x + y < 24 then some (10 * x + y, rest) else none
      | some x, none => some (x, b :: rest)
      | none, _ => none
  | [a] => (digit? a).map (·, [])
  | [] => none

/-- The digits at the front of an input behind those already read (in reverse). -/
def digitRun : List Nat → Bytes → List Nat × Bytes
  | done, b :: rest =>
      match digit? b with
      | some d => digitRun (d :: done) rest
      | none => (done.reverse, b :: rest)
  | done, [] => (done.reverse, [])

/-- A fraction of a second in nanoseconds: a point or comma and at least one digit, of which
nine count; no fraction stands for zero. -/
def fraction (bs : Bytes) : Nat × Bytes :=
  match bs with
  | m :: rest =>
      if m = 0x2e ∨ m = 0x2c then
        match digitRun [] rest with
        | ([], _) => (0, bs)
        | (ds, rest) =>
            let counted := ds.take 9
            (counted.foldl (fun n d => 10 * n + d) 0 * Nat.pow 10 (9 - counted.length), rest)
      else (0, bs)
  | [] => (0, [])

/-- The zone of an offset; a zone without offset that is not written `Z` is that of the
machine. -/
def zoneOfOffset (offset : Int) : Zone := if offset = 0 then .machine else .fixed offset

/-- A zone: `Z`, or a sign with hours and minutes. -/
def zone : Field Zone
  | 0x5a :: rest => some (.utc, rest)
  | sign :: rest => do
      let (hours, rest) ← number 2 0 24 rest
      let ((), rest) ← mark 0x3a rest
      let (minutes, rest) ← number 2 0 60 rest
      let offset : Int := (hours * 60 + minutes) * 60
      if sign = 0x2b then some (zoneOfOffset offset, rest)
      else if sign = 0x2d then some (zoneOfOffset (-offset), rest)
      else none
  | [] => none

/-- The instant that a text stands for. -/
def read? (bs : Bytes) : Option Instant := do
  let (year, bs) ← number 4 0 9999 bs
  let ((), bs) ← mark 0x2d bs
  let (month, bs) ← number 2 1 12 bs
  let ((), bs) ← mark 0x2d bs
  let (day, bs) ← number 2 1 (daysInMonth year month) bs
  let ((), bs) ← mark 0x54 bs
  let (hour, bs) ← hour bs
  let ((), bs) ← mark 0x3a bs
  let (minute, bs) ← number 2 0 59 bs
  let ((), bs) ← mark 0x3a bs
  let (second, bs) ← number 2 0 59 bs
  let (nanos, bs) := fraction bs
  let (zone, bs) ← zone bs
  if bs.isEmpty then
    some (Instant.ofCivil ⟨⟨year, month, day⟩, hour, minute, second⟩ nanos zone)
  else none

/-! ## Writing -/

/-- An integer with at least `width` digits after its sign. -/
def signedDecimal (width : Nat) (n : Int) : String :=
  (if n < 0 then "-" else "") ++ Text.paddedDecimal width n.natAbs

/-- A fraction of a second without trailing zeros; nothing for zero. -/
def writeFraction (nanos : Nat) : String :=
  if nanos = 0 then ""
  else
    let ds := Text.pad 9 (Nat.toDigits 10 nanos)
    "." ++ String.ofList (ds.reverse.dropWhile (· == '0')).reverse

/-- The offset of a zone, cut to minutes. -/
def writeOffset (offset : Int) : String :=
  if offset = 0 then "Z"
  else
    let minutes := offset.tdiv 60
    (if minutes < 0 then "-" else "+") ++ Text.paddedDecimal 2 (minutes.natAbs / 60) ++ ":"
      ++ Text.paddedDecimal 2 (minutes.natAbs % 60)

/-- The text of an instant in its zone. -/
def write (t : Instant) : String :=
  let c := t.civil
  signedDecimal 4 c.date.year ++ "-" ++ Text.paddedDecimal 2 c.date.month ++ "-"
    ++ Text.paddedDecimal 2 c.date.day ++ "T" ++ Text.paddedDecimal 2 c.hour ++ ":"
    ++ Text.paddedDecimal 2 c.minute ++ ":" ++ Text.paddedDecimal 2 c.second
    ++ writeFraction t.nanos ++ writeOffset t.zone.offset

end RoundTrip.Timestamp
