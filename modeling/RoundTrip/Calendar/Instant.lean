import RoundTrip.Word

/-!
# Instants

An instant is a moment with the zone in which it is shown. Seconds are counted from the
start of 1970 in UTC and wrap at 64 bits; nanoseconds are always between 0 and 999999999
in a normal instant.

Main definitions: `Zone`, `Instant`, `Instant.ofUnix`.
-/

set_option autoImplicit false

namespace RoundTrip

/-- The zone in which an instant is shown. -/
inductive Zone where
  /-- Coordinated universal time. -/
  | utc
  /-- The zone of the machine, which has offset zero here. -/
  | machine
  /-- A zone with a fixed offset, in seconds east. -/
  | fixed (offset : Int)
  deriving DecidableEq, Repr

/-- The offset of a zone in seconds east. -/
def Zone.offset : Zone → Int
  | utc => 0
  | machine => 0
  | fixed offset => offset

/-- A moment and the zone in which it is shown. -/
structure Instant where
  /-- Seconds since the start of 1970 in UTC. -/
  seconds : Int
  /-- Nanoseconds after that second. -/
  nanos : Nat
  /-- The zone in which the moment is shown. -/
  zone : Zone
  deriving DecidableEq, Repr

namespace Instant

/-- Nanoseconds in a second. -/
def perSecond : Nat := 1000000000

/-- The moment `seconds` and `nanos` after the start of 1970; nanoseconds outside one
second carry into the seconds. -/
def ofUnix (seconds nanos : Int) (zone : Zone) : Instant where
  seconds := signedWord (seconds + nanos.fdiv perSecond)
  nanos := (nanos.fmod perSecond).toNat
  zone := zone

end Instant

end RoundTrip
