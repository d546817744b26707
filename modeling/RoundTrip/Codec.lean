import RoundTrip.Bytes
import RoundTrip.Failure

/-!
# Codecs

A codec reads a whole input as one value and writes a value back as a series of
writes. This module holds codecs, the demand that a reader uses all of its input, and
the limit on the length of an input.

Main definitions: `Codec`, `Emission`, `PrefixReader`, `exact`, `Codec.limit`. Main fact:
`exact_eq_ok_iff`, an exact reader accepts the inputs that its reader uses up.
-/

set_option autoImplicit false

namespace RoundTrip

/-! ## Emissions -/

/-- One call on an output. -/
inductive Write where
  /-- A single byte, which always passes through the output's buffer. -/
  | byte (b : UInt8)
  /-- A block of bytes. -/
  | block (bs : Bytes)
  deriving DecidableEq, Repr

/-- The bytes of a write. -/
def Write.bytes : Write → Bytes
  | byte b => [b]
  | block bs => bs

@[simp] theorem Write.bytes_byte (b : UInt8) : (byte b).bytes = [b] := rfl

@[simp] theorem Write.bytes_block (bs : Bytes) : (block bs).bytes = bs := rfl

/-- What writing a value does: a series of writes, and the failure that ends it. -/
structure Emission where
  /-- The writes, in order. -/
  writes : List Write
  /-- The failure after the last write, if there is one. -/
  failure : Option Failure

namespace Emission

/-- All bytes of an emission. -/
def bytes (e : Emission) : Bytes := e.writes.flatMap Write.bytes

/-- The emission that hands over everything in one block. -/
def once (bs : Bytes) : Emission := ⟨[.block bs], none⟩

/-- The emission that fails before anything is written. -/
def fail (e : Failure) : Emission := ⟨[], some e⟩

/-- One block, or a failure before it. -/
def ofExcept : Except Failure Bytes → Emission
  | .ok bs => once bs
  | .error e => fail e

/-- The bytes of an emission that does not fail. -/
def toExcept (e : Emission) : Except Failure Bytes :=
  match e.failure with
  | none => .ok e.bytes
  | some f => .error f

@[simp] theorem bytes_once (bs : Bytes) : (once bs).bytes = bs := by
  simp [once, bytes]

end Emission

/-! ## Codecs -/

/-- A way to read values from whole inputs and to write them. A codec stops at the first write that
the output refuses and reports it, in words of its own or in those of the output; one that goes on
after a refusal, or keeps it to itself, is not described here. -/
structure Codec (α : Type) where
  /-- The value that a whole input stands for. -/
  decode : Bytes → Except Failure α
  /-- The writes that put a value out. -/
  encode : α → Emission
  /-- What is reported when the output refuses one of the writes, which it does with the given
  failure. -/
  refused : Failure → Failure := id

/-! ## Exact reading -/

/-- A reader of one value from the front of an input. It reports the value and how many
bytes it used. -/
abbrev PrefixReader (α : Type) := Bytes → Except Failure (α × Int)

/-- A reader that returns the rest of its input reports how much it used. -/
def PrefixReader.ofRest {α : Type} (read : Bytes → Except Failure (α × Bytes)) :
    PrefixReader α := fun bs =>
  match read bs with
  | .ok (value, rest) => .ok (value, (bs.length : Int) - rest.length)
  | .error e => .error e

/-- Reads with `read` and refuses the result unless the whole input was used. -/
def exact {α : Type} (read : PrefixReader α) (bs : Bytes) : Except Failure α :=
  match read bs with
  | .error e => .error e
  | .ok (value, used) =>
      if used < 0 ∨ (bs.length : Int) < used then
        .error (.plain ("codec: decoder reported " ++ toString used
          ++ " consumed bytes for " ++ toString bs.length ++ " byte input"))
      else if used < bs.length then .error (.trailing used bs.length)
      else .ok value

/-- What a reader reports is the length of its input less that of the rest. -/
theorem PrefixReader.ofRest_eq_ok_iff {α : Type} {read : Bytes → Except Failure (α × Bytes)}
    {bs : Bytes} {value : α} {used : Int} :
    ofRest read bs = .ok (value, used) ↔
      ∃ rest, read bs = .ok (value, rest) ∧ used = (bs.length : Int) - rest.length := by
  rw [ofRest]
  cases read bs with
  | error e => simp
  | ok r =>
      rcases r with ⟨v, tail⟩
      constructor
      · intro h
        cases h
        exact ⟨tail, rfl, rfl⟩
      · rintro ⟨rest, h, rfl⟩
        cases h
        rfl

/-- An exact reader accepts an input that is used up, and no other. -/
theorem exact_eq_ok_iff {α : Type} {read : PrefixReader α} {bs : Bytes} {value : α} :
    exact read bs = .ok value ↔ read bs = .ok (value, (bs.length : Int)) := by
  rw [exact]
  cases read bs with
  | error e => simp
  | ok r =>
      rcases r with ⟨v, used⟩
      simp only [Except.ok.injEq, Prod.mk.injEq]
      constructor
      · intro h
        split at h
        · cases h
        · split at h
          · cases h
          · cases h
            exact ⟨rfl, by omega⟩
      · rintro ⟨rfl, rfl⟩
        rw [if_neg (by omega), if_neg (by omega)]

/-! ## Limits -/

/-- The codec that refuses inputs of more than `max` bytes without looking at them. A
`max` that is not positive stands for no limit. -/
def Codec.limit {α : Type} (max : Int) (c : Codec α) : Codec α where
  decode bs :=
    if 0 < max ∧ max < bs.length then
      .error (.detailed .tooLarge (toString bs.length ++ " > " ++ toString max))
    else c.decode bs
  encode := c.encode
  refused := c.refused

end RoundTrip
