import RoundTrip.Frame

/-!
# Reading frames by offsets

A reader of frames that keeps its input whole and moves an offset over it. Offsets and lengths are
signed words of 64 bits, and a length is compared with the rest of the input as an unsigned word, so
sums, differences and conversions can wrap, and bytes can be asked for outside the input. The reader
leaves a mark wherever it computes with its offset.

Main definitions: `Mark`, `Traced`, `Cursor.read`, `Cursor.decode`.
-/

set_option autoImplicit false

namespace RoundTrip.Frame.Cursor

/-! ## Traces -/

/-- A place in a computation, with the numbers that it works on. -/
inductive Mark where
  /-- The reading of one more item starts at an offset. -/
  | item (offset : Int)
  /-- A span of the given length is asked for at an offset. -/
  | span (offset : Int) (length : Nat)
  /-- The offset is subtracted from the length of the input. -/
  | rest (offset : Int)
  /-- The width of a length field is added to an offset. -/
  | field (offset : Int) (width : Nat)
  /-- The length of a span is added to its offset. -/
  | part (offset : Int) (length : Nat)
  /-- The bytes between two offsets are taken. -/
  | slice (low high : Int)
  /-- Room for a number of items is reserved. -/
  | reserve (count : Nat)
  deriving DecidableEq, Repr

/-- Why a computation has no result. -/
inductive Halt where
  /-- The bytes are not a frame. -/
  | corrupt (c : Corruption)
  /-- Bytes were asked for that are not there. -/
  | outOfRange
  deriving DecidableEq, Repr

/-- A computation with the marks that it has left. -/
structure Traced (α : Type) where
  marks : List Mark
  answer : Except Halt α

namespace Traced

variable {α β : Type}

/-- A result without a mark. -/
def result (a : α) : Traced α := ⟨[], .ok a⟩

/-- Two computations, of which the second one takes place when the first one has a result. -/
def andThen (x : Traced α) (f : α → Traced β) : Traced β :=
  match x.answer with
  | .ok a => ⟨x.marks ++ (f a).marks, (f a).answer⟩
  | .error h => ⟨x.marks, .error h⟩

instance : Monad Traced where
  pure := result
  bind := andThen

end Traced

/-- Leaves a mark. -/
def mark (m : Mark) : Traced Unit := ⟨[m], .ok ()⟩

/-- Ends a computation. -/
def halt {α : Type} (h : Halt) : Traced α := ⟨[], .error h⟩

/-! ## Reading -/

section Reading

variable (bs : Bytes)

/-- The length of the input behind an offset, as a signed word. -/
def remaining (offset : Int) : Traced Int := do
  mark (.rest offset)
  return signedWord (bs.length - offset)

/-- The bytes between two offsets, which have to be in order and inside the input. -/
def slice (low high : Int) : Traced Bytes := do
  mark (.slice low high)
  if 0 ≤ low ∧ low ≤ high ∧ high ≤ bs.length then
    return (bs.drop low.toNat).take (high - low).toNat
  else
    halt .outOfRange

/-- The next `length` bytes and the offset behind them. -/
def span (offset : Int) (length : Nat) : Traced (Bytes × Int) := do
  mark (.span offset length)
  let rest ← remaining bs offset
  if unsignedWord rest < length then
    halt (.corrupt (.overrun length rest.toNat))
  else
    mark (.part offset length)
    let next := signedWord (offset + signedWord length)
    let part ← slice bs offset next
    return (part, next)

/-- A length field of the item at `index`, and the offset behind it. -/
def lengthField (width index : Nat) (offset : Int) : Traced (Nat × Int) := do
  mark (.field offset width)
  let next := signedWord (offset + width)
  if bs.length < next then
    halt (.corrupt (.truncatedItem index))
  else
    let field ← slice bs offset next
    return (Bytes.toNat field, next)

/-- The item at `index`, and the offset behind it. -/
def readItem (index : Nat) (offset : Int) : Traced (Item × Int) := do
  mark (.item offset)
  let (keyLength, offset) ← lengthField bs 2 index offset
  if keyLength = 0 then
    halt (.corrupt (.emptyKey index))
  else
    let (key, offset) ← span bs offset keyLength
    let (length, offset) ← lengthField bs 4 index offset
    let (payload, offset) ← span bs offset length
    return (⟨key, some payload⟩, offset)

/-- The next `count` items behind those already read (in reverse), where `index` is the position of
the next one, and the offset behind them. -/
def readItems : (count index : Nat) → List Item → Int → Traced (List Item × Int)
  | 0, _, done, offset => return (done.reverse, offset)
  | count + 1, index, done, offset => do
      let (it, offset) ← readItem bs index offset
      readItems count (index + 1) (it :: done) offset

/-- The frame at the front of the input, and the offset behind it. -/
def read : Traced (Frame × Int) := do
  if bs.length < headerLength then
    halt (.corrupt (.shortHeader bs.length))
  else
    let code ← slice bs 0 1
    let field ← slice bs 1 headerLength
    let kind : Kind := ⟨code.headD 0⟩
    let n := Bytes.toNat field
    if kind = Kind.single then
      let (payload, offset) ← span bs headerLength n
      return (⟨kind, some payload, none⟩, offset)
    else if kind = Kind.batch then
      let rest ← remaining bs headerLength
      if unsignedWord rest / minItemLength < n then
        halt (.corrupt (.manyItems n rest.toNat))
      else
        mark (.reserve n)
        let (items, offset) ← readItems bs n 0 [] headerLength
        return (⟨kind, none, some items⟩, offset)
    else
      halt (.corrupt (.unknownKind kind))

/-- What a caller gets: a frame and how many bytes it takes, or a failure. -/
structure Outcome where
  frame : Frame
  consumed : Int
  failure : Option Failure
  deriving DecidableEq, Repr

/-- The frame in which nothing is set. -/
def blank : Frame := ⟨⟨0⟩, none, none⟩

/-- The outcome of a reading. There is none when bytes were asked for that are not there. -/
def outcome? : Except Halt (Frame × Int) → Option Outcome
  | .ok (f, offset) => some ⟨f, offset, none⟩
  | .error (.corrupt c) => some ⟨blank, 0, some c.toFailure⟩
  | .error .outOfRange => none

/-- Decodes the frame at the front of the input. -/
def decode : Option Outcome := outcome? (read bs).answer

end Reading

end RoundTrip.Frame.Cursor
