import RoundTrip.Codec
import RoundTrip.Run.Storage

/-!
# Buffered output

The writes of an emission pass through a buffer. Bytes that fit are held back. A block that does
not fit goes to the output directly when nothing is held back; otherwise the buffer is filled up
and flushed first. The first failure stays: after it nothing is written any more.

The bytes that are stored, followed by those that are held back, are the bytes that were handed
over so far, as long as nothing has failed.

Main definitions: `Output`, `Output.offer`, `Buffer`, `Buffer.flush`, `Buffer.put`,
`Buffer.write`, `Buffer.emit`.
-/

set_option autoImplicit false

namespace RoundTrip.Run

/-! ## Outputs with their contents -/

/-- A created output and what has happened to it. -/
structure Output where
  sink : Sink
  /-- The stored blocks, the last one first. -/
  blocks : List Bytes
  /-- The number of stored bytes. -/
  size : Nat
  /-- The sizes of the offered blocks, the last one first. -/
  offers : List Nat

namespace Output

/-- An output to which nothing has been written. -/
def new (sink : Sink) : Output := ⟨sink, [], 0, []⟩

/-- What an output stores. -/
def contents (o : Output) : Bytes := o.blocks.reverse.flatten

/-- The writes that an output has seen, in order. -/
def calls (o : Output) : List Call := o.offers.reverse.map .write

/-- Offers a block of `n` bytes. The answer is the number of bytes that were stored, and the
failure of the write. -/
def offer (o : Output) (bs : Bytes) (n : Nat) : (Nat × Option Failure) × Output :=
  let (stored, failure) := o.sink.take o.size n
  ((stored, failure),
    { o with
      blocks := bs.take stored :: o.blocks
      size := o.size + stored
      offers := n :: o.offers })

end Output

/-! ## Buffers -/

/-- An output behind a buffer. -/
structure Buffer where
  /-- The greatest number of bytes that are held back. -/
  capacity : Nat
  /-- The bytes that are held back, the last one first. -/
  held : Bytes
  /-- The number of bytes that are held back. -/
  used : Nat
  /-- The first failure. -/
  failure : Option Failure
  output : Output

namespace Buffer

/-- An empty buffer before a new output. -/
def new (capacity : Nat) (sink : Sink) : Buffer := ⟨capacity, [], 0, none, .new sink⟩

/-- The failure of an output that stores only a part of a block and does not say why. -/
def shortWrite : Failure := .plain "short write"

/-- Holds back `n` more bytes. -/
def hold (b : Buffer) (bs : Bytes) (n : Nat) : Buffer :=
  { b with held := bs.reverseAux b.held, used := b.used + n }

/-- Offers everything that is held back. What is not stored stays held back. -/
def flush (b : Buffer) : Buffer :=
  if b.failure.isSome || b.used == 0 then b
  else
    let ((stored, failure), output) := b.output.offer b.held.reverse b.used
    if failure.isNone && stored == b.used then { b with held := [], used := 0, output }
    else
      { b with
        held := b.held.take (b.used - stored)
        used := b.used - stored
        failure := failure.or (some shortWrite)
        output }

/-- Hands over a single byte. It is held back, after a flush when the buffer is full. -/
def put (b : Buffer) (byte : UInt8) : Buffer :=
  let b := if b.capacity ≤ b.used then b.flush else b
  if b.failure.isSome then b else b.hold [byte] 1

/-- Hands over `n` bytes while nothing is held back: offers them again and again, as long as what
is left is more than fits into the buffer. An output that stores nothing of a block and does not
fail would be asked for ever; it counts as one that stores a part. -/
def direct (rounds : Nat) (b : Buffer) (bs : Bytes) (n : Nat) : Buffer :=
  if n ≤ b.capacity then b.hold bs n
  else
    match rounds with
    | 0 => { b with failure := some shortWrite }
    | rounds + 1 =>
        let ((stored, failure), output) := b.output.offer bs n
        let b := { b with output }
        if failure.isSome then { b with failure }
        else direct rounds b (bs.drop stored) (n - stored)

/-- Hands over a block. -/
def write (b : Buffer) (bs : Bytes) : Buffer :=
  if b.failure.isSome then b
  else
    let n := bs.length
    let free := b.capacity - b.used
    if n ≤ free then b.hold bs n
    -- `n` rounds are enough when each of them stores at least one byte.
    else if b.used == 0 then b.direct n bs n
    else
      let b := (b.hold (bs.take free) free).flush
      if b.failure.isSome then b else b.direct n (bs.drop free) (n - free)

/-- Hands over the bytes of one write. -/
def step (b : Buffer) : Write → Buffer
  | .byte byte => b.put byte
  | .block bs => b.write bs

/-- Hands over the bytes of a series of writes. -/
def emit (b : Buffer) (writes : List Write) : Buffer := writes.foldl step b

end Buffer

end RoundTrip.Run
