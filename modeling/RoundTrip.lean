import RoundTrip.Bytes
import RoundTrip.Word
import RoundTrip.Entries
import RoundTrip.Text.Utf8
import RoundTrip.Text.Digits
import RoundTrip.Text.Words
import RoundTrip.Text.Printable
import RoundTrip.Text.Quoted
import RoundTrip.Binary.Format
import RoundTrip.Binary.Decimal
import RoundTrip.Calendar.Civil
import RoundTrip.Calendar.Instant
import RoundTrip.Calendar.Timestamp
import RoundTrip.Failure
import RoundTrip.Step
import RoundTrip.Codec
import RoundTrip.Reading
import RoundTrip.Frame
import RoundTrip.Frame.Cursor
import RoundTrip.Cbor.Value
import RoundTrip.Cbor.Item
import RoundTrip.Cbor.Reader
import RoundTrip.Cbor.Writer
import RoundTrip.Cbor.Reading
import RoundTrip.Json.Value
import RoundTrip.Json.Numeral
import RoundTrip.Json.Reader
import RoundTrip.Json.Writer
import RoundTrip.Json.Reading
import RoundTrip.Msgpack.Value
import RoundTrip.Msgpack.Reader
import RoundTrip.Msgpack.Writer
import RoundTrip.Msgpack.Reading
import RoundTrip.Protobuf.Wire
import RoundTrip.Protobuf.Message
import RoundTrip.Protobuf.Writer
import RoundTrip.Format
import RoundTrip.Store.Files
import RoundTrip.Store.Tree
import RoundTrip.Log.Entry
import RoundTrip.Log.Record
import RoundTrip.Log.Layout
import RoundTrip.Log.Logger
import RoundTrip.Run.State
import RoundTrip.Run.Report
import RoundTrip.Run.Storage
import RoundTrip.Run.Buffer
import RoundTrip.Run.Harness
import RoundTrip.Config
import RoundTrip.Session
import RoundTrip.Main
import RoundTrip.Proofs.Entries
import RoundTrip.Proofs.Text.Utf8
import RoundTrip.Proofs.Text.Quoted
import RoundTrip.Proofs.Binary.Rounding
import RoundTrip.Proofs.Binary.Shortest
import RoundTrip.Proofs.Binary.Exact
import RoundTrip.Proofs.Calendar.Lengths
import RoundTrip.Proofs.Failure
import RoundTrip.Proofs.Reading.Locality
import RoundTrip.Proofs.Reading.Delimiting
import RoundTrip.Proofs.Reading.Words
import RoundTrip.Proofs.Readings.Fields
import RoundTrip.Proofs.Readings.Restored
import RoundTrip.Proofs.Frame.Grammar
import RoundTrip.Proofs.Frame.Encoding
import RoundTrip.Proofs.Frame.Exactness
import RoundTrip.Proofs.Frame.Acceptance
import RoundTrip.Proofs.Frame.Offsets
import RoundTrip.Proofs.Cbor.Locality
import RoundTrip.Proofs.Cbor.Sound
import RoundTrip.Proofs.Cbor.Canonical
import RoundTrip.Proofs.Cbor.Keys
import RoundTrip.Proofs.Cbor.Arrangements
import RoundTrip.Proofs.Cbor.Copies
import RoundTrip.Proofs.Cbor.Stability
import RoundTrip.Proofs.Cbor.Spelling
import RoundTrip.Proofs.Cbor.Duplicates
import RoundTrip.Proofs.Cbor.Readings
import RoundTrip.Proofs.Json.Locality
import RoundTrip.Proofs.Json.Exactness
import RoundTrip.Proofs.Json.Strings
import RoundTrip.Proofs.Json.Numerals
import RoundTrip.Proofs.Json.Compact
import RoundTrip.Proofs.Json.Padding
import RoundTrip.Proofs.Json.Stability
import RoundTrip.Proofs.Json.Readings
import RoundTrip.Proofs.Msgpack.Locality
import RoundTrip.Proofs.Msgpack.Words
import RoundTrip.Proofs.Msgpack.Canonical
import RoundTrip.Proofs.Msgpack.Readings
import RoundTrip.Proofs.Protobuf.Fields
import RoundTrip.Proofs.Protobuf.Shapes
import RoundTrip.Proofs.Protobuf.Texts
import RoundTrip.Proofs.Protobuf.Stability
import RoundTrip.Proofs.Shuffling
import RoundTrip.Proofs.Log.Renderings
import RoundTrip.Proofs.Log.Fields
import RoundTrip.Proofs.Log.Texts
import RoundTrip.Proofs.Log.Lines
import RoundTrip.Proofs.Config
import RoundTrip.Proofs.Run.Buffering
import RoundTrip.Proofs.Run.BufferSize
import RoundTrip.Proofs.Run.Stages
import RoundTrip.Proofs.Run.Calls
import RoundTrip.Proofs.Run.Endings
import RoundTrip.Proofs.Run.Leftovers
import RoundTrip.Proofs.Run.Limits
import RoundTrip.Proofs.Run.Integrity
import RoundTrip.Proofs.Run.Refusal
import RoundTrip.Proofs.Run.Logging
