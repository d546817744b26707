import RoundTrip.Codec
import RoundTrip.Step
import RoundTrip.Word

/-!
# CBOR data items

A data item is a head and what the head announces. `Item` keeps the way in which every
head was written, so it has as much information as its bytes. Reading checks that the item
at the front of an input is complete and well-formed, and nothing else: what an item means
is decided afterwards.

Arrays and maps may be nested 32 deep, where of a chain of tags each tag but the first
counts as one level.

Main definitions: `Item`, `SyntaxError`, `Item.read`.
-/

set_option autoImplicit false

namespace RoundTrip.Cbor

/-! ## Heads -/

/-- The major types. -/
inductive Major where
  | unsigned | negative | bytes | text | array | map | tag | primitive
  deriving DecidableEq, Repr

namespace Major

/-- The major type in the three highest bits of a head. -/
def ofCode : Nat → Major
  | 0 => unsigned
  | 1 => negative
  | 2 => bytes
  | 3 => text
  | 4 => array
  | 5 => map
  | 6 => tag
  | _ => primitive

/-- The three highest bits of a head. -/
def code : Major → Nat
  | unsigned => 0
  | negative => 1
  | bytes => 2
  | text => 3
  | array => 4
  | map => 5
  | tag => 6
  | primitive => 7

/-- The name of a major type. -/
def name : Major → String
  | unsigned => "positive integer"
  | negative => "negative integer"
  | bytes => "byte string"
  | text => "UTF-8 text string"
  | array => "array"
  | map => "map"
  | tag => "tag"
  | primitive => "primitives"

end Major

/-- Where the argument of a head stands: in the head itself, or in the bytes after it. -/
inductive Width where
  | inline | one | two | four | eight
  deriving DecidableEq, Repr

/-- Number of bytes after the head. -/
def Width.bytes : Width → Nat
  | inline => 0
  | one => 1
  | two => 2
  | four => 4
  | eight => 8

/-- The argument of a head. -/
structure Argument where
  width : Width
  value : Nat
  deriving DecidableEq, Repr

/-- The two kinds of strings. -/
inductive StringKind where
  | bytes | text
  deriving DecidableEq, Repr

/-- The major type of a kind of strings. -/
def StringKind.major : StringKind → Major
  | bytes => .bytes
  | text => .text

/-- A well-formed data item. -/
inductive Item where
  | unsigned (arg : Argument)
  /-- The number `-1 - n`, where `n` is the argument. -/
  | negative (arg : Argument)
  | string (kind : StringKind) (arg : Argument) (contents : Bytes)
  /-- A string of indefinite length. -/
  | chunked (kind : StringKind) (chunks : List (Argument × Bytes))
  /-- An array; without argument its length is indefinite. -/
  | array (arg : Option Argument) (items : List Item)
  /-- A map; without argument its length is indefinite. -/
  | map (arg : Option Argument) (pairs : List (Item × Item))
  | tag (arg : Argument) (content : Item)
  /-- A simple value, or a floating-point number of two, four or eight bytes. -/
  | primitive (arg : Argument)
  deriving Repr, Inhabited

/-- The major type of an item. -/
def Item.major : Item → Major
  | unsigned _ => .unsigned
  | negative _ => .negative
  | string kind _ _ => kind.major
  | chunked kind _ => kind.major
  | array _ _ => .array
  | map _ _ => .map
  | tag _ _ => .tag
  | primitive _ => .primitive

/-! ## Errors -/

/-- How deep arrays, maps and chained tags may be nested. -/
def maxLevels : Nat := 32

/-- How many items an array, and how many pairs a map may have. -/
def maxCount : Nat := 131072

/-- Lengths from here on do not fit a signed word. -/
def lengthBound : Nat := wordHalf

/-- Why bytes are not a well-formed item. -/
inductive SyntaxError where
  | endOfInput
  | unexpectedEnd
  /-- A head with a reserved form. -/
  | reserved (info : Nat) (major : Major)
  /-- The end of an indefinite length where none can end. -/
  | unexpectedBreak
  /-- A simple value in two bytes that has a form of one byte. -/
  | simpleForm (n : Nat)
  | stringLength (major : Major) (n : Nat)
  | containerLength (major : Major) (n : Nat)
  | nesting
  | arrayCount
  | mapCount
  /-- A chunk of another type than its string. -/
  | chunkType (found : Major) (kind : StringKind)
  /-- A chunk of indefinite length. -/
  | chunkLength (kind : StringKind)
  deriving DecidableEq, Repr

/-- A syntax error as the failure of a read. -/
def SyntaxError.toFailure : SyntaxError → Failure
  | endOfInput => .known .endOfInput
  | unexpectedEnd => .known .unexpectedEnd
  | reserved info major =>
      .plain ("cbor: invalid additional information " ++ toString info ++ " for type "
        ++ major.name)
  | unexpectedBreak => .plain "cbor: unexpected \"break\" code"
  | simpleForm n =>
      .plain ("cbor: invalid simple value " ++ toString n ++ " for type "
        ++ Major.primitive.name)
  | stringLength major n =>
      .plain ("cbor: " ++ major.name ++ " length " ++ toString n
        ++ " is too large, causing integer overflow")
  | containerLength major n =>
      .plain ("cbor: " ++ major.name ++ " length " ++ toString n
        ++ " is too large, it would cause integer overflow")
  | nesting => .plain ("cbor: exceeded max nested level " ++ toString maxLevels)
  | arrayCount =>
      .plain ("cbor: exceeded max number of elements " ++ toString maxCount
        ++ " for CBOR array")
  | mapCount =>
      .plain ("cbor: exceeded max number of key-value pairs " ++ toString maxCount
        ++ " for CBOR map")
  | chunkType found kind =>
      .plain ("cbor: wrong element type " ++ found.name ++ " for indefinite-length "
        ++ kind.major.name)
  | chunkLength kind =>
      .plain ("cbor: indefinite-length " ++ kind.major.name
        ++ " chunk is not definite-length")

/-! ## Reading heads -/

/-- The next `n` bytes. -/
def take (n : Nat) : Step SyntaxError Bytes := fun bs =>
  match bs.split n with
  | some r => .ok r
  | none => .error .unexpectedEnd

/-- The argument in the next bytes. -/
def argument (w : Width) : Step SyntaxError Argument := fun bs => do
  let (field, rest) ← take w.bytes bs
  return (⟨w, Bytes.toNat field⟩, rest)

/-- The next head: its major type and its argument, or none for an indefinite length. -/
def head : Step SyntaxError (Major × Option Argument)
  | [] => .error .unexpectedEnd
  | b :: bs =>
      let major := Major.ofCode (b.toNat / 32)
      let info := b.toNat % 32
      let withArgument (w : Width) := do
        let (arg, rest) ← argument w bs
        if w = .one ∧ major = .primitive ∧ arg.value < 32 then
          throw (.simpleForm arg.value)
        return ((major, some arg), rest)
      if info < 24 then .ok ((major, some ⟨.inline, info⟩), bs)
      else if info = 24 then withArgument .one
      else if info = 25 then withArgument .two
      else if info = 26 then withArgument .four
      else if info = 27 then withArgument .eight
      else if info < 31 then .error (.reserved info major)
      else
        match major with
        | .unsigned | .negative | .tag => .error (.reserved info major)
        | .primitive => .error .unexpectedBreak
        | _ => .ok ((major, none), bs)

/-- The byte that ends an indefinite length. -/
def breakCode : UInt8 := 0xff

/-! ## Reading strings

The readers of what may have an indefinite length take a bound `size` on the length of the
input. -/

/-- The contents of a string whose head has been read. -/
def contents (major : Major) (arg : Argument) : Step SyntaxError Bytes := fun bs =>
  if lengthBound ≤ arg.value then .error (.stringLength major arg.value)
  else take arg.value bs

/-- The chunks up to the end of a string of indefinite length, behind those already read (in
reverse). Every chunk takes at least one byte, so `fuel` never runs out before the input
when it is at least the length of the input. -/
def chunksLoop (kind : StringKind) :
    (fuel : Nat) → List (Argument × Bytes) → Step SyntaxError (List (Argument × Bytes))
  | 0, _, _ => .error .unexpectedEnd
  | _ + 1, _, [] => .error .unexpectedEnd
  | fuel + 1, done, b :: bs =>
      if b = breakCode then .ok (done.reverse, bs)
      else if Major.ofCode (b.toNat / 32) ≠ kind.major then
        .error (.chunkType (Major.ofCode (b.toNat / 32)) kind)
      else if b.toNat % 32 = 31 then .error (.chunkLength kind)
      else
        match head (b :: bs) with
        | .error e => .error e
        | .ok ((_, none), _) => .error (.chunkLength kind)
        | .ok ((major, some arg), bs) =>
            match contents major arg bs with
            | .error e => .error e
            | .ok (chunk, bs) => chunksLoop kind fuel ((arg, chunk) :: done) bs

/-- A string whose head has been read. -/
def stringItem (size : Nat) (kind : StringKind) (arg : Option Argument) :
    Step SyntaxError Item := fun bs =>
  match arg with
  | some arg => do
      let (cs, bs) ← contents kind.major arg bs
      return (.string kind arg cs, bs)
  | none => do
      let (chunks, bs) ← chunksLoop kind size [] bs
      return (.chunked kind chunks, bs)

/-! ## Reading containers -/

/-- The items up to the end of an indefinite length, behind the `count` items already read (in
reverse). Every item takes at least one byte, so `fuel` never runs out before the input when
it is at least the length of the input. -/
def untilBreak (item : Step SyntaxError Item) (excess? : Nat → Option SyntaxError) :
    (fuel count : Nat) → List Item → Step SyntaxError (List Item)
  | 0, _, _, _ => .error .unexpectedEnd
  | _ + 1, _, _, [] => .error .unexpectedEnd
  | fuel + 1, count, done, b :: bs =>
      if b = breakCode then .ok (done.reverse, bs)
      else
        match item (b :: bs) with
        | .error e => .error e
        | .ok (it, bs) =>
            match excess? (count + 1) with
            | some e => .error e
            | none => untilBreak item excess? fuel (count + 1) (it :: done) bs

/-- An array may not have more items than the limit. -/
def arrayExcess? (count : Nat) : Option SyntaxError :=
  if maxCount < count then some .arrayCount else none

/-- A map may not have more pairs than the limit; keys without a value do not count. -/
def mapExcess? (count : Nat) : Option SyntaxError :=
  if count % 2 = 0 ∧ maxCount < count / 2 then some .mapCount else none

/-- Items two by two, behind the pairs already made (in reverse); nothing when one is left
over. -/
def pairUp : List (Item × Item) → List Item → Option (List (Item × Item))
  | done, [] => some done.reverse
  | _, [_] => none
  | done, key :: value :: items => pairUp ((key, value) :: done) items

/-- The items of an array whose head has been read. -/
def arrayItem (size : Nat) (item : Step SyntaxError Item) (arg : Option Argument) :
    Step SyntaxError Item := fun bs =>
  match arg with
  | some arg =>
      if lengthBound ≤ arg.value then .error (.containerLength .array arg.value)
      else if maxCount < arg.value then .error .arrayCount
      else do
        let (items, bs) ← Step.times item arg.value bs
        return (.array (some arg) items, bs)
  | none => do
      let (items, bs) ← untilBreak item arrayExcess? size 0 [] bs
      return (.array none items, bs)

/-- A key and a value. -/
def pairStep (item : Step SyntaxError Item) : Step SyntaxError (Item × Item) := fun bs => do
  let (key, bs) ← item bs
  let (value, bs) ← item bs
  return ((key, value), bs)

/-- The pairs of a map whose head has been read. -/
def mapItem (size : Nat) (item : Step SyntaxError Item) (arg : Option Argument) :
    Step SyntaxError Item := fun bs =>
  match arg with
  | some arg =>
      if lengthBound ≤ arg.value then .error (.containerLength .map arg.value)
      else if maxCount < arg.value then .error .mapCount
      else do
        let (pairs, bs) ← Step.times (pairStep item) arg.value bs
        return (.map (some arg) pairs, bs)
  | none => do
      let (items, bs) ← untilBreak item mapExcess? size 0 [] bs
      match pairUp [] items with
      | some pairs => return (.map none pairs, bs)
      | none => throw .unexpectedBreak

/-! ## Levels -/

/-- The readers of one level of nesting. -/
structure Level where
  /-- Reads any item. -/
  item : Step SyntaxError Item
  /-- Reads the content of a tag. -/
  afterTag : Step SyntaxError Item

/-- An item that is no tag, after its head; the items inside it are read by the next level, if
there is one. -/
def untagged (size : Nat) (inner : Option Level) (major : Major) (arg : Option Argument) :
    Step SyntaxError Item := fun bs =>
  match major, arg with
  | .bytes, arg => stringItem size .bytes arg bs
  | .text, arg => stringItem size .text arg bs
  | .array, arg =>
      match inner with
      | some level => arrayItem size level.item arg bs
      | none => .error .nesting
  | .map, arg =>
      match inner with
      | some level => mapItem size level.item arg bs
      | none => .error .nesting
  | .unsigned, some arg => .ok (.unsigned arg, bs)
  | .negative, some arg => .ok (.negative arg, bs)
  | .primitive, some arg => .ok (.primitive arg, bs)
  -- heads of the remaining forms are refused before they get here
  | major, _ => .error (.reserved 31 major)

/-- The readers of a level above the given one. -/
def Level.above (size : Nat) (inner : Option Level) : Level :=
  let afterTag : Step SyntaxError Item := fun bs => do
    let ((major, arg), bs) ← head bs
    match major, arg, inner with
    | .tag, some _, none => throw .nesting
    | .tag, some arg, some level =>
        let (content, bs) ← level.afterTag bs
        return (.tag arg content, bs)
    | major, arg, inner => untagged size inner major arg bs
  { afterTag := afterTag
    item := fun bs => do
      let ((major, arg), bs) ← head bs
      match major, arg with
      | .tag, some arg =>
          let (content, bs) ← afterTag bs
          return (.tag arg content, bs)
      | major, arg => untagged size inner major arg bs }

/-- The readers of a level with `n` levels below it, for inputs of at most `size` bytes. -/
def level (size : Nat) : (n : Nat) → Level
  | 0 => Level.above size none
  | n + 1 => Level.above size (some (level size n))

/-- The item at the front of an input, and the rest. -/
def Item.read (bs : Bytes) : Except SyntaxError (Item × Bytes) :=
  if bs.isEmpty then .error .endOfInput else (level bs.length maxLevels).item bs

end RoundTrip.Cbor
