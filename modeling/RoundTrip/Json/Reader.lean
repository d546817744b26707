import RoundTrip.Entries
import RoundTrip.Json.Numeral
import RoundTrip.Text.Utf8

/-!
# Reading JSON

A document is one value with nothing around it. Inside a value the grammar is that of JSON
with these additions: control characters may stand in a string after its first backslash, a
key after a comma may be `null` and is then empty, and a zero byte after the value ends the
document.

Main definitions: `valueStep`, `document`, `decode`.
-/

set_option autoImplicit false

namespace RoundTrip.Json

/-! ## Tokens -/

/-- The input without the white space at its front. -/
def skipSpace (bs : Bytes) : Bytes := bs.dropWhile isSpace

/-- The given bytes. -/
def word : Bytes → Step Error Unit
  | [], bs => .ok ((), bs)
  | w :: ws, b :: bs => if w = b then word ws bs else .error .malformed
  | _ :: _, [] => .error .malformed

/-- The given byte, after white space. -/
def token (b : UInt8) : Step Error Unit := fun bs => word [b] (skipSpace bs)

/-! ## Strings

The readers of strings and of what holds strings take a bound `size` on the length of the
input, which is the length of the whole document. -/

/-- The value of a hexadecimal digit. -/
def hexDigit? (b : UInt8) : Option Nat :=
  if 0x30 ≤ b ∧ b ≤ 0x39 then some (b.toNat - 0x30)
  else if 0x61 ≤ b ∧ b ≤ 0x66 then some (b.toNat - 0x61 + 10)
  else if 0x41 ≤ b ∧ b ≤ 0x46 then some (b.toNat - 0x41 + 10)
  else none

/-- The number of four hexadecimal digits. -/
def hex4? : Bytes → Option (Nat × Bytes)
  | a :: b :: c :: d :: bs => do
      let n := ((← hexDigit? a) * 16 + (← hexDigit? b)) * 256
      return (n + (← hexDigit? c) * 16 + (← hexDigit? d), bs)
  | _ => none

/-- The numbers that stand for a character only in pairs. -/
def isSurrogate (n : Nat) : Bool := decide (0xd800 ≤ n ∧ n < 0xe000)

/-- The bytes of a character number; a lone surrogate gives the replacement character. -/
def unitBytes (n : Nat) : Bytes :=
  Utf8.encode (if isSurrogate n then Utf8.replacement else Char.ofNat n)

/-- The bytes of two numbers of which the first is a surrogate: one character when they are a
high and a low one, and one for each otherwise. -/
def pairBytes (a b : Nat) : Bytes :=
  if a < 0xdc00 ∧ 0xdc00 ≤ b ∧ b < 0xe000 then
    Utf8.encode (Char.ofNat (0x10000 + (a - 0xd800) * 0x400 + (b - 0xdc00)))
  else unitBytes a ++ unitBytes b

/-- The byte that an escape letter stands for. -/
def escapedByte? (b : UInt8) : Option UInt8 :=
  match b with
  | 0x22 => some 0x22
  | 0x5c => some 0x5c
  | 0x2f => some 0x2f
  | 0x62 => some 0x08
  | 0x66 => some 0x0c
  | 0x6e => some 0x0a
  | 0x72 => some 0x0d
  | 0x74 => some 0x09
  | _ => none

/-- What an escape stands for, after its backslash. -/
def escape? : Bytes → Option (Bytes × Bytes)
  | 0x75 :: bs =>
      match hex4? bs with
      | none => none
      | some (a, bs) =>
          if isSurrogate a then
            match bs with
            -- a second number belongs to a surrogate, whatever it is
            | 0x5c :: 0x75 :: bs => (hex4? bs).map fun (b, bs) => (pairBytes a b, bs)
            | bs => some (unitBytes a, bs)
          else some (unitBytes a, bs)
  | b :: bs => (escapedByte? b).map fun e => ([e], bs)
  | [] => none

/-- The rest of a string behind the bytes already read (in reverse). With `strict`, control
characters are refused up to the first backslash. Every step takes at least one byte, so
`fuel` never runs out before the input when it is at least the length of the input. -/
def stringLoop (strict : Bool) : (fuel : Nat) → (escaped : Bool) → Bytes → Step Error Bytes
  | 0, _, _, _ => .error .malformed
  | _ + 1, _, _, [] => .error .malformed
  | fuel + 1, escaped, done, b :: bs =>
      if b = 0x22 then .ok (done.reverse, bs)
      else if b = 0x5c then
        match escape? bs with
        | some (e, bs) => stringLoop strict fuel true (e.reverse ++ done) bs
        | none => .error .malformed
      else if strict ∧ ¬escaped ∧ b < 0x20 then .error .malformed
      else stringLoop strict fuel escaped (b :: done) bs

/-- The rest of a string after its opening quote. -/
def stringRest (size : Nat) (strict : Bool) : Step Error Bytes := fun bs =>
  stringLoop strict size false [] bs

/-- A string, or `null` for an empty one, after white space. -/
def stringOrNull (size : Nat) : Step Error Bytes := fun bs =>
  match skipSpace bs with
  | 0x22 :: bs => stringRest size true bs
  | 0x6e :: bs => do
      let ((), bs) ← word [0x75, 0x6c, 0x6c] bs
      return ([], bs)
  | _ => .error .malformed

/-! ## Arrays and objects -/

/-- The elements of an array up to its end, behind those already read (in reverse). An element
takes at least one byte, so `fuel` never runs out before the input when it is at least the
length of the input. -/
def elements {α : Type} (value : Step Error α) : (fuel : Nat) → List α → Step Error (List α)
  | 0, _, _ => .error .malformed
  | fuel + 1, done, bs =>
      match value bs with
      | .error e => .error e
      | .ok (v, bs) =>
          match skipSpace bs with
          | 0x2c :: bs => elements value fuel (v :: done) bs
          | 0x5d :: bs => .ok ((v :: done).reverse, bs)
          | _ => .error .malformed

/-- An array after its opening bracket. -/
def array {α : Type} (size : Nat) (value : Step Error α) : Step Error (List α) := fun bs =>
  match skipSpace bs with
  | 0x5d :: bs => .ok ([], bs)
  | bs => elements value size [] bs

/-- The members of an object up to its end, behind those already read (in reverse). -/
def members {α : Type} (size : Nat) (value : Step Error α) :
    (fuel : Nat) → List (Bytes × α) → Step Error (List (Bytes × α))
  | 0, _, _ => .error .malformed
  | fuel + 1, done, bs =>
      match stringOrNull size bs with
      | .error e => .error e
      | .ok (key, bs) =>
          match token 0x3a bs with
          | .error e => .error e
          | .ok ((), bs) =>
              match value bs with
              | .error e => .error e
              | .ok (v, bs) =>
                  match skipSpace bs with
                  | 0x2c :: bs => members size value fuel ((key, v) :: done) bs
                  | 0x7d :: bs => .ok (((key, v) :: done).reverse, bs)
                  | _ => .error .malformed

/-- An object after its opening brace. The first key has to be a string. -/
def object {α : Type} (size : Nat) (value : Step Error α) :
    Step Error (List (Bytes × α)) := fun bs =>
  match skipSpace bs with
  | 0x7d :: bs => .ok ([], bs)
  | 0x22 :: bs => members size value size [] (0x22 :: bs)
  | _ => .error .malformed

/-! ## Values -/

/-- How deep arrays and objects may be nested. -/
def maxLevels : Nat := 10000

/-- A value that starts with the given byte, after which the input follows; `inner` reads the
values inside it. -/
def valueFrom (size : Nat) (inner : Option (Step Error Value)) (b : UInt8) :
    Step Error Value := fun bs =>
  match b with
  | 0x22 => do
      let (s, bs) ← stringRest size true bs
      return (.string s, bs)
  | 0x6e => do
      let ((), bs) ← word [0x75, 0x6c, 0x6c] bs
      return (.null, bs)
  | 0x74 => do
      let ((), bs) ← word [0x72, 0x75, 0x65] bs
      return (.bool true, bs)
  | 0x66 => do
      let ((), bs) ← word [0x61, 0x6c, 0x73, 0x65] bs
      return (.bool false, bs)
  | 0x5b =>
      match inner with
      | none => .error .malformed
      | some value => do
          let (vs, bs) ← array size value bs
          return (.array vs, bs)
  | 0x7b =>
      match inner with
      | none => .error .malformed
      | some value => do
          let (es, bs) ← object size value bs
          return (.object (Entries.ofPairs es), bs)
  | b =>
      if b = 0x2d ∨ (digit? b).isSome then do
        let (bits, bs) ← signedNumeral (b :: bs)
        return (.number (UInt64.ofNat bits), bs)
      else .error .malformed

/-- A value after white space, with at most `levels` arrays and objects around each other, from
an input of at most `size` bytes. -/
def valueStep (size : Nat) : (levels : Nat) → Step Error Value
  | 0, bs =>
      match skipSpace bs with
      | b :: bs => valueFrom size none b bs
      | [] => .error .malformed
  | levels + 1, bs =>
      match skipSpace bs with
      | b :: bs => valueFrom size (some (valueStep size levels)) b bs
      | [] => .error .malformed

/-! ## Documents -/

/-- Nothing may follow a value but white space, and a zero byte with anything after it. -/
def isDone (bs : Bytes) : Bool :=
  match skipSpace bs with
  | [] => true
  | b :: _ => b == 0

/-- A value that makes up a whole document. -/
def document {α : Type} (value : Step Error α) (bs : Bytes) : Except Error α :=
  match value bs with
  | .error e => .error e
  | .ok (v, rest) => if isDone rest then .ok v else .error .malformed

/-- The length of an input without the white space at its end. -/
def trimmedLength (bs : Bytes) : Nat := (bs.reverse.dropWhile isSpace).length

/-- Reads a document that has no white space at either end, where `value` reads the value of a
document of a given length. -/
def decode {α : Type} (value : Nat → Step Error α) (bs : Bytes) : Except Failure α :=
  match bs with
  | [] => .error (.within "codec: empty JSON input" (.known .unexpectedEnd))
  | b :: _ =>
      if isSpace b then .error (.known .leadingWhitespace)
      else if trimmedLength bs < bs.length then .error (.trailing (trimmedLength bs) bs.length)
      else (document (value bs.length) bs).mapError Error.toFailure

end RoundTrip.Json
