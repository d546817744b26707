import RoundTrip.Entries
import RoundTrip.Protobuf.Wire
import RoundTrip.Text.Utf8

/-!
# Messages of dynamic data

Three message types hold dynamic data: a struct maps names to values (field 1), a list has
values in order (field 1), and a value is at most one of null (1), a number (2), a text (3),
a truth value (4), a struct (5) and a list (6). A fourth type wraps one text (field 1).

Reading adds the fields of an input to a message. Of the kinds of a value the last one
wins, where a struct or list is added to one that is there already. Fields that do not
belong to the schema, or have another payload than it says, are kept; those in the entry of
a struct are dropped.

Main definitions: `Value`, `Struct`, `Text`, `Struct.read`, `Text.read`.
-/

set_option autoImplicit false

namespace RoundTrip.Protobuf

mutual

/-- A value with the fields that its schema does not know. -/
inductive Value where
  | mk (kind : Kind) (unknown : Bytes)

/-- What a value is. -/
inductive Kind where
  | unset
  /-- Null, with the number that stands for it. -/
  | null (n : Int)
  /-- A binary number of 64 bits. -/
  | number (bits : UInt64)
  | text (bs : Bytes)
  | bool (b : Bool)
  | struct (fields : List (Bytes × Value)) (unknown : Bytes)
  | list (values : List Value) (unknown : Bytes)

end

instance : Inhabited Value := ⟨.mk .unset []⟩

/-- A map from names to values, with the fields that its schema does not know. -/
structure Struct where
  fields : List (Bytes × Value)
  unknown : Bytes

/-- A single text, with the fields that its schema does not know. -/
structure Text where
  value : Bytes
  unknown : Bytes

/-! ## Fields of a schema -/

/-- Adds fields to a message under construction. The fields for which `known` has no answer are
collected (in reverse) behind those that the message does not know already. -/
def absorb {σ : Type} (known : σ → Field → Except Error (Option σ)) :
    List Bytes → σ → List Field → Except Error (σ × Bytes)
  | unknown, m, [] => .ok (m, unknown.reverse.flatten)
  | unknown, m, f :: fs =>
      match known m f with
      | .error e => .error e
      | .ok (some m) => absorb known unknown m fs
      | .ok none => absorb known (f.bytes :: unknown) m fs

/-- A text has to be UTF-8. -/
def checkedText (bs : Bytes) : Except Error Bytes :=
  if Utf8.isValid bs then .ok bs else .error .invalidUtf8

/-! ## Merging -/

/-- The number in a payload as a signed word of 32 bits. -/
def word32 (n : Nat) : Int := Int.bmod n 0x100000000

/-- Adds a field to the entry of a struct. -/
def entryField (value : Value → Bytes → Except Error Value) (e : Bytes × Value) (f : Field) :
    Except Error (Option (Bytes × Value)) :=
  match f.number, f.payload with
  | 1, .bytes bs => do return some (← checkedText bs, e.2)
  | 2, .bytes bs => do return some (e.1, ← value e.2 bs)
  | _, _ => .ok none

/-- The entry of a struct: a name and a value, either of which may be missing. -/
def entry (value : Value → Bytes → Except Error Value) (bs : Bytes) :
    Except Error (Bytes × Value) := do
  let fs ← fields bs
  let (e, _) ← absorb (entryField value) [] ([], .mk .unset []) fs
  return e

/-- Adds a field to the entries of a struct (in reverse). -/
def structField (value : Value → Bytes → Except Error Value) (es : List (Bytes × Value))
    (f : Field) : Except Error (Option (List (Bytes × Value))) :=
  match f.number, f.payload with
  | 1, .bytes bs => do return some ((← entry value bs) :: es)
  | _, _ => .ok none

/-- Adds an input to a struct. -/
def mergeStruct (value : Value → Bytes → Except Error Value) (s : Struct) (bs : Bytes) :
    Except Error Struct := do
  let fs ← fields bs
  let (es, unknown) ← absorb (structField value) [s.unknown] s.fields.reverse fs
  return ⟨Entries.ofPairs es.reverse, unknown⟩

/-- Adds a field to the values of a list (in reverse). -/
def listField (value : Value → Bytes → Except Error Value) (vs : List Value) (f : Field) :
    Except Error (Option (List Value)) :=
  match f.number, f.payload with
  | 1, .bytes bs => do return some ((← value (.mk .unset []) bs) :: vs)
  | _, _ => .ok none

/-- The readers of one level of nesting. -/
structure Level where
  /-- Adds an input to a value. -/
  value : Value → Bytes → Except Error Value
  /-- Adds an input to a struct. -/
  struct : Struct → Bytes → Except Error Struct
  /-- Adds an input to the values and unknown fields of a list. -/
  list : List Value → Bytes → Bytes → Except Error (List Value × Bytes)

/-- Adds a field to the kind of a value; the messages inside it are read by the next level. -/
def kindField (inner : Level) (k : Kind) (f : Field) : Except Error (Option Kind) :=
  match f.number, f.payload with
  | 1, .varint n => .ok (some (.null (word32 n)))
  | 2, .fixed64 n => .ok (some (.number (UInt64.ofNat n)))
  | 3, .bytes bs => do return some (.text (← checkedText bs))
  | 4, .varint n => .ok (some (.bool (n != 0)))
  | 5, .bytes bs => do
      let s : Struct := match k with
        | .struct fields unknown => ⟨fields, unknown⟩
        | _ => ⟨[], []⟩
      let s ← inner.struct s bs
      return some (.struct s.fields s.unknown)
  | 6, .bytes bs => do
      let (vs, unknown) : List Value × Bytes := match k with
        | .list values unknown => (values, unknown)
        | _ => ([], [])
      let (vs, unknown) ← inner.list vs unknown bs
      return some (.list vs unknown)
  | _, _ => .ok none

/-- The readers of the level that nothing fits below. -/
def Level.exhausted : Level where
  value _ _ := .error .nesting
  struct _ _ := .error .nesting
  list _ _ _ := .error .nesting

/-- The readers of a level above the given one. -/
def Level.above (inner : Level) : Level where
  value v bs := do
    let .mk kind unknown := v
    let fs ← fields bs
    let (kind, unknown) ← absorb (kindField inner) [unknown] kind fs
    return .mk kind unknown
  struct s bs := mergeStruct inner.value s bs
  list vs unknown bs := do
    let fs ← fields bs
    let (vs, unknown) ← absorb (listField inner.value) [unknown] vs.reverse fs
    return (vs.reverse, unknown)

/-- The readers of a level on which messages may be nested `n` deep. -/
def level : (n : Nat) → Level
  | 0 => Level.exhausted
  | n + 1 => Level.above (level n)

/-- How deep messages may be nested. -/
def maxMessages : Nat := 10000

/-- The struct that an input stands for. -/
def Struct.read (bs : Bytes) : Except Error Struct := (level maxMessages).struct ⟨[], []⟩ bs

/-- Adds a field to a text: the last one replaces those before it. -/
def textField (_ : Bytes) (f : Field) : Except Error (Option Bytes) :=
  match f.number, f.payload with
  | 1, .bytes bs => do return some (← checkedText bs)
  | _, _ => .ok none

/-- The text that an input stands for. -/
def Text.read (bs : Bytes) : Except Error Text := do
  let fs ← fields bs
  let (t, unknown) ← absorb textField [] [] fs
  return ⟨t, unknown⟩

end RoundTrip.Protobuf
