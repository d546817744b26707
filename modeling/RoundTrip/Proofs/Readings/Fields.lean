import RoundTrip.Reading
import RoundTrip.Proofs.Text.Utf8

/-!
# Fields of readings

Every format reads a reading field by field into one that is blank at first. `Reading.put` is what
one field does to it and `Reading.fill` what a row of fields does; a row with every field gives back
the reading that was written.

Main definitions: `Reading.texts`, `Reading.fill`.
-/

set_option autoImplicit false

namespace RoundTrip.Reading

variable {r a : Reading}

/-- The texts of a reading: the name of the sensor and the tags. -/
def texts (r : Reading) : List Bytes := r.sensor :: r.tags.getD []

/-- The number of tags. -/
def tagCount (r : Reading) : Nat := (r.tags.getD []).length

/-- All texts are UTF-8. -/
def IsUtf8 (r : Reading) : Prop := ∀ t ∈ r.texts, Utf8.isValid t = true

instance (r : Reading) : Decidable r.IsUtf8 := inferInstanceAs (Decidable (∀ t ∈ r.texts, _))

/-! ## Names -/

namespace Field

theorem find?_key (f : Field) : find? f.key = some f := by
  cases f <;> decide

theorem findFolded?_key (f : Field) : findFolded? f.key = some f := by
  cases f <;> decide

theorem mem_all (f : Field) : f ∈ all := by
  cases f <;> decide

theorem isValid_key (f : Field) : Utf8.isValid f.key = true := by
  cases f <;> decide

theorem length_key_lt (f : Field) : f.key.length < 24 := by
  cases f <;> decide

end Field

/-! ## Filling in -/

/-- The reading `a` with one field of the reading `r`. -/
def put (r a : Reading) : Field → Reading
  | .sensor => { a with sensor := r.sensor }
  | .value => { a with value := r.value }
  | .tags => { a with tags := r.tags }

/-- The reading `a` with some fields of the reading `r`. -/
def fill (r : Reading) (fs : List Field) (a : Reading) : Reading := fs.foldl r.put a

theorem fill_cons (f : Field) (fs : List Field) : r.fill (f :: fs) a = r.fill fs (r.put a f) := rfl

theorem fill_all (r a : Reading) : r.fill Field.all a = r := rfl

end RoundTrip.Reading
