import RoundTrip.Bytes

/-!
# Entries of maps

Maps with byte-string keys are lists of entries in increasing order of keys. The order
in which entries arrive does not matter, except that the last entry of a key wins.

Main definitions: `Entries.sort` puts entries in order, `Entries.ofPairs` also drops
all but the last entry of each key.
-/

set_option autoImplicit false

namespace RoundTrip.Entries

variable {α : Type}

/-- Entries in increasing order of keys; entries of one key stay in the order given. -/
def sort (es : List (Bytes × α)) : List (Bytes × α) :=
  es.mergeSort fun a b => Bytes.le a.1 b.1

/-- Puts an entry on top of others and removes the entry below it when it has the same
key. -/
def supersede (es : List (Bytes × α)) (e : Bytes × α) : List (Bytes × α) :=
  match es with
  | [] => [e]
  | p :: rest => if p.1 = e.1 then e :: rest else e :: p :: rest

/-- The map that a list of pairs describes: in increasing order of keys, and with the last
pair of each key. -/
def ofPairs (es : List (Bytes × α)) : List (Bytes × α) :=
  ((sort es).foldl supersede []).reverse

end RoundTrip.Entries
