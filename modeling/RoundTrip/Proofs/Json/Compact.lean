import Mathlib.Algebra.Order.BigOperators.Group.List
import Mathlib.Algebra.Order.Ring.Nat
import RoundTrip.Proofs.Json.Exactness
import RoundTrip.Proofs.Json.Strings

/-!
# Compact JSON

A compact document has no white space outside of strings, and its objects have their keys in a given
order. Rows of words with commas between them are read word by word when each word is read in front
of what may follow it (`foldLoop_separated`), which gives arrays and objects.

Main definition: `Compact`. Main statements: `array_separated`, `object_separated`, and
`length_separated_le` for the length of rows.
-/

set_option autoImplicit false

namespace RoundTrip.Json

/-! ## The written form -/

/-- The word `w` is a string between quotes, and `text` is what it stands for. -/
def IsString (text w : Bytes) : Prop :=
  ∃ inner, w = 0x22 :: (inner ++ [0x22]) ∧
    ∀ m s, inner.length < m → stringRest m true (inner ++ 0x22 :: s) = .ok (text, s)

/-- Documents without white space outside of strings. The keys of every object, as they are read,
are in the given order. -/
inductive Compact (order : Bytes → Bytes → Prop) : Bytes → Prop
  | null : Compact order (Bytes.ofString "null")
  | bool (b : Bool) : Compact order (Bytes.ofString (if b then "true" else "false"))
  | numeral {b : UInt8} {w : Bytes} (hbytes : ∀ x ∈ b :: w, isNumeralByte x = true) :
      Compact order (b :: w)
  | string {text w : Bytes} (h : IsString text w) : Compact order w
  | array {ws : List Bytes} (h : ∀ w ∈ ws, Compact order w) :
      Compact order (0x5b :: separated ws [0x5d])
  | object {members : List (Bytes × Bytes × Bytes)} (hkeys : ∀ m ∈ members, IsString m.1 m.2.1)
      (hvalues : ∀ m ∈ members, Compact order m.2.2)
      (horder : (members.map Prod.fst).Pairwise order) :
      Compact order (0x7b :: separated (members.map fun m => m.2.1 ++ 0x3a :: m.2.2) [0x7d])

theorem isString_quote (bs : Bytes) : IsString (repaired bs) (quote bs) := by
  refine ⟨_, rfl, ?_⟩
  intro m s hm
  have hlength : (quote bs).length ≤ m + 1 := by
    rw [quote, List.length_cons, List.length_append, List.length_singleton]
    omega
  obtain ⟨body, hbody, hread⟩ := stringRest_quote bs s hlength
  injection hbody with _ hbody
  rw [← hbody, List.append_assoc] at hread
  exact hread

theorem not_isSpace_of_isNumeralByte {b : UInt8} (h : isNumeralByte b = true) :
    isSpace b = false := by
  cases hspace : isSpace b with
  | false => rfl
  | true =>
      rw [isNumeralByte_of_isSpace hspace] at h
      cases h

theorem separated_append (ws : List Bytes) (rest s : Bytes) :
    separated ws rest ++ s = separated ws (rest ++ s) := by
  have hfold : ∀ ws : List Bytes, ws.foldr (fun p out => 0x2c :: (p ++ out)) rest ++ s
      = ws.foldr (fun p out => 0x2c :: (p ++ out)) (rest ++ s) := by
    intro ws
    induction ws with
    | nil => rfl
    | cons w ws ih => rw [List.foldr_cons, List.foldr_cons, List.cons_append, List.append_assoc, ih]
  cases ws with
  | nil => rfl
  | cons w ws => rw [separated, separated, List.append_assoc, hfold]

theorem separated_eq_append (ws : List Bytes) (rest : Bytes) :
    separated ws rest = separated ws [] ++ rest := by
  rw [separated_append, List.nil_append]

/-- A document in this form has no white space at its ends, and is no bracket that closes. -/
theorem Compact.ends {order : Bytes → Bytes → Prop} {w : Bytes} (h : Compact order w) :
    (∃ b t, w = b :: t ∧ isSpace b = false ∧ b ≠ 0x5d) ∧ endsInSpace w = false := by
  have hlast : ∀ (bs : Bytes) (b : UInt8), isSpace b = false → endsInSpace (bs ++ [b]) = false := by
    intro bs b hb
    rw [endsInSpace_append (List.cons_ne_nil b [])]
    exact hb
  cases h with
  | null =>
      rw [Bytes.ofString_eq]
      exact ⟨⟨_, _, rfl, rfl, by decide⟩, rfl⟩
  | bool b =>
      rw [Bytes.ofString_eq]
      cases b with
      | true => exact ⟨⟨_, _, rfl, rfl, by decide⟩, rfl⟩
      | false => exact ⟨⟨_, _, rfl, rfl, by decide⟩, rfl⟩
  | @numeral b w hbytes =>
      refine ⟨⟨b, w, rfl, not_isSpace_of_isNumeralByte (hbytes b List.mem_cons_self), ?_⟩, ?_⟩
      · rintro rfl
        cases hbytes 0x5d List.mem_cons_self
      · have hmem := List.getLast_mem (List.cons_ne_nil b w)
        rw [endsInSpace, List.getLast?_eq_some_getLast (List.cons_ne_nil b w)]
        exact not_isSpace_of_isNumeralByte (hbytes _ hmem)
  | string hstring =>
      obtain ⟨inner, rfl, -⟩ := hstring
      exact ⟨⟨_, _, rfl, rfl, by decide⟩, hlast (0x22 :: inner) 0x22 rfl⟩
  | @array ws _ =>
      refine ⟨⟨_, _, rfl, rfl, by decide⟩, ?_⟩
      rw [separated_eq_append, ← List.cons_append]
      exact hlast _ 0x5d rfl
  | object _ _ _ =>
      refine ⟨⟨_, _, rfl, rfl, by decide⟩, ?_⟩
      rw [separated_eq_append, ← List.cons_append]
      exact hlast _ 0x7d rfl

/-! ## Reading separated pieces -/

/-- A loop that takes a piece with the comma after it in each round, and the last one with the
byte that closes the row, takes the whole row. -/
theorem foldLoop_separated {α β σ : Type} {loop : Nat → σ → Step Error β} {close : UInt8}
    {word : α → Bytes} {next : σ → α → σ} (result : σ → β) {as : List α} (hne : as ≠ [])
    (hnext : ∀ a ∈ as, ∀ k st s, loop (k + 1) st (word a ++ 0x2c :: s) = loop k (next st a) s)
    (hlast : ∀ a ∈ as, ∀ k st s,
      loop (k + 1) st (word a ++ close :: s) = .ok (result (next st a), s))
    {k : Nat} (hk : as.length ≤ k) (st : σ) (s : Bytes) :
    loop k st (separated (as.map word) (close :: s)) = .ok (result (as.foldl next st), s) := by
  induction as generalizing k st with
  | nil => exact absurd rfl hne
  | cons a as ih =>
      rw [List.forall_mem_cons] at hnext hlast
      rw [List.length_cons] at hk
      obtain ⟨k, rfl⟩ : ∃ i, k = i + 1 := ⟨k - 1, by omega⟩
      cases as with
      | nil => exact hlast.1 k st s
      | cons a' as =>
          have hsplit : separated ((a :: a' :: as).map word) (close :: s)
              = word a ++ 0x2c :: separated ((a' :: as).map word) (close :: s) := rfl
          rw [hsplit, hnext.1, List.foldl_cons]
          exact ih (List.cons_ne_nil a' as) hnext.2 hlast.2 (by omega) (next st a)

/-- A loop that collects what it reads, last thing first. -/
theorem loop_separated {α β : Type} {loop : Nat → List β → Step Error (List β)} {close : UInt8}
    {word : α → Bytes} {item : α → β} {as : List α} (hne : as ≠ [])
    (hnext : ∀ a ∈ as, ∀ k done s,
      loop (k + 1) done (word a ++ 0x2c :: s) = loop k (item a :: done) s)
    (hlast : ∀ a ∈ as, ∀ k done s,
      loop (k + 1) done (word a ++ close :: s) = .ok ((item a :: done).reverse, s))
    {k : Nat} (hk : as.length ≤ k) (done : List β) (s : Bytes) :
    loop k done (separated (as.map word) (close :: s)) = .ok (done.reverse ++ as.map item, s) := by
  have hcollect : (as.foldl (fun done a => item a :: done) done).reverse
      = done.reverse ++ as.map item := by
    simp
  rw [← hcollect]
  exact foldLoop_separated List.reverse hne hnext hlast hk done s

/-- A value that is read from the word `w`, in front of what is no byte of a numeral. -/
def ReadsFrom {α : Type} (value : Step Error α) (w : Bytes) (v : α) : Prop :=
  ∀ b s, isNumeralByte b = false → value (w ++ b :: s) = .ok (v, b :: s)

/-- The length of pieces with a comma after each. -/
def rowLength (ws : List Bytes) : Nat := (ws.map fun w => w.length + 1).sum

theorem length_separated (ws : List Bytes) (rest : Bytes) :
    (separated ws rest).length = rowLength ws - 1 + rest.length := by
  have hfold : ∀ ws : List Bytes,
      (ws.foldr (fun p out => 0x2c :: (p ++ out)) rest).length = rowLength ws + rest.length := by
    intro ws
    induction ws with
    | nil => simp [rowLength]
    | cons w ws ih =>
        rw [List.foldr_cons, List.length_cons, List.length_append, ih]
        simp only [rowLength, List.map_cons, List.sum_cons]
        omega
  cases ws with
  | nil => simp [separated, rowLength]
  | cons w ws =>
      rw [separated, List.length_append, hfold]
      simp only [rowLength, List.map_cons, List.sum_cons]
      omega

theorem length_le_separated {ws : List Bytes} {w : Bytes} (hw : w ∈ ws) (rest : Bytes) :
    w.length ≤ (separated ws rest).length := by
  have hle : w.length + 1 ≤ rowLength ws :=
    List.le_sum_of_mem (List.mem_map_of_mem hw)
  rw [length_separated]
  omega

theorem count_le_separated {ws : List Bytes} (h : ∀ w ∈ ws, w ≠ []) (rest : Bytes) :
    ws.length ≤ (separated ws rest).length := by
  have hrow : 2 * ws.length ≤ rowLength ws := by
    induction ws with
    | nil => simp
    | cons w ws ih =>
        rw [List.forall_mem_cons] at h
        have hw := List.length_pos_iff.2 h.1
        have hws := ih h.2
        simp only [rowLength, List.map_cons, List.sum_cons, List.length_cons] at hws ⊢
        omega
  rw [length_separated]
  omega

theorem sum_le_of_sublist {α : Type} {f f' : α → Nat} {as as' : List α} (h : as'.Sublist as)
    (hle : ∀ a ∈ as, f' a ≤ f a) :
    (as'.map f').sum ≤ (as.map f).sum
      ∧ ((∃ a ∈ as, f' a < f a) → (as'.map f').sum < (as.map f).sum) := by
  induction h with
  | slnil => simp
  | @cons as' as x _ ih =>
      rw [List.forall_mem_cons] at hle
      obtain ⟨hsum, hstrict⟩ := ih hle.2
      rw [List.map_cons, List.sum_cons]
      refine ⟨by omega, ?_⟩
      rintro ⟨a, ha, hlt⟩
      rcases List.mem_cons.1 ha with rfl | ha
      · omega
      · have := hstrict ⟨a, ha, hlt⟩
        omega
  | @cons_cons as' as x _ ih =>
      rw [List.forall_mem_cons] at hle
      obtain ⟨hsum, hstrict⟩ := ih hle.2
      rw [List.map_cons, List.map_cons, List.sum_cons, List.sum_cons]
      refine ⟨by omega, ?_⟩
      rintro ⟨a, ha, hlt⟩
      rcases List.mem_cons.1 ha with rfl | ha
      · omega
      · have := hstrict ⟨a, ha, hlt⟩
        omega

/-- Fewer and shorter pieces make up a shorter row. -/
theorem length_separated_le {α : Type} {w w' : α → Bytes} {as as' : List α} (h : as'.Sublist as)
    (hle : ∀ a ∈ as, (w' a).length ≤ (w a).length) (rest : Bytes) :
    (separated (as'.map w') rest).length ≤ (separated (as.map w) rest).length
      ∧ ((∃ a ∈ as, (w' a).length < (w a).length) →
        (separated (as'.map w') rest).length < (separated (as.map w) rest).length) := by
  have hle' : ∀ a ∈ as, (w' a).length + 1 ≤ (w a).length + 1 := by
    intro a ha
    exact Nat.succ_le_succ (hle a ha)
  obtain ⟨hsum, hstrict⟩ := sum_le_of_sublist h hle'
  have hrow : ∀ (w : α → Bytes) (as : List α),
      rowLength (as.map w) = (as.map fun a => (w a).length + 1).sum := by
    intro w as
    rw [rowLength, List.map_map]
    rfl
  rw [length_separated, length_separated, hrow, hrow]
  refine ⟨by omega, ?_⟩
  rintro ⟨a, ha, hlt⟩
  have hlt' := hstrict ⟨a, ha, Nat.succ_lt_succ hlt⟩
  -- the longer piece is not empty
  have hpiece : (w a).length + 1 ≤ (as.map fun a => (w a).length + 1).sum :=
    List.le_sum_of_mem (List.mem_map_of_mem ha)
  omega

section Containers

variable {value : Step Error Value} {size : Nat}

theorem array_separated {α : Type} {value : Step Error α} {pieces : List (Bytes × α)}
    (h : ∀ p ∈ pieces, ReadsFrom value p.1 p.2)
    (hfirst : ∀ p ∈ pieces, ∃ b t, p.1 = b :: t ∧ isSpace b = false ∧ b ≠ 0x5d)
    (hsize : pieces.length ≤ size) (s : Bytes) :
    array size value (separated (pieces.map Prod.fst) (0x5d :: s))
      = .ok (pieces.map Prod.snd, s) := by
  cases pieces with
  | nil =>
      have hskip : skipSpace (separated (([] : List (Bytes × α)).map Prod.fst) (0x5d :: s))
          = 0x5d :: s := skipSpace_cons rfl s
      rw [array, hskip]
      rfl
  | cons p pieces =>
      have hloop : elements value size [] (separated ((p :: pieces).map Prod.fst) (0x5d :: s))
          = .ok ([].reverse ++ (p :: pieces).map Prod.snd, s) := by
        apply loop_separated (List.cons_ne_nil p pieces) _ _ hsize
        · intro p hp k done s
          have hskip : skipSpace (0x2c :: s) = 0x2c :: s := skipSpace_cons rfl s
          rw [elements, h p hp 0x2c s (by decide)]
          simp only [hskip]
        · intro p hp k done s
          have hskip : skipSpace (0x5d :: s) = 0x5d :: s := skipSpace_cons rfl s
          rw [elements, h p hp 0x5d s (by decide)]
          simp only [hskip]
      -- the first byte is neither white space nor the bracket
      obtain ⟨b, t, hp, hb, hne⟩ := hfirst p List.mem_cons_self
      obtain ⟨t', ht'⟩ : ∃ t', separated ((p :: pieces).map Prod.fst) (0x5d :: s) = b :: t' := by
        rw [List.map_cons, separated, hp, List.cons_append]
        exact ⟨_, rfl⟩
      rw [ht'] at hloop ⊢
      rw [array, skipSpace_cons hb]
      split
      · rename_i heq
        injection heq with hbracket
        exact absurd hbracket hne
      · exact hloop

/-- A member of an object: its key, the words for the key and for the value, and the value. -/
structure Member where
  key : Bytes
  keyWord : Bytes
  valueWord : Bytes
  value : Value

def Member.bytes (m : Member) : Bytes := m.keyWord ++ 0x3a :: m.valueWord

theorem stringOrNull_of_isString {text w : Bytes} (h : IsString text w) (hsize : w.length ≤ size)
    (s : Bytes) : stringOrNull size (w ++ s) = .ok (text, s) := by
  obtain ⟨inner, rfl, hread⟩ := h
  rw [List.length_cons, List.length_append, List.length_singleton] at hsize
  have hskip : skipSpace (0x22 :: (inner ++ 0x22 :: s)) = 0x22 :: (inner ++ 0x22 :: s) :=
    skipSpace_cons rfl _
  rw [List.cons_append, List.append_assoc, List.singleton_append, stringOrNull, hskip]
  exact hread size s (by omega)

theorem object_separated {ms : List Member} (hkeys : ∀ m ∈ ms, IsString m.key m.keyWord)
    (hwords : ∀ m ∈ ms, m.keyWord.length ≤ size)
    (hvalues : ∀ m ∈ ms, ReadsFrom value m.valueWord m.value) (hsize : ms.length ≤ size)
    (s : Bytes) :
    object size value (separated (ms.map Member.bytes) (0x7d :: s))
      = .ok (ms.map fun m => (m.key, m.value), s) := by
  cases ms with
  | nil =>
      have hskip : skipSpace (separated (([] : List Member).map Member.bytes) (0x7d :: s))
          = 0x7d :: s := skipSpace_cons rfl s
      rw [object, hskip]
      rfl
  | cons m ms =>
      -- each round reads a key, the colon and a value
      have hmember : ∀ m' ∈ m :: ms, ∀ b s, isNumeralByte b = false →
          stringOrNull size (m'.bytes ++ b :: s)
            = .ok (m'.key, 0x3a :: (m'.valueWord ++ b :: s))
          ∧ token 0x3a (0x3a :: (m'.valueWord ++ b :: s)) = .ok ((), m'.valueWord ++ b :: s)
          ∧ value (m'.valueWord ++ b :: s) = .ok (m'.value, b :: s) := by
        intro m' hm' b s hb
        refine ⟨?_, ?_, hvalues m' hm' b s hb⟩
        · rw [Member.bytes, List.append_assoc, List.cons_append]
          exact stringOrNull_of_isString (hkeys m' hm') (hwords m' hm') _
        · rw [token, skipSpace_cons rfl]
          exact word_eq_ok_iff.2 rfl
      have hloop : ∀ k, (m :: ms).length ≤ k →
          members size value k [] (separated ((m :: ms).map Member.bytes) (0x7d :: s))
            = .ok ([].reverse ++ (m :: ms).map fun m => (m.key, m.value), s) := by
        intro k hk
        apply loop_separated (List.cons_ne_nil m ms) _ _ hk
        · intro m' hm' k done s
          obtain ⟨hkey, hcolon, hvalue⟩ := hmember m' hm' 0x2c s (by decide)
          have hskip : skipSpace (0x2c :: s) = 0x2c :: s := skipSpace_cons rfl s
          simp only [members, hkey, hcolon, hvalue, hskip]
        · intro m' hm' k done s
          obtain ⟨hkey, hcolon, hvalue⟩ := hmember m' hm' 0x7d s (by decide)
          have hskip : skipSpace (0x7d :: s) = 0x7d :: s := skipSpace_cons rfl s
          simp only [members, hkey, hcolon, hvalue, hskip]
      obtain ⟨t, ht⟩ : ∃ t, separated ((m :: ms).map Member.bytes) (0x7d :: s) = 0x22 :: t := by
        obtain ⟨inner, hinner, -⟩ := hkeys m List.mem_cons_self
        rw [List.map_cons, separated, Member.bytes, hinner]
        exact ⟨_, rfl⟩
      rw [ht] at hloop ⊢
      rw [object, skipSpace_cons rfl]
      exact hloop size hsize

end Containers

end RoundTrip.Json
