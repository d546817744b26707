import RoundTrip.Proofs.Entries
import RoundTrip.Proofs.Protobuf.Fields
import RoundTrip.Protobuf.Message

/-!
# Shapes of messages

What a level of nesting reads has a shape (`shape`): names are UTF-8 and strictly increasing, the
number of a null fits its word, the messages inside have the shape of the level below, and what is
left over is a row of legible fields that the schema does not know.

An entry of a struct may lack its value, and the value is then there although no level has read it.
Structs stand on even levels and values on odd ones, so there is always a level for it
(`even_kept`).

Main statement: `even_kept`.
-/

set_option autoImplicit false

namespace RoundTrip.Protobuf

open Step

/-! ## Adding fields to a message -/

section Absorb

variable {σ : Type} {known : σ → Field → Except Error (Option σ)}

/-- A field that a schema has no place for. -/
def Foreign (known : σ → Field → Except Error (Option σ)) (f : Field) : Prop :=
  ∀ m, known m f = .ok none

/-- A row of legible fields that a schema has no place for. -/
def Unread (known : σ → Field → Except Error (Option σ)) (bs : Bytes) : Prop :=
  ∃ us : List Field, (∀ u ∈ us, Legible u ∧ Foreign known u) ∧ bs = us.flatMap Field.bytes

theorem unread_nil : Unread known [] := ⟨[], by simp, rfl⟩

theorem Unread.append {as bs : Bytes} (ha : Unread known as) (hb : Unread known bs) :
    Unread known (as ++ bs) := by
  obtain ⟨us, hus, rfl⟩ := ha
  obtain ⟨ws, hws, rfl⟩ := hb
  refine ⟨us ++ ws, ?_, List.flatMap_append.symm⟩
  intro u hu
  rcases List.mem_append.1 hu with hu | hu
  · exact hus u hu
  · exact hws u hu

theorem unread_field {f : Field} (hlegible : Legible f) (hforeign : Foreign known f) :
    Unread known f.bytes :=
  ⟨[f], by simp [hlegible, hforeign], by simp⟩

/-- What each known field keeps, a row of fields keeps. -/
theorem absorb_kept {P : σ → Prop}
    (hstep : ∀ m f m', P m → known m f = .ok (some m') → P m')
    {unknown : List Bytes} {m m' : σ} {fs : List Field} {bs : Bytes} (hm : P m)
    (h : absorb known unknown m fs = .ok (m', bs)) : P m' := by
  induction fs generalizing unknown m with
  | nil =>
      cases h
      exact hm
  | cons f fs ih =>
      rw [absorb] at h
      split at h
      · cases h
      · rename_i hknown
        exact ih (hstep _ _ _ hm hknown) h
      · exact ih hm h

/-- The fields that are left over are legible, and unknown to the schema. -/
theorem absorb_unread (hforeign : ∀ m f, known m f = .ok none → Foreign known f)
    {unknown : List Bytes} {m m' : σ} {fs : List Field} {bs : Bytes}
    (hfs : ∀ f ∈ fs, Legible f) (hunknown : Unread known unknown.reverse.flatten)
    (h : absorb known unknown m fs = .ok (m', bs)) : Unread known bs := by
  induction fs generalizing unknown m with
  | nil =>
      cases h
      exact hunknown
  | cons f fs ih =>
      rw [List.forall_mem_cons] at hfs
      rw [absorb] at h
      split at h
      · cases h
      · exact ih hfs.2 hunknown h
      · rename_i hnone
        refine ih hfs.2 ?_ h
        rw [List.reverse_cons, List.flatten_append, List.flatten_singleton]
        exact hunknown.append (unread_field hfs.1 (hforeign _ _ hnone))

theorem absorb_cons_of_known {unknown : List Bytes} {m m' : σ} {f : Field}
    (h : known m f = .ok (some m')) (fs : List Field) :
    absorb known unknown m (f :: fs) = absorb known unknown m' fs := by
  rw [absorb, h]

theorem absorb_foreign {unknown : List Bytes} {m : σ} {us : List Field}
    (h : ∀ u ∈ us, Foreign known u) :
    absorb known unknown m us = .ok (m, unknown.reverse.flatten ++ us.flatMap Field.bytes) := by
  induction us generalizing unknown with
  | nil => simp [absorb]
  | cons u us ih =>
      rw [List.forall_mem_cons] at h
      rw [absorb, h.1 m]
      simp [ih h.2]

/-- Fields that each add one thing to a list (in reverse). -/
theorem absorb_map {α : Type} {known : List α → Field → Except Error (Option (List α))}
    {as done : List α} {field : α → Field} {unknown : List Bytes} {us : List Field}
    (h : ∀ a ∈ as, ∀ done, known done (field a) = .ok (some (a :: done))) :
    absorb known unknown done (as.map field ++ us)
      = absorb known unknown (as.reverse ++ done) us := by
  induction as generalizing done with
  | nil => rfl
  | cons a as ih =>
      rw [List.forall_mem_cons] at h
      rw [List.map_cons, List.cons_append, absorb_cons_of_known (h.1 done), ih h.2]
      simp

end Absorb

/-! ## Shapes -/

/-- What is known of the messages that one level of nesting has read. -/
structure Shape where
  value : Value → Prop
  struct : Struct → Prop
  list : List Value → Bytes → Prop

/-- A kind whose number fits and whose texts are UTF-8, with messages of a shape inside it. -/
def Kind.Within (shape : Shape) : Kind → Prop
  | .null n => -0x80000000 ≤ n ∧ n < 0x80000000
  | .text bs => Utf8.isValid bs = true
  | .struct fields unknown => shape.struct ⟨fields, unknown⟩
  | .list values unknown => shape.list values unknown
  | _ => True

/-- The shape of messages with messages of another shape inside them, which `inner` reads. -/
def Shape.above (inner : Level) (shape : Shape) : Shape where
  value := fun (.mk kind unknown) => kind.Within shape ∧ Unread (kindField inner) unknown
  struct s := Entries.Increasing s.fields
    ∧ (∀ e ∈ s.fields, Utf8.isValid e.1 = true ∧ shape.value e.2)
    ∧ Unread (structField inner.value) s.unknown
  list vs unknown := (∀ v ∈ vs, shape.value v) ∧ Unread (listField inner.value) unknown

/-- The shape of the messages that are nested at most `n` deep. -/
def shape : (n : Nat) → Shape
  | 0 => ⟨fun _ => False, fun _ => False, fun _ _ => False⟩
  | n + 1 => .above (level n) (shape n)

theorem value_unset (n : Nat) : (shape (n + 1)).value (.mk .unset []) := ⟨trivial, unread_nil⟩

theorem struct_empty (n : Nat) : (shape (n + 1)).struct ⟨[], []⟩ :=
  ⟨.nil, by simp, unread_nil⟩

theorem list_empty (n : Nat) : (shape (n + 1)).list [] [] := ⟨by simp, unread_nil⟩

/-! ## Reading gives messages of a shape -/

theorem of_checkedText {bs bs' : Bytes} (h : checkedText bs = .ok bs') :
    Utf8.isValid bs' = true := by
  rw [checkedText] at h
  split at h
  · cases h
    assumption
  · cases h

theorem word32_range (k : Nat) : -0x80000000 ≤ word32 k ∧ word32 k < 0x80000000 := by
  have hlow := @Int.le_bmod k 0x100000000 (by decide)
  have hhigh := @Int.bmod_lt k 0x100000000 (by decide)
  exact ⟨hlow, hhigh⟩

theorem kindField_foreign {inner : Level} {k : Kind} {f : Field}
    (h : kindField inner k f = .ok none) : Foreign (kindField inner) f := by
  intro k'
  unfold kindField at h ⊢
  split at h
  · cases h
  · cases h
  · obtain ⟨_, -, hresult⟩ := bind_eq_ok.1 h
    cases hresult
  · cases h
  · obtain ⟨_, -, hresult⟩ := bind_eq_ok.1 h
    cases hresult
  · obtain ⟨_, -, hresult⟩ := bind_eq_ok.1 h
    cases hresult
  · rfl

theorem structField_foreign {value : Value → Bytes → Except Error Value}
    {es : List (Bytes × Value)} {f : Field} (h : structField value es f = .ok none) :
    Foreign (structField value) f := by
  intro es'
  unfold structField at h ⊢
  split at h
  · obtain ⟨_, -, hresult⟩ := bind_eq_ok.1 h
    cases hresult
  · rfl

theorem listField_foreign {value : Value → Bytes → Except Error Value}
    {vs : List Value} {f : Field} (h : listField value vs f = .ok none) :
    Foreign (listField value) f := by
  intro vs'
  unfold listField at h ⊢
  split at h
  · obtain ⟨_, -, hresult⟩ := bind_eq_ok.1 h
    cases hresult
  · rfl

/-- Level `n` reads values into values of its shape. -/
def ValuesKept (n : Nat) : Prop :=
  ∀ v bs v', (shape n).value v → (level n).value v bs = .ok v' → (shape n).value v'

/-- Level `n` reads structs, and what was there before them, into structs of its shape. -/
def StructsKept (n : Nat) : Prop :=
  ∀ s bs s', (0 < n → (shape n).struct s) → (level n).struct s bs = .ok s' → (shape n).struct s'

/-- Level `n` reads lists, and what was there before them, into lists of its shape. -/
def ListsKept (n : Nat) : Prop :=
  ∀ vs unknown bs vs' unknown', (0 < n → (shape n).list vs unknown) →
    (level n).list vs unknown bs = .ok (vs', unknown') → (shape n).list vs' unknown'

theorem kindField_kept {n : Nat} (hstruct : StructsKept n) (hlist : ListsKept n) {k k' : Kind}
    {f : Field} (hk : k.Within (shape n)) (h : kindField (level n) k f = .ok (some k')) :
    k'.Within (shape n) := by
  unfold kindField at h
  split at h
  · cases h
    exact word32_range _
  · cases h
    trivial
  · obtain ⟨bs, hchecked, hresult⟩ := bind_eq_ok.1 h
    cases hresult
    exact of_checkedText hchecked
  · cases h
    trivial
  · obtain ⟨s, hread, hresult⟩ := bind_eq_ok.1 h
    cases hresult
    refine hstruct _ _ _ ?_ hread
    intro hn
    obtain ⟨n, rfl⟩ : ∃ i, n = i + 1 := ⟨n - 1, by omega⟩
    split
    · exact hk
    · exact struct_empty n
  · obtain ⟨⟨vs, unknown⟩, hread, hresult⟩ := bind_eq_ok.1 h
    cases hresult
    refine hlist _ _ _ _ _ ?_ hread
    intro hn
    obtain ⟨n, rfl⟩ : ∃ i, n = i + 1 := ⟨n - 1, by omega⟩
    split
    · exact hk
    · exact list_empty n
  · cases h

theorem valuesKept_succ {n : Nat} (hstruct : StructsKept n) (hlist : ListsKept n) :
    ValuesKept (n + 1) := by
  rintro ⟨kind, unknown⟩ bs v' ⟨hkind, hunknown⟩ h
  obtain ⟨fs, hfields, hrest⟩ := bind_eq_ok.1 h
  obtain ⟨⟨kind', unknown'⟩, habsorb, hresult⟩ := bind_eq_ok.1 hrest
  cases hresult
  refine ⟨?_, ?_⟩
  · exact absorb_kept (fun m f m' => kindField_kept hstruct hlist) hkind habsorb
  · exact absorb_unread (fun _ _ => kindField_foreign) (legible_of_fields hfields) (by simpa)
      habsorb

theorem entry_kept {value : Value → Bytes → Except Error Value} {P : Value → Prop}
    (hvalue : ∀ v bs v', P v → value v bs = .ok v' → P v') (hunset : P (.mk .unset []))
    {bs : Bytes} {e : Bytes × Value} (h : entry value bs = .ok e) :
    Utf8.isValid e.1 = true ∧ P e.2 := by
  obtain ⟨fs, hfields, hrest⟩ := bind_eq_ok.1 h
  obtain ⟨⟨e', unknown⟩, habsorb, hresult⟩ := bind_eq_ok.1 hrest
  cases hresult
  refine absorb_kept (P := fun e : Bytes × Value => Utf8.isValid e.1 = true ∧ P e.2) ?_
    ⟨rfl, hunset⟩ habsorb
  intro e f e' he hfield
  unfold entryField at hfield
  split at hfield
  · obtain ⟨name, hchecked, hresult⟩ := bind_eq_ok.1 hfield
    cases hresult
    exact ⟨of_checkedText hchecked, he.2⟩
  · obtain ⟨v, hread, hresult⟩ := bind_eq_ok.1 hfield
    cases hresult
    exact ⟨he.1, hvalue _ _ _ he.2 hread⟩
  · cases hfield

theorem structsKept_succ {n : Nat} (hvalue : ValuesKept (n + 1)) : StructsKept (n + 2) := by
  intro s bs s' hs h
  obtain ⟨-, hmembers, hunknown⟩ := hs (by omega)
  obtain ⟨fs, hfields, hrest⟩ := bind_eq_ok.1 h
  obtain ⟨⟨es, unknown'⟩, habsorb, hresult⟩ := bind_eq_ok.1 hrest
  cases hresult
  refine ⟨Entries.increasing_ofPairs _, ?_, ?_⟩
  · intro e he
    have hall := by
      refine absorb_kept (P := fun es => ∀ e ∈ es, Utf8.isValid e.1 = true
        ∧ (shape (n + 1)).value e.2) ?_ (by simpa using hmembers) habsorb
      intro es f es' hes hfield
      unfold structField at hfield
      split at hfield
      · obtain ⟨e, hentry, hresult⟩ := bind_eq_ok.1 hfield
        cases hresult
        exact List.forall_mem_cons.2 ⟨entry_kept hvalue (value_unset n) hentry, hes⟩
      · cases hfield
    exact hall e (List.mem_reverse.1 (Entries.mem_of_mem_ofPairs he))
  · exact absorb_unread (fun _ _ => structField_foreign) (legible_of_fields hfields) (by simpa)
      habsorb

theorem listsKept_succ {n : Nat} (hvalue : ValuesKept (n + 1)) : ListsKept (n + 2) := by
  intro vs unknown bs vs' unknown' hvs h
  obtain ⟨hmembers, hunknown⟩ := hvs (by omega)
  obtain ⟨fs, hfields, hrest⟩ := bind_eq_ok.1 h
  obtain ⟨⟨ws, unknown''⟩, habsorb, hresult⟩ := bind_eq_ok.1 hrest
  cases hresult
  refine ⟨?_, ?_⟩
  · have hall := by
      refine absorb_kept (P := fun vs => ∀ v ∈ vs, (shape (n + 1)).value v) ?_
        (by simpa using hmembers) habsorb
      intro ws f ws' hws hfield
      unfold listField at hfield
      split at hfield
      · obtain ⟨v, hread, hresult⟩ := bind_eq_ok.1 hfield
        cases hresult
        exact List.forall_mem_cons.2 ⟨hvalue _ _ _ (value_unset n) hread, hws⟩
      · cases hfield
    simpa using hall
  · exact absorb_unread (fun _ _ => listField_foreign) (legible_of_fields hfields) (by simpa)
      habsorb

/-- **Structs and lists stand on even levels, and are read into the shapes of these.** -/
theorem even_kept (k : Nat) : StructsKept (2 * k) ∧ ListsKept (2 * k) := by
  induction k with
  | zero =>
      constructor
      · intro s bs s' _ h
        cases h
      · intro vs unknown bs vs' unknown' _ h
        cases h
  | succ k ih =>
      have hvalue := valuesKept_succ ih.1 ih.2
      exact ⟨structsKept_succ hvalue, listsKept_succ hvalue⟩

end RoundTrip.Protobuf
