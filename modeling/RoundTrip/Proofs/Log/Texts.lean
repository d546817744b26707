import RoundTrip.Proofs.Log.Fields

/-!
# Lines of entries are texts

The texts of an entry are made of characters, so its line is well-formed in every layout, and what a
logger writes for an entry has the bytes that it prints for the record of the entry.

Main statement: `ofString_write`.
-/

set_option autoImplicit false

namespace RoundTrip.Log

open RoundTrip.Utf8 (isValid isValid_append isValid_flatten)

/-! ## Well-formed parts -/

theorem isValid_intercalate {sep : Bytes} {parts : List Bytes} (hsep : isValid sep = true)
    (h : ∀ bs ∈ parts, isValid bs = true) : isValid (sep.intercalate parts) = true := by
  cases parts with
  | nil => rfl
  | cons bs parts =>
      rw [List.forall_mem_cons] at h
      rw [intercalate_cons]
      refine isValid_append h.1 (isValid_flatten ?_)
      intro cs hcs
      obtain ⟨part, hpart, rfl⟩ := List.mem_map.1 hcs
      exact isValid_append hsep (h.2 part hpart)

theorem isValid_shown (d : Datum) : isValid d.plain.shown = true := by
  cases d with
  | null => exact Bytes.isValid_ofString _
  | bool b => exact Bytes.isValid_ofString _
  | integer n => exact Bytes.isValid_ofString _
  | text s => exact Bytes.isValid_ofString s
  | failure message => exact Bytes.isValid_ofString message
  | texts ss =>
      refine isValid_append (isValid_append (Bytes.isValid_ofString _) ?_)
        (Bytes.isValid_ofString _)
      refine isValid_intercalate (Bytes.isValid_ofString _) ?_
      intro bs hbs
      obtain ⟨s, -, rfl⟩ := List.mem_map.1 hbs
      exact Bytes.isValid_ofString s

theorem isValid_pairValue {bs : Bytes} (h : isValid bs = true) : isValid (pairValue bs) = true := by
  rw [pairValue]
  split
  · exact h
  · exact Bytes.isValid_ofString _

theorem isValid_attributeText {bs : Bytes} (h : isValid bs = true) :
    isValid (attributeText bs) = true := by
  rw [attributeText]
  split
  · exact Bytes.isValid_ofString _
  · exact h

/-- A key and a value stand around an `=`. -/
theorem isValid_equals {key value : Bytes} (hkey : isValid key = true)
    (hvalue : isValid value = true) : isValid (key ++ Bytes.ofString "=" ++ value) = true :=
  isValid_append (isValid_append hkey (Bytes.isValid_ofString _)) hvalue

theorem isValid_attributePair {key text : Bytes} (hkey : isValid key = true)
    (htext : isValid text = true) : isValid (attributePair key text) = true :=
  isValid_equals (isValid_attributeText hkey) htext

/-! ## Fields with texts -/

/-- The key is a text and the value is that of a field of an entry. -/
def IsText (f : Property) : Prop := isValid f.1 = true ∧ ∃ d : Datum, f.2 = .plain d.plain

theorem isText_record (e : Entry) : ∀ f ∈ e.record.fields, IsText f := by
  intro f hf
  obtain ⟨g, -, rfl⟩ := List.mem_map.1 hf
  exact ⟨Bytes.isValid_ofString g.1, g.2, rfl⟩

theorem isText_rename {fs : List Property} (h : ∀ f ∈ fs, IsText f) {name : Bytes}
    (hname : isValid name = true) : ∀ f ∈ rename fs name, IsText f := by
  rw [rename]
  cases hfind : fs.find? fun f => f.1 == name with
  | none => exact h
  | some f =>
      rw [List.forall_mem_cons]
      refine ⟨⟨isValid_append (Bytes.isValid_ofString _) hname, ?_⟩, ?_⟩
      · exact (h f (List.mem_of_find?_eq_some hfind)).2
      · exact fun g hg => h g (List.mem_filter.1 hg).1

theorem isText_foldl_rename {names : List Bytes} (hnames : ∀ name ∈ names, isValid name = true)
    {fs : List Property} (h : ∀ f ∈ fs, IsText f) : ∀ f ∈ names.foldl rename fs, IsText f := by
  induction names generalizing fs with
  | nil => exact h
  | cons name names ih =>
      rw [List.forall_mem_cons] at hnames
      exact ih hnames.2 (isText_rename h hnames.1)

theorem isText_shownFields (layout : Layout) {fs : List Property} (h : ∀ f ∈ fs, IsText f) :
    ∀ f ∈ layout.shownFields fs, IsText f := by
  intro f hf
  cases layout with
  | console => exact h f ((Entries.sort_perm fs).mem_iff.1 hf)
  | pairs =>
      refine isText_foldl_rename ?_ h f ((Entries.sort_perm _).mem_iff.1 hf)
      intro name hname
      obtain ⟨s, -, rfl⟩ := List.mem_map.1 hname
      exact Bytes.isValid_ofString s
  | attributes => exact h f (List.mem_filter.1 ((Entries.sort_perm _).mem_iff.1 hf)).1

theorem isValid_partText (layout : Layout) {f : Property} (h : IsText f) :
    ∀ p ∈ layout.parts f, isValid (layout.partText p) = true := by
  obtain ⟨key, v⟩ := f
  obtain ⟨hkey, d, rfl⟩ := h
  have hname : isValid (key ++ []) = true := by rwa [List.append_nil]
  intro p hp
  cases layout with
  | console =>
      obtain rfl := List.mem_singleton.1 hp
      exact isValid_append (isValid_append (Bytes.isValid_ofString _) (Bytes.isValid_ofString _))
        (Bytes.isValid_ofString _)
  | pairs =>
      obtain rfl := List.mem_singleton.1 hp
      exact isValid_equals hname (isValid_pairValue (isValid_shown d))
  | attributes =>
      obtain rfl := List.mem_singleton.1 hp
      exact isValid_attributePair hname (isValid_attributeText (isValid_shown d))

/-! ## Lines -/

theorem isValid_opening (layout : Layout) (e : Entry) :
    isValid (layout.opening e.record) = true := by
  have hmessage : isValid e.record.message = true := Bytes.isValid_ofString e.message
  have hpair : ∀ {s : String} {value : Bytes}, isValid value = true →
      isValid (pair (Bytes.ofString s) value) = true :=
    fun hvalue => isValid_equals (Bytes.isValid_ofString _) (isValid_pairValue hvalue)
  cases layout with
  | console => exact isValid_append (Bytes.isValid_ofString _) hmessage
  | pairs =>
      refine isValid_append (hpair (Bytes.isValid_ofString _)) ?_
      split
      · rfl
      · exact isValid_append (Bytes.isValid_ofString _) (hpair hmessage)
  | attributes =>
      refine isValid_append (isValid_append ?_ (Bytes.isValid_ofString _)) ?_
      · exact isValid_attributePair (Bytes.isValid_ofString _) (Bytes.isValid_ofString _)
      · exact isValid_attributePair (Bytes.isValid_ofString _) (isValid_attributeText hmessage)

theorem isValid_row (layout : Layout) {fs : List Property} (h : ∀ f ∈ fs, IsText f) :
    isValid (layout.row fs) = true := by
  have htexts : ∀ text ∈ (fs.flatMap layout.parts).map layout.partText, isValid text = true := by
    intro text htext
    obtain ⟨p, hp, rfl⟩ := List.mem_map.1 htext
    obtain ⟨f, hf, hp⟩ := List.mem_flatMap.1 hp
    exact isValid_partText layout (h f hf) p hp
  have hspaced : isValid (((fs.flatMap layout.parts).map layout.partText).flatMap
      fun text => Bytes.ofString " " ++ text) = true := by
    refine isValid_flatten ?_
    intro bs hbs
    obtain ⟨text, htext, rfl⟩ := List.mem_map.1 hbs
    exact isValid_append (Bytes.isValid_ofString _) (htexts text htext)
  cases layout with
  | console =>
      rw [Layout.row]
      split
      · rfl
      · refine isValid_append (isValid_append (Bytes.isValid_ofString _) ?_)
          (Bytes.isValid_ofString _)
        exact isValid_intercalate (Bytes.isValid_ofString _) htexts
  | pairs => exact hspaced
  | attributes => exact hspaced

theorem isValid_line (layout : Layout) (e : Entry) : isValid (layout.line e.record) = true := by
  rw [line_eq]
  refine isValid_append (isValid_append (isValid_opening layout e) ?_) (Bytes.isValid_ofString _)
  exact isValid_row layout (isText_shownFields layout (isText_record e))

/-- **What is written for an entry has the bytes that are printed for its record.** -/
theorem ofString_write (l : Logger) (e : Entry) :
    Bytes.ofString (l.write e) = l.print e.record := by
  refine Bytes.ofString_text ?_
  rw [Logger.print]
  split
  · exact isValid_line l.layout e
  · rfl

end RoundTrip.Log
