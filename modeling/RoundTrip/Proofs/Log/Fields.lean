import Mathlib.Data.List.Nodup
import RoundTrip.Log.Logger
import RoundTrip.Proofs.Entries
import RoundTrip.Proofs.Log.Renderings

/-!
# Fields in log lines

A line is an opening with the severity and the message, and a row of fields in increasing order of
the keys that they are shown under. The console layout shows every field under its key. In the
layout of pairs a field with the key of a fixed part is shown under another name, and a field that
has this name already gives way to it. An attribute with neither a key nor a value is left out.

Main statements: `exists_kept`, which fields are shown; `shownFields_eq_of_perm`, that the order in
which they are given does not matter; and `line_eq`, that they make up the line.
-/

set_option autoImplicit false

namespace RoundTrip.Log

/-- No key occurs twice: the fields are those of a map. -/
def Distinct (fs : List Property) : Prop := (fs.map Prod.fst).Nodup

theorem Distinct.perm {fs gs : List Property} (h : Distinct fs) (hperm : gs.Perm fs) :
    Distinct gs :=
  (hperm.map Prod.fst).nodup_iff.2 h

theorem Distinct.sublist {fs gs : List Property} (h : Distinct fs) (hsub : gs.Sublist fs) :
    Distinct gs :=
  List.Nodup.sublist (hsub.map Prod.fst) h

theorem Distinct.nodup {fs : List Property} (h : Distinct fs) : fs.Nodup := h.of_map

theorem Distinct.eq_of_key {fs : List Property} (h : Distinct fs) {f g : Property} (hf : f ∈ fs)
    (hg : g ∈ fs) (hkey : f.1 = g.1) : f = g :=
  List.inj_on_of_nodup_map h hf hg hkey

/-! ## Other names -/

/-- The name that a field gets when its key is that of a fixed part. -/
def otherName (name : Bytes) : Bytes := Bytes.ofString "fields." ++ name

theorem otherName_inj {m n : Bytes} (h : otherName m = otherName n) : m = n :=
  List.append_cancel_left h

/-- One name: its field is shown under the other name, and what has that name gives way. -/
theorem mem_rename_iff {fs : List Property} (h : Distinct fs) {name : Bytes} {g : Property} :
    g ∈ rename fs name ↔ (∃ d, (name, d) ∈ fs ∧ g = (otherName name, d))
      ∨ g ∈ fs ∧ g.1 ≠ name ∧ (name ∈ fs.map Prod.fst → g.1 ≠ otherName name) := by
  rw [rename]
  cases hfind : fs.find? fun f => f.1 == name with
  | none =>
      have hnone : name ∉ fs.map Prod.fst := by
        intro hmem
        obtain ⟨f, hf, rfl⟩ := List.mem_map.1 hmem
        exact absurd (List.find?_eq_none.1 hfind f hf) (by simp)
      constructor
      · intro hg
        refine .inr ⟨hg, ?_, fun hmem => absurd hmem hnone⟩
        rintro rfl
        exact hnone (List.mem_map_of_mem hg)
      · rintro (⟨d, hd, -⟩ | ⟨hg, -, -⟩)
        · exact absurd (List.mem_map_of_mem hd) hnone
        · exact hg
  | some f =>
      obtain ⟨key, d⟩ := f
      obtain rfl : key = name := by simpa using List.find?_some hfind
      have hf : (key, d) ∈ fs := List.mem_of_find?_eq_some hfind
      have hkey : key ∈ fs.map Prod.fst := List.mem_map_of_mem hf
      simp only [List.mem_cons, List.mem_filter, Bool.and_eq_true, bne_iff_ne, ne_eq]
      constructor
      · rintro (rfl | ⟨hg, hne, hother⟩)
        · exact .inl ⟨d, hf, rfl⟩
        · exact .inr ⟨hg, hne, fun _ => hother⟩
      · rintro (⟨d', hd', rfl⟩ | ⟨hg, hne, hother⟩)
        · -- the key occurs once, so the value found is the only one
          obtain rfl : d' = d := congrArg Prod.snd (h.eq_of_key hd' hf rfl)
          exact .inl rfl
        · exact .inr ⟨hg, hne, hother hkey⟩

theorem distinct_rename {fs : List Property} (h : Distinct fs) (name : Bytes) :
    Distinct (rename fs name) := by
  rw [rename]
  cases fs.find? fun f => f.1 == name with
  | none => exact h
  | some f =>
      refine List.nodup_cons.2 ⟨?_, h.sublist List.filter_sublist⟩
      simp

theorem distinct_foldl_rename (names : List Bytes) {fs : List Property} (h : Distinct fs) :
    Distinct (names.foldl rename fs) := by
  induction names generalizing fs with
  | nil => exact h
  | cons name names ih => exact ih (distinct_rename h name)

/-- All names, when none of them is the other name of one of them: the fields that have one of the
names are shown under the other name, and what has one of these names gives way. -/
theorem mem_foldl_rename_iff {names : List Bytes} (hnames : names.Nodup)
    (hother : ∀ name ∈ names, otherName name ∉ names) {fs : List Property} (h : Distinct fs)
    {g : Property} :
    g ∈ names.foldl rename fs
      ↔ (∃ name ∈ names, ∃ d, (name, d) ∈ fs ∧ g = (otherName name, d))
        ∨ g ∈ fs ∧ g.1 ∉ names
          ∧ ∀ name ∈ names, name ∈ fs.map Prod.fst → g.1 ≠ otherName name := by
  induction names generalizing fs with
  | nil => simp
  | cons n names ih =>
      obtain ⟨hn, hnames⟩ := List.nodup_cons.1 hnames
      -- the fields that the later names are about are still the same
      have hkeep : ∀ m ∈ names, ∀ d, (m, d) ∈ rename fs n ↔ (m, d) ∈ fs := by
        intro m hm d
        have hmn : m ≠ n := fun heq => hn (heq ▸ hm)
        have hmo : m ≠ otherName n := fun heq =>
          hother n List.mem_cons_self (heq ▸ List.mem_cons_of_mem n hm)
        simp [mem_rename_iff h, hmn, hmo]
      have hkeys : ∀ m ∈ names, m ∈ (rename fs n).map Prod.fst ↔ m ∈ fs.map Prod.fst := by
        intro m hm
        simp [hkeep m hm]
      have hother' : ∀ name ∈ names, otherName name ∉ names := fun m hm hmem =>
        hother m (List.mem_cons_of_mem n hm) (List.mem_cons_of_mem n hmem)
      rw [List.foldl_cons, ih hnames hother' (distinct_rename h n)]
      constructor
      · rintro (⟨m, hm, d, hd, rfl⟩ | ⟨hg, hnot, hway⟩)
        · exact .inl ⟨m, List.mem_cons_of_mem n hm, d, (hkeep m hm d).1 hd, rfl⟩
        · rcases (mem_rename_iff h).1 hg with ⟨d, hd, rfl⟩ | ⟨hg, hne, hfirst⟩
          · exact .inl ⟨n, List.mem_cons_self, d, hd, rfl⟩
          · refine .inr ⟨hg, List.not_mem_cons_of_ne_of_not_mem hne hnot, ?_⟩
            intro m hm hkey
            rcases List.mem_cons.1 hm with rfl | hm
            · exact hfirst hkey
            · exact hway m hm ((hkeys m hm).2 hkey)
      · rintro (⟨m, hm, d, hd, rfl⟩ | ⟨hg, hnot, hway⟩)
        · rcases List.mem_cons.1 hm with rfl | hm
          · -- once shown under its other name, a field is left alone by the later names
            refine .inr ⟨(mem_rename_iff h).2 (.inl ⟨d, hd, rfl⟩), ?_, ?_⟩
            · intro hmem
              exact hother m List.mem_cons_self (List.mem_cons_of_mem m hmem)
            · intro m' hm' _ heq
              obtain rfl := otherName_inj heq
              exact hn hm'
          · exact .inl ⟨m, hm, d, (hkeep m hm d).2 hd, rfl⟩
        · rw [List.mem_cons, not_or] at hnot
          obtain ⟨hne, hnot⟩ := hnot
          refine .inr ⟨(mem_rename_iff h).2 (.inr ⟨hg, hne, hway n List.mem_cons_self⟩), hnot, ?_⟩
          intro m hm hkey
          exact hway m (List.mem_cons_of_mem n hm) ((hkeys m hm).1 hkey)

theorem fixedNames_nodup : fixedNames.Nodup := by decide

theorem otherName_not_mem_fixedNames : ∀ name ∈ fixedNames, otherName name ∉ fixedNames := by decide

/-! ## What is shown -/

/-- A field as a layout shows it. -/
def Layout.shownField : Layout → Property → Property
  | console, f => f
  | pairs, f => (if f.1 ∈ fixedNames then otherName f.1 else f.1, f.2)
  | attributes, f => f

/-- Fields that a layout leaves out: a pair whose key is the other name of one of the fields, and an
attribute with neither a key nor a value. -/
def Layout.givesWay : Layout → List Property → Property → Bool
  | console, _, _ => false
  | pairs, fs, f =>
      fixedNames.any fun name => decide (f.1 = otherName name ∧ name ∈ fs.map Prod.fst)
  | attributes, _, f => f.1.isEmpty && f.2.isNothing

/-- The fields of a line, as they are shown and in their order. -/
def Layout.shownFields : Layout → List Property → List Property
  | console, fs => Entries.sort fs
  | pairs, fs => Entries.sort (fixedNames.foldl rename fs)
  | attributes, fs => Entries.sort (fs.filter fun f => !isDropped f)

theorem givesWay_pairs_iff {fs : List Property} {f : Property} :
    Layout.pairs.givesWay fs f = true
      ↔ ∃ name ∈ fixedNames, f.1 = otherName name ∧ name ∈ fs.map Prod.fst := by
  simp only [Layout.givesWay, List.any_eq_true, decide_eq_true_eq]

theorem shownField_of_mem {f : Property} (h : f.1 ∈ fixedNames) :
    Layout.pairs.shownField f = (otherName f.1, f.2) := by
  simp [Layout.shownField, h]

theorem shownField_of_not_mem {f : Property} (h : f.1 ∉ fixedNames) :
    Layout.pairs.shownField f = f := by
  simp [Layout.shownField, h]

/-- Fields that do not give way are shown under different names. -/
theorem shownField_injOn {fs : List Property} (h : Distinct fs) {f g : Property} (hf : f ∈ fs)
    (hg : g ∈ fs) (hf' : ¬ Layout.pairs.givesWay fs f = true)
    (hg' : ¬ Layout.pairs.givesWay fs g = true)
    (heq : Layout.pairs.shownField f = Layout.pairs.shownField g) : f = g := by
  by_cases hfixed : f.1 ∈ fixedNames
  · rw [shownField_of_mem hfixed] at heq
    by_cases hfixed' : g.1 ∈ fixedNames
    · rw [shownField_of_mem hfixed'] at heq
      exact h.eq_of_key hf hg (otherName_inj (congrArg Prod.fst heq))
    · -- the second field has the other name of the first as its key
      rw [shownField_of_not_mem hfixed'] at heq
      subst heq
      exact absurd (givesWay_pairs_iff.2 ⟨f.1, hfixed, rfl, List.mem_map_of_mem hf⟩) hg'
  · rw [shownField_of_not_mem hfixed] at heq
    by_cases hfixed' : g.1 ∈ fixedNames
    · rw [shownField_of_mem hfixed'] at heq
      subst heq
      exact absurd (givesWay_pairs_iff.2 ⟨g.1, hfixed', rfl, List.mem_map_of_mem hg⟩) hf'
    · rwa [shownField_of_not_mem hfixed'] at heq

/-- The fields of a line of pairs are those that do not give way. -/
theorem foldl_rename_perm {fs : List Property} (h : Distinct fs) :
    (fixedNames.foldl rename fs).Perm
      ((fs.filter fun f => !Layout.pairs.givesWay fs f).map Layout.pairs.shownField) := by
  refine (List.perm_ext_iff_of_nodup (distinct_foldl_rename fixedNames h).nodup ?_).2 ?_
  · refine (List.nodup_map_iff_inj_on (h.nodup.filter _)).2 ?_
    intro f hf g hg heq
    rw [List.mem_filter, Bool.not_eq_true'] at hf hg
    exact shownField_injOn h hf.1 hg.1 (by simp [hf.2]) (by simp [hg.2]) heq
  · intro g
    rw [mem_foldl_rename_iff fixedNames_nodup otherName_not_mem_fixedNames h, List.mem_map]
    simp only [List.mem_filter, Bool.not_eq_true', ← Bool.not_eq_true, givesWay_pairs_iff]
    constructor
    · rintro (⟨name, hname, d, hd, rfl⟩ | ⟨hg, hfixed, hway⟩)
      · refine ⟨(name, d), ⟨hd, ?_⟩, shownField_of_mem hname⟩
        -- a fixed name is no other name
        rintro ⟨name', hname', rfl, -⟩
        exact otherName_not_mem_fixedNames name' hname' hname
      · refine ⟨g, ⟨hg, ?_⟩, shownField_of_not_mem hfixed⟩
        rintro ⟨name, hname, hkey, hmem⟩
        exact hway name hname hmem hkey
    · rintro ⟨f, ⟨hf, hway⟩, rfl⟩
      by_cases hfixed : f.1 ∈ fixedNames
      · exact .inl ⟨f.1, hfixed, f.2, hf, shownField_of_mem hfixed⟩
      · rw [shownField_of_not_mem hfixed]
        refine .inr ⟨hf, hfixed, ?_⟩
        intro name hname hmem hkey
        exact hway ⟨name, hname, hkey, hmem⟩

theorem increasing_shownFields (layout : Layout) {fs : List Property} (h : Distinct fs) :
    Entries.Increasing (layout.shownFields fs) := by
  cases layout with
  | console => exact Entries.increasing_sort h
  | pairs => exact Entries.increasing_sort (distinct_foldl_rename fixedNames h)
  | attributes => exact Entries.increasing_sort (h.sublist List.filter_sublist)

/-- What is shown does not depend on the order in which fields are given. -/
theorem shownFields_eq_of_perm (layout : Layout) {fs gs : List Property} (h : Distinct fs)
    (hperm : gs.Perm fs) : layout.shownFields gs = layout.shownFields fs := by
  have hdistinct := h.perm hperm
  cases layout with
  | console => exact Entries.sort_eq_sort hperm hdistinct
  | pairs =>
      -- renaming puts fields in front, so only the members can be compared
      refine Entries.sort_eq_sort ?_ (distinct_foldl_rename fixedNames hdistinct)
      refine (List.perm_ext_iff_of_nodup (distinct_foldl_rename fixedNames hdistinct).nodup
        (distinct_foldl_rename fixedNames h).nodup).2 ?_
      intro f
      rw [mem_foldl_rename_iff fixedNames_nodup otherName_not_mem_fixedNames hdistinct,
        mem_foldl_rename_iff fixedNames_nodup otherName_not_mem_fixedNames h]
      simp only [hperm.mem_iff, (hperm.map Prod.fst).mem_iff]
  | attributes =>
      exact Entries.sort_eq_sort (hperm.filter _) (hdistinct.sublist List.filter_sublist)

/-- Every field that does not give way is shown once. Nothing is said of an attribute that has the
name of a time. -/
theorem exists_kept (layout : Layout) {fs : List Property} (h : Distinct fs) :
    ∃ kept : List Property, kept.Sublist fs
      ∧ (∀ f ∈ fs, ¬ (layout = .attributes ∧ f.1 = timeName) →
          (f ∈ kept ↔ layout.givesWay fs f = false))
      ∧ (layout.shownFields fs).Perm (kept.map layout.shownField) := by
  cases layout with
  | console =>
      have hsame : fs.map Layout.console.shownField = fs := List.map_id fs
      refine ⟨fs, List.Sublist.refl fs, by simp [Layout.givesWay], ?_⟩
      rw [hsame]
      exact Entries.sort_perm fs
  | pairs =>
      refine ⟨fs.filter fun f => !Layout.pairs.givesWay fs f, List.filter_sublist, ?_, ?_⟩
      · intro f hf _
        simp [hf]
      · exact (Entries.sort_perm _).trans (foldl_rename_perm h)
  | attributes =>
      have hsame : ∀ gs, List.map Layout.attributes.shownField gs = gs := List.map_id
      refine ⟨fs.filter fun f => !isDropped f, List.filter_sublist, ?_, ?_⟩
      · intro f hf htime
        have hkey : (f.1 == timeName) = false := by simpa using htime
        have hdropped : isDropped f = Layout.attributes.givesWay fs f := by
          rw [isDropped, hkey]
          rfl
        simp [hf, hdropped]
      · rw [hsame]
        exact Entries.sort_perm _

/-! ## Lines -/

/-- The part of a line before the fields. -/
def Layout.opening : Layout → Record → Bytes
  | console, r => Bytes.ofString (upperWord r.severity ++ "\t") ++ r.message
  | pairs, r =>
      pair (Bytes.ofString "level") (Bytes.ofString (pairWord r.severity))
        ++ (if r.message.isEmpty then []
            else Bytes.ofString " " ++ pair (Bytes.ofString "msg") r.message)
  | attributes, r =>
      attributePair (Bytes.ofString "level") (Bytes.ofString (upperWord r.severity))
        ++ Bytes.ofString " " ++ attributePair (Bytes.ofString "msg") (attributeText r.message)

/-- The part of a line that shows the given fields, in the order given. -/
def Layout.row (layout : Layout) (fs : List Property) : Bytes :=
  let texts := (fs.flatMap layout.parts).map layout.partText
  match layout with
  | console =>
      if texts.isEmpty then []
      else Bytes.ofString "\t\x7b" ++ (Bytes.ofString ", ").intercalate texts
        ++ Bytes.ofString "\x7d"
  | pairs => texts.flatMap fun text => Bytes.ofString " " ++ text
  | attributes => texts.flatMap fun text => Bytes.ofString " " ++ text

theorem row_pairs (fs : List Property) :
    Layout.pairs.row fs = fs.flatMap fun f => Bytes.ofString " " ++ pair f.1 f.2.shown := by
  simp [Layout.row, Layout.parts, Layout.members, Layout.partText, pair, List.flatMap_assoc,
    List.flatMap_map]

theorem row_attributes (fs : List Property) :
    Layout.attributes.row fs
      = fs.flatMap fun f => Bytes.ofString " " ++ attributePair f.1 (attributeValue f.2) := by
  simp [Layout.row, Layout.parts, Layout.members, Layout.partText, List.flatMap_assoc,
    List.flatMap_map]

/-- **A line is its opening and the row of what is shown.** -/
theorem line_eq (layout : Layout) (r : Record) :
    layout.line r
      = layout.opening r ++ layout.row (layout.shownFields r.fields) ++ Bytes.ofString "\n" := by
  cases layout with
  | console =>
      rw [Layout.line, consoleLine, Layout.opening, Layout.row, Layout.shownFields,
        List.isEmpty_map]
      rfl
  | pairs =>
      rw [Layout.line, pairsLine, Layout.opening, row_pairs, Layout.shownFields]
      simp only [List.cons_append, intercalate_cons, List.flatMap_append, List.flatMap_map]
      by_cases hmessage : r.message.isEmpty = true
      · simp [hmessage]
      · simp [hmessage]
  | attributes =>
      rw [Layout.line, attributesLine, Layout.opening, row_attributes, Layout.shownFields]
      simp only [intercalate_cons, List.flatMap_cons, List.flatMap_map, List.append_assoc]

end RoundTrip.Log
