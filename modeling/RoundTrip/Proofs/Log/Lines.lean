import RoundTrip.Proofs.Log.Texts

/-!
# What loggers print

A logger at the level `debug` prints the line of every record, and a line shows the fields of its
record up to the rules of the layout.

Main statement: `print_shows_fields`. That a field can give way, and that an attribute can be left
out, is `print_loses_field`.
-/

set_option autoImplicit false

namespace RoundTrip.Log

/-- A logger of every layout can be made at the level `debug`, and it prints the line of every
record. -/
theorem exists_debug_logger (layout : Layout) :
    ∃ l, Logger.ofLevel layout "debug" = .ok l ∧ ∀ r, l.print r = layout.line r := by
  refine ⟨⟨layout, Severity.debug.rank⟩, ?_, ?_⟩
  · cases layout with
    | _ => rfl
  · intro r
    have hrank : Severity.debug.rank ≤ r.severity.rank := by
      cases r.severity with
      | _ => decide
    rw [Logger.print, if_pos hrank]

/-- **Log lines show the fields of a record.** At the level `debug` every record is printed as an
opening and a row of fields, whatever its severity, its message and its map of fields, and what is
written for an entry has the bytes that are printed for its record.

Of the fields all are shown that do not give way, each once and in increasing order of their keys
or of the names that they get instead, and nothing else is shown. The line does not depend on the
order in which the map holds its fields. Every field has a part in the line, and one only and under
its key unless it has a value of another kind in the console layout. A part determines its name, as
it is seen, and its text, and the text of a plain value determines the value as it is printed and
seen.

Nothing is said of an attribute that has the name of a time. -/
theorem print_shows_fields (layout : Layout) :
    (∃ l, Logger.ofLevel layout "debug" = .ok l
      ∧ (∀ e : Entry, Bytes.ofString (l.write e) = l.print e.record)
      ∧ ∀ r : Record, Distinct r.fields →
      (∃ kept shown : List Property, kept.Sublist r.fields
        ∧ (∀ f ∈ r.fields, ¬ (layout = .attributes ∧ f.1 = timeName) →
            (f ∈ kept ↔ layout.givesWay r.fields f = false))
        ∧ shown.Perm (kept.map layout.shownField)
        ∧ Entries.Increasing shown
        ∧ l.print r = layout.opening r ++ layout.row shown ++ Bytes.ofString "\n")
      ∧ ∀ fields : List Property, fields.Perm r.fields → l.print { r with fields } = l.print r)
    ∧ (∀ f g : Property, ∀ p ∈ layout.parts f, ∀ q ∈ layout.parts g,
        layout.partText p = layout.partText q → layout.seen p.1 = layout.seen q.1 ∧ p.2 = q.2)
    ∧ (∀ f : Property, layout.parts f ≠ [] ∧ (∀ p ∈ layout.parts f, f.1 <+: p.1)
      ∧ ((layout = .console → ∃ p, f.2 = .plain p) → ∃ text, layout.parts f = [(f.1, text)]))
    ∧ ∀ p q : Plain, layout.members (.plain p) = layout.members (.plain q) →
        layout.seen p.shown = layout.seen q.shown := by
  refine ⟨?_, fun f g p hp q hq => layout.partText_inj hp hq, fun f => ?_,
    fun p q => layout.members_inj⟩
  · obtain ⟨l, hl, hprint⟩ := exists_debug_logger layout
    refine ⟨l, hl, ofString_write l, ?_⟩
    intro r hdistinct
    refine ⟨?_, ?_⟩
    · obtain ⟨kept, hsub, hkept, hperm⟩ := exists_kept layout hdistinct
      exact ⟨kept, layout.shownFields r.fields, hsub, hkept, hperm,
        increasing_shownFields layout hdistinct, by rw [hprint, line_eq]⟩
    · intro fields hperm
      have hopening : layout.opening { r with fields } = layout.opening r := by
        cases layout with
        | _ => rfl
      rw [hprint, hprint, line_eq, line_eq, hopening, shownFields_eq_of_perm layout hdistinct hperm]
  · obtain ⟨hne, hnames⟩ := layout.parts_named f
    exact ⟨hne, hnames, layout.exists_part⟩

/-- A field named after a fixed part, one that gives way to it, and one of another kind whose key is
not UTF-8. In the console layout two such keys are seen as one. -/
theorem print_shows_fields_level :
    let level : Property := (Bytes.ofString "level", .plain (.text (Bytes.ofString "x")))
    let way : Property := (Bytes.ofString "fields.level", .plain (.integer 1))
    let half : Bytes := Bytes.ofString "0.5"
    let stray : Property := ([0xfe], .other ⟨[([], half)], half, some half, by decide⟩)
    let fields : List Property := [level, way, stray]
    let r : Record := ⟨.warn, Bytes.ofString "m", fields⟩
    Distinct fields ∧ (∃ l, Logger.ofLevel .pairs "debug" = .ok l
      ∧ (∃ kept shown : List Property, kept.Sublist fields
        ∧ (level ∈ kept ∧ way ∉ kept ∧ stray ∈ kept)
        ∧ shown.Perm (kept.map Layout.pairs.shownField)
        ∧ Entries.Increasing shown
        ∧ l.print r = Layout.pairs.opening r ++ Layout.pairs.row shown ++ Bytes.ofString "\n")
      ∧ l.print { r with fields := fields.reverse } = l.print r)
    ∧ Layout.console.seen [0xfe] = Layout.console.seen [0xff]
    ∧ (∃ text, Layout.attributes.parts stray = [([0xfe], text)])
    ∧ Layout.console.seen (Plain.shown (.text [0xfe]))
      = Layout.console.seen (Plain.shown (.failure [0xff])) := by
  intro level way half stray fields r
  have hdistinct : Distinct fields := by
    unfold Distinct
    decide
  obtain ⟨⟨l, hl, -, hprint⟩, -⟩ := print_shows_fields .pairs
  obtain ⟨-, hparts, -, hplain⟩ := print_shows_fields .console
  refine ⟨hdistinct, ?_, ?_, ((print_shows_fields .attributes).2.2.1 stray).2.2 (by simp), ?_⟩
  · obtain ⟨⟨kept, shown, hsub, hkept, hshown⟩, horder⟩ := hprint r hdistinct
    refine ⟨l, hl, ⟨kept, shown, hsub, ⟨?_, ?_, ?_⟩, hshown⟩, horder _ (List.reverse_perm fields)⟩
    · exact (hkept _ (by decide) (by decide)).2 (by decide)
    · exact fun hmem => absurd ((hkept _ (by decide) (by decide)).1 hmem) (by decide)
    · exact (hkept _ (by decide) (by decide)).2 (by decide)
  · exact (hparts ([0xfe], .plain .null) ([0xff], .plain .null) _ List.mem_cons_self _
      List.mem_cons_self (by decide)).1
  · exact hplain _ _ (by decide)

/-- Some fields are not shown: a pair that gives way to a field with the key of a fixed part, and an
attribute with neither a key nor a value. -/
theorem print_loses_field :
    (let r : Record := ⟨.info, Bytes.ofString "m",
        [(Bytes.ofString "time", .plain (.text (Bytes.ofString "a"))),
          (Bytes.ofString "fields.time", .plain (.text (Bytes.ofString "b")))]⟩
      ∃ l, Logger.ofLevel .pairs "debug" = .ok l
        ∧ l.print r = Bytes.ofString "level=info msg=m fields.time=a\n"
        ∧ ¬ ∃ shown : List Property, shown.Perm r.fields ∧ Entries.Increasing shown
          ∧ l.print r = Layout.pairs.opening r ++ Layout.pairs.row shown ++ Bytes.ofString "\n")
    ∧ (let r : Record := ⟨.info, Bytes.ofString "m", [([], .plain .null)]⟩
      ∃ l, Logger.ofLevel .attributes "debug" = .ok l
        ∧ l.print r = Bytes.ofString "level=INFO msg=m\n"
        ∧ ¬ ∃ shown : List Property, shown.Perm r.fields ∧ Entries.Increasing shown
          ∧ l.print r = Layout.attributes.opening r ++ Layout.attributes.row shown
            ++ Bytes.ofString "\n") := by
  constructor
  · intro r
    obtain ⟨l, hl, hprint⟩ := exists_debug_logger .pairs
    have hrenamed : fixedNames.foldl rename r.fields
        = [(Bytes.ofString "fields.time", .plain (.text (Bytes.ofString "a")))] := by decide
    have hline : l.print r = Bytes.ofString "level=info msg=m fields.time=a\n" := by
      rw [hprint, line_eq, Layout.shownFields, hrenamed,
        Entries.sort_eq_self (List.pairwise_singleton _ _)]
      decide
    refine ⟨l, hl, hline, ?_⟩
    rintro ⟨shown, hperm, hincreasing, htext⟩
    have hall : Entries.Increasing
        [(Bytes.ofString "fields.time", Value.plain (.text (Bytes.ofString "b"))),
          (Bytes.ofString "time", .plain (.text (Bytes.ofString "a")))] := by
      unfold Entries.Increasing
      decide
    rw [← Entries.sort_eq_of_perm hperm.symm hincreasing,
      Entries.sort_eq_of_perm (List.Perm.swap _ _ _) hall, hline] at htext
    exact absurd htext (by decide)
  · intro r
    obtain ⟨l, hl, hprint⟩ := exists_debug_logger .attributes
    have hdropped : (r.fields.filter fun f => !isDropped f) = [] := by decide
    have hline : l.print r = Bytes.ofString "level=INFO msg=m\n" := by
      rw [hprint, line_eq, Layout.shownFields, hdropped, Entries.sort_eq_self .nil]
      decide
    refine ⟨l, hl, hline, ?_⟩
    rintro ⟨shown, hperm, -, htext⟩
    rw [List.perm_singleton.1 hperm, hline] at htext
    exact absurd htext (by decide)

end RoundTrip.Log
