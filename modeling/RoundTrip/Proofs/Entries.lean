import Mathlib.Data.List.Nodup
import RoundTrip.Entries

/-!
# Maps in increasing order of keys

Byte strings are ordered as dictionaries order words. The entries of a map are kept in strictly
increasing order of keys, so that a map is one list and no key occurs twice in it.

Main statements: `increasing_ofPairs`, every list of pairs describes a map in this order;
`ofPairs_eq_self`, a list in this order describes itself; and `ofPairs_sublist`, nothing is made
up.
-/

set_option autoImplicit false

namespace RoundTrip

/-- The order of byte strings is that of lists. -/
theorem Bytes.le_iff {a b : Bytes} : Bytes.le a b = true ↔ a ≤ b := by
  induction a generalizing b with
  | nil => simp [le]
  | cons x a ih =>
      cases b with
      | nil => simp [le]
      | cons y b =>
          rw [le, List.cons_le_cons_iff]
          by_cases hxy : x = y
          · simp [hxy, ih, UInt8.lt_irrefl]
          · simp [hxy]

namespace Entries

variable {α β : Type}

/-! ## Sorting -/

/-- Every key is less than those behind it. -/
def Increasing (es : List (Bytes × α)) : Prop := es.Pairwise fun a b => a.1 < b.1

theorem increasing_iff {es : List (Bytes × α)} :
    Increasing es ↔ (es.map Prod.fst).Pairwise (· < ·) :=
  List.pairwise_map.symm

theorem Increasing.le {es : List (Bytes × α)} (h : Increasing es) :
    es.Pairwise fun a b => a.1 ≤ b.1 :=
  h.imp fun hlt => List.le_of_lt hlt

/-- The order of entries is decided by their keys alone. -/
theorem Increasing.of_keys {es : List (Bytes × α)} (h : Increasing es) {es' : List (Bytes × β)}
    (hkeys : es'.map Prod.fst = es.map Prod.fst) : Increasing es' := by
  rw [increasing_iff, hkeys]
  exact increasing_iff.1 h

theorem le_trans_entries (a b c : Bytes × α) (hab : Bytes.le a.1 b.1 = true)
    (hbc : Bytes.le b.1 c.1 = true) : Bytes.le a.1 c.1 = true :=
  Bytes.le_iff.2 (List.le_trans (Bytes.le_iff.1 hab) (Bytes.le_iff.1 hbc))

theorem le_total_entries (a b : Bytes × α) : (Bytes.le a.1 b.1 || Bytes.le b.1 a.1) = true := by
  rw [Bool.or_eq_true, Bytes.le_iff, Bytes.le_iff]
  exact List.le_total a.1 b.1

theorem sort_sorted (es : List (Bytes × α)) : (sort es).Pairwise fun a b => a.1 ≤ b.1 :=
  (List.pairwise_mergeSort le_trans_entries le_total_entries es).imp Bytes.le_iff.1

theorem sort_perm (es : List (Bytes × α)) : (sort es).Perm es := List.mergeSort_perm es _

theorem increasing_sort {es : List (Bytes × α)} (h : (es.map Prod.fst).Nodup) :
    Increasing (sort es) := by
  have hne : (sort es).Pairwise fun a b => a.1 ≠ b.1 :=
    List.pairwise_map.1 (((sort_perm es).map Prod.fst).nodup_iff.2 h)
  refine ((sort_sorted es).and hne).imp ?_
  rintro a b ⟨hle, hne⟩
  exact (List.le_iff_lt_or_eq.1 hle).resolve_right hne

theorem sort_eq_self {es : List (Bytes × α)} (h : es.Pairwise fun a b => a.1 ≤ b.1) :
    sort es = es :=
  List.mergeSort_of_pairwise (h.imp Bytes.le_iff.2)

/-- **Sorting forgets the order of entries** when entries with one key are equal. -/
theorem sort_eq_of_keys {es es' : List (Bytes × α)} (h : es.Perm es')
    (hkeys : ∀ a ∈ es, ∀ b ∈ es, a.1 = b.1 → a = b) : sort es = sort es' := by
  refine List.Perm.eq_of_pairwise ?_ (sort_sorted es) (sort_sorted es') ?_
  · intro a b ha hb hab hba
    have ha' : a ∈ es := (sort_perm es).mem_iff.1 ha
    have hb' : b ∈ es := h.mem_iff.2 ((sort_perm es').mem_iff.1 hb)
    exact hkeys a ha' b hb' (List.le_antisymm hab hba)
  · exact (sort_perm es).trans (h.trans (sort_perm es').symm)

theorem sort_eq_sort {es es' : List (Bytes × α)} (h : es.Perm es')
    (hkeys : (es.map Prod.fst).Nodup) : sort es = sort es' :=
  sort_eq_of_keys h fun _ ha _ hb => List.inj_on_of_nodup_map hkeys ha hb

/-- An entry that comes first goes behind the lesser keys and before the others of its key. -/
theorem sort_cons (e : Bytes × α) (es : List (Bytes × α)) :
    sort (e :: es) = (sort es).takeWhile (fun a => decide (a.1 < e.1))
      ++ e :: (sort es).dropWhile fun a => decide (a.1 < e.1) := by
  obtain ⟨front, back, hsort, hrest, hfront⟩ :=
    List.mergeSort_cons le_trans_entries le_total_entries e es
  have hback : ∀ b ∈ back, e.1 ≤ b.1 := by
    have hsorted := sort_sorted (e :: es)
    rw [sort, hsort] at hsorted
    exact (List.pairwise_cons.1 (List.pairwise_append.1 hsorted).2.1).1
  have hless : ∀ b ∈ front, b.1 < e.1 := by
    intro b hb
    have hnot := hfront b hb
    rw [Bool.not_eq_true', Bool.eq_false_iff, ne_eq, Bytes.le_iff] at hnot
    exact List.not_le.1 hnot
  rw [sort, sort, hsort, hrest, List.takeWhile_append_of_pos (by simpa using hless),
    List.dropWhile_append_of_pos (by simpa using hless)]
  cases back with
  | nil => simp
  | cons b back =>
      have hstop : decide (b.1 < e.1) = false := by
        simpa using List.not_lt.2 (hback b List.mem_cons_self)
      simp [hstop]

/-- Entries that are a rearrangement of entries in order are put into that order. -/
theorem sort_eq_of_perm {es es' : List (Bytes × α)} (h : es.Perm es') (hes' : Increasing es') :
    sort es = es' := by
  have hne : (es'.map Prod.fst).Nodup := (increasing_iff.1 hes').imp fun hlt => by
    rintro rfl
    exact List.lt_irrefl _ hlt
  rw [sort_eq_sort h ((h.map Prod.fst).nodup_iff.2 hne), sort_eq_self hes'.le]

/-! ## The last pair of each key -/

/-- A new top takes the place of the old one or comes to stand on it. -/
theorem supersede_sublist (es : List (Bytes × α)) (e : Bytes × α) :
    (supersede es e).Sublist (e :: es) := by
  unfold supersede
  split
  · exact List.Sublist.refl _
  · rename_i p rest
    split
    · exact (List.sublist_cons_self p rest).cons_cons e
    · exact List.Sublist.refl _

theorem foldl_supersede_sublist (done es : List (Bytes × α)) :
    (es.foldl supersede done).reverse.Sublist (done.reverse ++ es) := by
  induction es generalizing done with
  | nil => simp
  | cons e es ih =>
      rw [List.foldl_cons]
      have hstep : (supersede done e).reverse.Sublist (done.reverse ++ [e]) := by
        rw [← List.reverse_cons]
        exact (supersede_sublist done e).reverse
      have hrest := (ih (supersede done e)).trans (hstep.append_right es)
      rwa [List.append_assoc, List.singleton_append] at hrest

theorem ofPairs_sublist (es : List (Bytes × α)) : (ofPairs es).Sublist (sort es) :=
  foldl_supersede_sublist [] (sort es)

theorem mem_of_mem_ofPairs {es : List (Bytes × α)} {e : Bytes × α} (h : e ∈ ofPairs es) :
    e ∈ es :=
  (sort_perm es).mem_iff.1 ((ofPairs_sublist es).subset h)

theorem length_ofPairs_le (es : List (Bytes × α)) : (ofPairs es).length ≤ es.length := by
  rw [← (sort_perm es).length_eq]
  exact (ofPairs_sublist es).length_le

/-- The entries that have been put on top of each other, last one first, have decreasing keys, and
none is beyond a key that is still to come. -/
theorem decreasing_foldl_supersede {done es : List (Bytes × α)}
    (hdone : done.Pairwise fun a b => b.1 < a.1) (hes : es.Pairwise fun a b => a.1 ≤ b.1)
    (hnext : ∀ a ∈ done, ∀ e ∈ es, a.1 ≤ e.1) :
    (es.foldl supersede done).Pairwise fun a b => b.1 < a.1 := by
  induction es generalizing done with
  | nil => exact hdone
  | cons e es ih =>
      rw [List.pairwise_cons] at hes
      rw [List.foldl_cons]
      apply ih _ hes.2
      · intro a ha e' he'
        rcases List.mem_cons.1 ((supersede_sublist done e).subset ha) with rfl | ha
        · exact hes.1 e' he'
        · exact hnext a ha e' (List.mem_cons_of_mem e he')
      · -- everything below the new top is below it in the order of keys
        have hbelow : ∀ a ∈ done, a.1 ≠ e.1 → a.1 < e.1 := by
          intro a ha hne
          exact (List.le_iff_lt_or_eq.1 (hnext a ha e List.mem_cons_self)).resolve_right hne
        cases done with
        | nil => exact List.pairwise_singleton _ e
        | cons p rest =>
            rw [List.pairwise_cons] at hdone
            rw [supersede]
            split
            · rename_i hkey
              refine List.pairwise_cons.2 ⟨?_, hdone.2⟩
              intro a ha
              rw [← hkey]
              exact hdone.1 a ha
            · rename_i hkey
              have htop := hbelow p List.mem_cons_self hkey
              refine List.pairwise_cons.2 ⟨?_, List.pairwise_cons.2 hdone⟩
              intro a ha
              rcases List.mem_cons.1 ha with rfl | ha
              · exact htop
              · exact List.lt_trans (hdone.1 a ha) htop

/-- **A map is in strictly increasing order of keys.** -/
theorem increasing_ofPairs (es : List (Bytes × α)) : Increasing (ofPairs es) :=
  List.pairwise_reverse.2 (decreasing_foldl_supersede .nil (sort_sorted es) (by simp))

theorem foldl_supersede_of_increasing {done es : List (Bytes × α)}
    (h : Increasing (done.reverse ++ es)) : es.foldl supersede done = es.reverse ++ done := by
  induction es generalizing done with
  | nil => rfl
  | cons e es ih =>
      have hstep : supersede done e = e :: done := by
        cases done with
        | nil => rfl
        | cons p rest =>
            have hlt : p.1 < e.1 :=
              (List.pairwise_append.1 h).2.2 p (by simp) e List.mem_cons_self
            rw [supersede, if_neg]
            intro heq
            rw [heq] at hlt
            exact List.lt_irrefl _ hlt
      rw [List.foldl_cons, hstep, ih (by simpa using h), List.reverse_cons, List.append_assoc,
        List.singleton_append]

/-- A list in increasing order of keys is the map that it describes. -/
theorem ofPairs_eq_self {es : List (Bytes × α)} (h : Increasing es) : ofPairs es = es := by
  rw [ofPairs, sort_eq_self h.le, foldl_supersede_of_increasing (by simpa using h),
    List.append_nil, List.reverse_reverse]

/-! ## Other contents under the same keys -/

theorem sort_map (g : α → β) (es : List (Bytes × α)) :
    sort (es.map (Prod.map id g)) = (sort es).map (Prod.map id g) := by
  rw [sort, sort]
  symm
  apply List.map_mergeSort
  intro a _ b _
  rfl

theorem foldl_supersede_map (g : α → β) (done es : List (Bytes × α)) :
    (es.map (Prod.map id g)).foldl supersede (done.map (Prod.map id g))
      = (es.foldl supersede done).map (Prod.map id g) := by
  induction es generalizing done with
  | nil => rfl
  | cons e es ih =>
      have hstep : supersede (done.map (Prod.map id g)) (Prod.map id g e)
          = (supersede done e).map (Prod.map id g) := by
        cases done with
        | nil => rfl
        | cons p rest =>
            simp only [supersede, List.map_cons, Prod.map_fst, id_eq]
            split
            · rfl
            · rfl
      rw [List.map_cons, List.foldl_cons, List.foldl_cons, hstep, ih]

/-- The entries that are left are told by the keys alone. -/
theorem ofPairs_map (g : α → β) (es : List (Bytes × α)) :
    ofPairs (es.map (Prod.map id g)) = (ofPairs es).map (Prod.map id g) := by
  have hfold := foldl_supersede_map g [] (sort es)
  rw [List.map_nil] at hfold
  rw [ofPairs, sort_map, hfold, ← List.map_reverse, ofPairs]

end Entries

end RoundTrip
