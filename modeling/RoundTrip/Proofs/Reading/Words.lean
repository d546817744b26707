import Mathlib.Data.List.Forall2
import RoundTrip.Proofs.Reading.Locality

/-!
# Words of readers

A word of a reader is a byte string that the reader takes off every input that starts with it
(`Step.Reads`). The words of a series are put together from the words of its parts, and so are
those of a repetition. What a writer puts out is shown to be a word in this way, part by part.

Main statement: `Reads.times`.
-/

set_option autoImplicit false

namespace RoundTrip

/-- Where each thing of a list has a partner, the list has a list of partners. -/
theorem exists_forall₂ {α β : Type} {R : α → β → Prop} {as : List α}
    (h : ∀ a ∈ as, ∃ b, R a b) : ∃ bs, List.Forall₂ R as bs := by
  induction as with
  | nil => exact ⟨[], .nil⟩
  | cons a as ih =>
      rw [List.forall_mem_cons] at h
      obtain ⟨b, hb⟩ := h.1
      obtain ⟨bs, hbs⟩ := ih h.2
      exact ⟨b :: bs, .cons hb hbs⟩

theorem exists_partner {α β : Type} {R : α → β → Prop} {as : List α} {bs : List β}
    (h : List.Forall₂ R as bs) {a : α} (ha : a ∈ as) : ∃ b ∈ bs, R a b := by
  induction h with
  | nil => cases ha
  | @cons _ b _ bs hab _ ih =>
      rcases List.mem_cons.1 ha with rfl | ha
      · exact ⟨b, List.mem_cons_self, hab⟩
      · obtain ⟨b', hb', hab'⟩ := ih ha
        exact ⟨b', List.mem_cons_of_mem b hb', hab'⟩

/-- What holds between two things of a list holds between their partners. -/
theorem pairwise_partners {α β : Type} {R : α → β → Prop} {Q : β → β → Prop} {as : List α}
    {bs : List β} (h : List.Forall₂ R as bs) (hbs : bs.Pairwise Q) :
    as.Pairwise fun a a' => ∃ b b', R a b ∧ R a' b' ∧ Q b b' := by
  induction h with
  | nil => exact .nil
  | @cons a b as bs hab hrest ih =>
      rw [List.pairwise_cons] at hbs ⊢
      refine ⟨?_, ih hbs.2⟩
      intro a' ha'
      obtain ⟨b', hb', hab'⟩ := exists_partner hrest ha'
      exact ⟨b, b', hab, hab', hbs.1 b' hb'⟩

theorem exists_map_eq {α β : Type} {f : β → α} {p : β → Prop} {as : List α}
    (h : ∀ a ∈ as, ∃ b, f b = a ∧ p b) : ∃ bs : List β, bs.map f = as ∧ ∀ b ∈ bs, p b := by
  induction as with
  | nil => exact ⟨[], rfl, by simp⟩
  | cons a as ih =>
      rw [List.forall_mem_cons] at h
      obtain ⟨b, rfl, hb⟩ := h.1
      obtain ⟨bs, rfl, hbs⟩ := ih h.2
      exact ⟨b :: bs, rfl, List.forall_mem_cons.2 ⟨hb, hbs⟩⟩

/-- Partners stand in another relation when this follows for each member of the list. -/
theorem forall₂_imp_mem {α β : Type} {R S : α → β → Prop} {as : List α} {bs : List β}
    (h : List.Forall₂ R as bs) (himp : ∀ a ∈ as, ∀ b, R a b → S a b) : List.Forall₂ S as bs :=
  ((List.forall₂_and_left as bs).2 ⟨himp, h⟩).imp fun _ b hab => hab.1 b hab.2

/-- What holds of things exactly when it holds of their partners holds of all or of none. -/
theorem forall_mem_iff_of_forall₂ {α β : Type} {p : α → Prop} {q : β → Prop} {as : List α}
    {bs : List β} (h : List.Forall₂ (fun a b => p a ↔ q b) as bs) :
    (∀ a ∈ as, p a) ↔ ∀ b ∈ bs, q b := by
  induction h with
  | nil => simp
  | cons hab _ ih => rw [List.forall_mem_cons, List.forall_mem_cons, hab, ih]

/-- Partners of partners. -/
theorem forall₂_comp {α β γ : Type} {R : α → β → Prop} {S : β → γ → Prop} {T : α → γ → Prop}
    {as : List α} {bs : List β} {cs : List γ} (hR : List.Forall₂ R as bs)
    (hS : List.Forall₂ S bs cs) (h : ∀ {a b c}, R a b → S b c → T a c) : List.Forall₂ T as cs := by
  induction hR generalizing cs with
  | nil =>
      cases hS
      exact .nil
  | cons hab _ ih =>
      cases hS with
      | cons hbc hS => exact .cons (h hab hbc) (ih hS)

/-- Partners that agree on `f` make lists that agree on it. -/
theorem map_eq_of_forall₂ {α β : Type} {f : α → β} {as bs : List α}
    (h : List.Forall₂ (fun a b => f b = f a) as bs) : bs.map f = as.map f := by
  induction h with
  | nil => rfl
  | cons hab _ ih => rw [List.map_cons, List.map_cons, hab, ih]

theorem length_le_flatMap {α : Type} {f : α → Bytes} {a : α} {as : List α} (h : a ∈ as) :
    (f a).length ≤ (as.flatMap f).length :=
  (List.sublist_flatten_of_mem (List.mem_map_of_mem h)).length_le

namespace Step

variable {ε α β : Type}

/-- The bytes `w` are read as `a`, whatever follows them. -/
def Reads (step : Step ε α) (w : Bytes) (a : α) : Prop := ∀ s, step (w ++ s) = .ok (a, s)

variable {step : Step ε α} {w : Bytes} {a : α}

/-- A word behind another one. -/
theorem Reads.bind {next : α × Bytes → Except ε (β × Bytes)} {w' : Bytes} {b : β}
    (h : Reads step w a) (hnext : Reads (fun bs => next (a, bs)) w' b) :
    Reads (fun bs => step bs >>= next) (w ++ w') b := by
  intro s
  rw [List.append_assoc]
  exact bind_eq_ok.2 ⟨(a, w' ++ s), h (w' ++ s), hnext s⟩

theorem Reads.returning (h : Reads step w a) (f : α → β) :
    Reads (fun bs => step bs >>= fun p => (.ok (f p.1, p.2) : Except ε (β × Bytes))) w (f a) := by
  intro s
  exact bind_eq_ok.2 ⟨(a, s), h s, rfl⟩

/-- A word is all of an input that leaves nothing over. -/
theorem Reads.eq_ok (h : Reads step w a) : step w = .ok (a, []) := by
  have hread := h []
  rwa [List.append_nil] at hread

/-- A word of a local reader is one with every bound that leaves room for it. -/
theorem Reads.of_local {r : Nat → Step ε α} {n m : Nat} (h : Reads (r n) w a) (hlocal : Local r n)
    (hm : w.length ≤ m) : Reads (r m) w a := by
  obtain ⟨used, hused, hagain⟩ := hlocal h.eq_ok
  rw [List.append_nil] at hused
  subst hused
  exact hagain m hm

/-! ## Repetitions -/

/-- Words one behind the other are read one by one. -/
theorem Reads.times {ws : List Bytes} {as : List α} (h : List.Forall₂ (Reads step) ws as) :
    Reads (Step.times step as.length) ws.flatten as := by
  intro s
  induction h with
  | nil => rfl
  | cons hread _ ih =>
      rw [List.flatten_cons, List.append_assoc, List.length_cons, times_succ, hread]
      simp [ih, Except.map]

/-- What a repetition finds has been read somewhere, from an input with all that steps keep. -/
theorem of_times_keeping {p : Bytes → Prop}
    (hkeep : ∀ {bs a rest}, p bs → step bs = .ok (a, rest) → p rest) {n : Nat} {bs rest : Bytes}
    {as : List α} (hbs : p bs) (h : Step.times step n bs = .ok (as, rest)) :
    as.length = n ∧ ∀ a ∈ as, ∃ bs' rest', p bs' ∧ step bs' = .ok (a, rest') := by
  induction n generalizing bs as with
  | zero =>
      cases h
      exact ⟨rfl, by simp⟩
  | succ n ih =>
      rw [times_succ] at h
      split at h
      · rename_i a tail hread
        cases htimes : Step.times step n tail with
        | error e =>
            rw [htimes] at h
            cases h
        | ok r =>
            rw [htimes] at h
            cases h
            obtain ⟨hlength, hall⟩ := ih (hkeep hbs hread) htimes
            refine ⟨by rw [List.length_cons, hlength], ?_⟩
            exact List.forall_mem_cons.2 ⟨⟨bs, tail, hbs, hread⟩, hall⟩
      · cases h

/-- What a repetition finds has been read somewhere. -/
theorem of_times {n : Nat} {bs rest : Bytes} {as : List α}
    (h : Step.times step n bs = .ok (as, rest)) :
    as.length = n ∧ ∀ a ∈ as, ∃ bs' rest', step bs' = .ok (a, rest') := by
  obtain ⟨hlength, hall⟩ := of_times_keeping (p := fun _ => True) (fun _ _ => trivial) trivial h
  refine ⟨hlength, ?_⟩
  intro a ha
  obtain ⟨bs', rest', -, hread⟩ := hall a ha
  exact ⟨bs', rest', hread⟩

end Step

end RoundTrip
