import Mathlib.Data.List.Perm.Basic
import RoundTrip.Proofs.Cbor.Keys
import RoundTrip.Proofs.Entries

/-!
# The orders in which CBOR maps hold their entries

A map holds its entries in no particular order, and may hand them out in another one each time it is
written. `Rearranged` relates the values that differ in this way only. The writer sorts entries by
the bytes of their keys, so the order shows in one way only: keys are written alike and their values
are not. A value in which this does not happen is settled.

Main definitions: `Value.KeysApart`, `Value.Settled`, `Value.Rearranged`. Main statements:
`Rearranged.encode_eq`, settled values are written alike in all orders, `Rearranged.keysApart_iff`
and `Rearranged.settled_iff`.
-/

set_option autoImplicit false

namespace RoundTrip.Cbor

open Step

/-! ## What is written for lists, maps and tags -/

theorem encodeAll_eq_ok_iff {o : Order} {vs : List Value} {done ws : List Bytes} :
    encodeAll o vs done = .ok ws ↔
      ∃ ws', List.Forall₂ (fun v w => v.encode o = .ok w) vs ws' ∧ ws = done.reverse ++ ws' := by
  induction vs generalizing done with
  | nil => simp [encodeAll, eq_comm]
  | cons v vs ih =>
      rw [encodeAll]
      cases hv : v.encode o with
      | error e => simp [List.forall₂_cons_left_iff, hv]
      | ok w => simp [List.forall₂_cons_left_iff, hv, ih]

theorem encode_list_eq_ok_iff {o : Order} {vs : List Value} {w : Bytes} :
    (Value.list vs).encode o = .ok w ↔
      ∃ ws, List.Forall₂ (fun v w => v.encode o = .ok w) vs ws
        ∧ w = shortHead .array vs.length ++ ws.flatten := by
  rw [Value.encode]
  constructor
  · intro h
    obtain ⟨_, hall, hresult⟩ := bind_eq_ok.1 h
    obtain ⟨_, hws, rfl⟩ := encodeAll_eq_ok_iff.1 hall
    exact ⟨_, hws, (Except.ok.inj hresult).symm⟩
  · rintro ⟨ws, hws, rfl⟩
    exact bind_eq_ok.2 ⟨ws, encodeAll_eq_ok_iff.2 ⟨ws, hws, rfl⟩, rfl⟩

theorem encode_list {o : Order} {vs : List Value} {ws : List Bytes}
    (h : List.Forall₂ (fun v w => v.encode o = .ok w) vs ws) :
    (Value.list vs).encode o = .ok (shortHead .array vs.length ++ ws.flatten) :=
  encode_list_eq_ok_iff.2 ⟨ws, h, rfl⟩

/-- The bytes of the key and of the value of an entry. -/
def EntryBytes (e : Value × Value) (w : Bytes × Bytes) : Prop :=
  e.1.encode .canonical = .ok w.1 ∧ e.2.encode .canonical = .ok w.2

theorem EntryBytes.rightUnique : Relator.RightUnique EntryBytes := fun _ _ _ h h' =>
  Prod.ext (Except.ok.inj (h.1.symm.trans h'.1)) (Except.ok.inj (h.2.symm.trans h'.2))

/-- Where values are written alike under keys that are, entries are. -/
theorem EntryBytes.eq_of_keys {es : List (Value × Value)} {ws : List (Bytes × Bytes)}
    (h : List.Forall₂ EntryBytes es ws)
    (hsame : ∀ a ∈ es, ∀ b ∈ es, a.1.encode .canonical = b.1.encode .canonical →
      a.2.encode .canonical = b.2.encode .canonical) :
    ∀ w ∈ ws, ∀ w' ∈ ws, w.1 = w'.1 → w = w' := by
  intro w hw w' hw' hkeys
  obtain ⟨a, ha, haw⟩ := exists_partner h.flip hw
  obtain ⟨b, hb, hbw⟩ := exists_partner h.flip hw'
  have hvalue := hsame a ha b hb (by rw [haw.1, hbw.1, hkeys])
  rw [haw.2, hbw.2] at hvalue
  exact Prod.ext hkeys (Except.ok.inj hvalue)

theorem encodeEntries_eq_ok_iff {es : List (Value × Value)} {done ws : List (Bytes × Bytes)} :
    encodeEntries .canonical es done = .ok ws ↔
      ∃ ws', List.Forall₂ EntryBytes es ws' ∧ ws = done.reverse ++ ws' := by
  induction es generalizing done with
  | nil => simp [encodeEntries, eq_comm]
  | cons e es ih =>
      obtain ⟨k, v⟩ := e
      rw [encodeEntries]
      cases hk : k.encode .canonical with
      | error e => simp [List.forall₂_cons_left_iff, EntryBytes, hk]
      | ok key =>
          cases hv : v.encode .canonical with
          | error e => simp [List.forall₂_cons_left_iff, EntryBytes, hv]
          | ok value => simp [List.forall₂_cons_left_iff, EntryBytes, hk, hv, ih]

theorem encode_map_eq_ok_iff {es : List (Value × Value)} {w : Bytes} :
    (Value.map es).encode .canonical = .ok w ↔
      ∃ ws, List.Forall₂ EntryBytes es ws
        ∧ w = shortHead .map es.length ++ (Entries.sort ws).flatMap fun e => e.1 ++ e.2 := by
  rw [Value.encode]
  constructor
  · intro h
    obtain ⟨_, hentries, hresult⟩ := bind_eq_ok.1 h
    obtain ⟨_, hws, rfl⟩ := encodeEntries_eq_ok_iff.1 hentries
    exact ⟨_, hws, (Except.ok.inj hresult).symm⟩
  · rintro ⟨ws, hws, rfl⟩
    exact bind_eq_ok.2 ⟨ws, encodeEntries_eq_ok_iff.2 ⟨ws, hws, rfl⟩, rfl⟩

theorem encode_map {es : List (Value × Value)} {ws : List (Bytes × Bytes)}
    (h : List.Forall₂ EntryBytes es ws) :
    (Value.map es).encode .canonical
      = .ok (shortHead .map es.length ++ (Entries.sort ws).flatMap fun e => e.1 ++ e.2) :=
  encode_map_eq_ok_iff.2 ⟨ws, h, rfl⟩

theorem encode_tag_eq_ok_iff {o : Order} {number : Nat} {content : Value} (h : content ≠ .nil)
    {w : Bytes} : (Value.tag number content).encode o = .ok w ↔
      ∃ w', content.encode o = .ok w' ∧ w = shortHead .tag number ++ w' := by
  have htag : (Value.tag number content).encode o
      = (do return shortHead .tag number ++ (← content.encode o)) := by
    rw [Value.encode]
    rintro - rfl
    exact h rfl
  rw [htag]
  cases content.encode o with
  | error e => simp [bind, Except.bind]
  | ok w' => simp [bind, Except.bind, pure, Except.pure, eq_comm]

namespace Value

/-! ## Maps inside a value -/

/-- A value holds a map, as itself or somewhere inside. No key of a map holds one. -/
inductive HasMap : Value → List (Value × Value) → Prop
  | self (es : List (Value × Value)) : HasMap (map es) es
  | list {vs : List Value} {v : Value} {es : List (Value × Value)} (hv : v ∈ vs)
      (h : HasMap v es) : HasMap (list vs) es
  | entry {es : List (Value × Value)} {e : Value × Value} {es' : List (Value × Value)}
      (he : e ∈ es) (h : HasMap e.2 es') : HasMap (map es) es'
  | tag {number : Nat} {content : Value} {es : List (Value × Value)} (h : HasMap content es) :
      HasMap (tag number content) es

/-- All maps inside the value have a property of entries. -/
def AllMaps (p : List (Value × Value) → Prop) (v : Value) : Prop := ∀ es, v.HasMap es → p es

section AllMaps

variable {p : List (Value × Value) → Prop}

theorem allMaps_list_iff {vs : List Value} : (list vs).AllMaps p ↔ ∀ v ∈ vs, v.AllMaps p := by
  constructor
  · intro h v hv es hes
    exact h es (.list hv hes)
  · rintro h es ⟨⟩
    rename_i v hv hes
    exact h v hv es hes

theorem allMaps_map_iff {es : List (Value × Value)} :
    (map es).AllMaps p ↔ p es ∧ ∀ e ∈ es, e.2.AllMaps p := by
  constructor
  · intro h
    refine ⟨h es (.self es), ?_⟩
    intro e he es' hes'
    exact h es' (.entry he hes')
  · rintro ⟨hself, hvalues⟩ es' (_ | _ | ⟨he, hes'⟩)
    · exact hself
    · exact hvalues _ he es' hes'

theorem allMaps_tag_iff {number : Nat} {content : Value} :
    (tag number content).AllMaps p ↔ content.AllMaps p := by
  constructor
  · intro h es hes
    exact h es (.tag hes)
  · rintro h es ⟨⟩
    rename_i hes
    exact h es hes

end AllMaps

/-- There is no map in the value. -/
def Flat (v : Value) : Prop := ∀ es, ¬ v.HasMap es

theorem Flat.allMaps {v : Value} (h : v.Flat) (p : List (Value × Value) → Prop) : v.AllMaps p :=
  fun es hes => absurd hes (h es)

theorem flat_big (n : Int) : (big n).Flat := by
  intro es hes
  cases hes

/-- What can be a key holds no map. -/
theorem flat_of_key? {v k : Value} (h : v.key? = some k) : v.Flat := by
  fun_induction key? v generalizing k with
  | case2 number content ih =>
      obtain ⟨k', hk', -⟩ := Option.map_eq_some_iff.1 h
      rintro es ⟨⟩
      rename_i hes
      exact ih hk' es hes
  | case1 bs =>
      intro es hes
      cases hes
  | case3 n => cases h
  | case4 vs => cases h
  | case5 es => cases h
  | case6 v _ htag _ hlist hmap =>
      intro es hes
      cases hes with
      | self => exact absurd rfl (hmap _)
      | list _ _ => exact absurd rfl (hlist _)
      | entry _ _ => exact absurd rfl (hmap _)
      | tag _ => exact absurd rfl (htag _ _)

/-- No two keys of a map inside the value are written as the same bytes, except such as are no
number. -/
def KeysApart (v : Value) : Prop :=
  v.AllMaps fun es => es.Pairwise fun a b =>
    a.1.encode .canonical = b.1.encode .canonical → a.1.isNan = true ∧ b.1.isNan = true

/-- Where keys of a map inside the value are written as the same bytes, so are the values under
them. -/
def Settled (v : Value) : Prop :=
  v.AllMaps fun es => ∀ a ∈ es, ∀ b ∈ es,
    a.1.encode .canonical = b.1.encode .canonical → a.2.encode .canonical = b.2.encode .canonical

/-! ## The same value in another order -/

/-- The same value, with the entries of maps in other orders. No key of a map holds one. -/
inductive Rearranged : Value → Value → Prop
  | refl (v : Value) : Rearranged v v
  | tag {number : Nat} {content content' : Value} (h : Rearranged content content') :
      Rearranged (tag number content) (tag number content')
  | list {ps : List (Value × Value)} (h : ∀ p ∈ ps, Rearranged p.1 p.2) :
      Rearranged (list (ps.map Prod.fst)) (list (ps.map Prod.snd))
  | map {ps : List (Value × Value × Value)} {es : List (Value × Value)}
      (h : ∀ p ∈ ps, Rearranged p.2.1 p.2.2) (hperm : (ps.map fun p => (p.1, p.2.2)).Perm es) :
      Rearranged (map (ps.map fun p => (p.1, p.2.1))) (map es)

/-- An entry whose value comes in another order. -/
def SameEntry (e e' : Value × Value) : Prop := e'.1 = e.1 ∧ e.2.Rearranged e'.2

/-- A row of pairs, from the rows of their two parts. -/
theorem exists_zip {α β : Type} {R : α → β → Prop} {as : List α} {bs : List β}
    (h : List.Forall₂ R as bs) :
    ∃ ps : List (α × β), ps.map Prod.fst = as ∧ ps.map Prod.snd = bs ∧ ∀ p ∈ ps, R p.1 p.2 := by
  induction h with
  | nil => exact ⟨[], rfl, rfl, by simp⟩
  | @cons a b as bs hab _ ih =>
      obtain ⟨ps, rfl, rfl, hps⟩ := ih
      exact ⟨(a, b) :: ps, rfl, rfl, List.forall_mem_cons.2 ⟨hab, hps⟩⟩

theorem rearranged_tag_iff {number : Nat} {content u : Value} :
    (Value.tag number content).Rearranged u ↔
      ∃ content', content.Rearranged content' ∧ u = Value.tag number content' := by
  constructor
  · intro h
    cases h with
    | refl => exact ⟨content, .refl content, rfl⟩
    | tag h => exact ⟨_, h, rfl⟩
  · rintro ⟨content', h, rfl⟩
    exact .tag h

theorem rearranged_list_iff {vs : List Value} {u : Value} :
    (Value.list vs).Rearranged u ↔ ∃ us, List.Forall₂ Rearranged vs us ∧ u = .list us := by
  constructor
  · intro h
    cases h with
    | refl => exact ⟨vs, List.forall₂_same.2 fun v _ => .refl v, rfl⟩
    | list h =>
        exact ⟨_, List.forall₂_map_left_iff.2 (List.forall₂_map_right_iff.2
          (List.forall₂_same.2 h)), rfl⟩
  · rintro ⟨us, hus, rfl⟩
    obtain ⟨ps, rfl, rfl, hps⟩ := exists_zip hus
    exact .list hps

theorem rearranged_map_iff {es : List (Value × Value)} {u : Value} :
    (Value.map es).Rearranged u ↔
      ∃ es₁ es', List.Forall₂ SameEntry es es₁ ∧ es₁.Perm es' ∧ u = .map es' := by
  constructor
  · intro h
    cases h with
    | refl => exact ⟨es, es, List.forall₂_same.2 fun e _ => ⟨rfl, .refl e.2⟩, .refl es, rfl⟩
    | map h hperm =>
        refine ⟨_, _, ?_, hperm, rfl⟩
        exact List.forall₂_map_left_iff.2 (List.forall₂_map_right_iff.2
          (List.forall₂_same.2 fun p hp => ⟨rfl, h p hp⟩))
  · rintro ⟨es₁, es', hes, hperm, rfl⟩
    obtain ⟨ps, rfl, rfl, hps⟩ := exists_zip hes
    have hmap := @Rearranged.map (ps.map fun p => (p.1.1, p.1.2, p.2.2)) es' ?_ ?_
    · rw [List.map_map] at hmap
      exact hmap
    · intro q hq
      obtain ⟨p, hp, rfl⟩ := List.mem_map.1 hq
      exact (hps p hp).2
    · rw [List.map_map]
      have hentries : ps.map ((fun p => (p.1, p.2.2)) ∘ fun p => (p.1.1, p.1.2, p.2.2))
          = ps.map Prod.snd := by
        apply List.map_congr_left
        intro p hp
        exact Prod.ext (hps p hp).1.symm rfl
      rwa [hentries]

/-- What holds between any two keys of a map holds in every order. -/
theorem pairwise_keys {R : Value → Value → Prop} (hR : ∀ {k k'}, R k k' → R k' k)
    {es es₁ es' : List (Value × Value)} (hes : List.Forall₂ SameEntry es es₁)
    (hperm : es₁.Perm es') (h : es.Pairwise fun a b => R a.1 b.1) :
    es'.Pairwise fun a b => R a.1 b.1 := by
  have hkeys : es₁.map Prod.fst = es.map Prod.fst :=
    map_eq_of_forall₂ (hes.imp fun _ _ hentry => hentry.1)
  rw [← hperm.pairwise_iff fun h => hR h, ← List.pairwise_map (f := Prod.fst) (R := R), hkeys]
  exact List.pairwise_map.2 h

namespace Rearranged

variable {v u : Value}

/-- What holds no map comes in one order only. -/
theorem eq_of_flat (h : v.Rearranged u) (hv : v.Flat) : u = v := by
  induction h with
  | refl v => rfl
  | tag _ ih => rw [ih fun es hes => hv es (.tag hes)]
  | @list ps _ ih =>
      have hps : ps.map Prod.snd = ps.map Prod.fst := by
        apply List.map_congr_left
        intro p hp
        exact ih p hp fun es hes => hv es (.list (List.mem_map_of_mem hp) hes)
      rw [hps]
  | map _ _ => exact absurd (.self _) (hv _)

theorem symm (h : v.Rearranged u) : u.Rearranged v := by
  induction h with
  | refl v => exact .refl v
  | tag _ ih => exact .tag ih
  | list _ ih =>
      exact rearranged_list_iff.2 ⟨_, List.forall₂_map_left_iff.2 (List.forall₂_map_right_iff.2
        (List.forall₂_same.2 ih)), rfl⟩
  | @map ps es _ hperm ih =>
      have hback : List.Forall₂ SameEntry (ps.map fun p => (p.1, p.2.2))
          (ps.map fun p => (p.1, p.2.1)) :=
        List.forall₂_map_left_iff.2 (List.forall₂_map_right_iff.2
          (List.forall₂_same.2 fun p hp => ⟨rfl, ih p hp⟩))
      obtain ⟨es₁, hes₁, hperm'⟩ := List.perm_comp_forall₂ hperm.symm hback
      exact rearranged_map_iff.2 ⟨es₁, _, hes₁, hperm', rfl⟩

theorem eq_nil_iff (h : v.Rearranged u) : v = .nil ↔ u = .nil := by
  cases h <;> simp

/-- Keys are written alike in every order or in none. -/
theorem keysApart (h : v.Rearranged u) (hv : v.KeysApart) : u.KeysApart := by
  induction h with
  | refl v => exact hv
  | tag _ ih => exact allMaps_tag_iff.2 (ih (allMaps_tag_iff.1 hv))
  | list _ ih =>
      refine allMaps_list_iff.2 ?_
      intro v hmem
      obtain ⟨p, hp, rfl⟩ := List.mem_map.1 hmem
      exact ih p hp (allMaps_list_iff.1 hv _ (List.mem_map_of_mem hp))
  | @map ps es _ hperm ih =>
      obtain ⟨hkeys, hvalues⟩ := allMaps_map_iff.1 hv
      refine allMaps_map_iff.2 ⟨?_, ?_⟩
      · rw [← hperm.pairwise_iff fun h heq => (h heq.symm).symm]
        exact List.pairwise_map.2 (List.pairwise_map.1 hkeys)
      · intro e he
        obtain ⟨p, hp, rfl⟩ := List.mem_map.1 (hperm.mem_iff.2 he)
        exact ih p hp (hvalues _ (List.mem_map_of_mem hp))

theorem keysApart_iff (h : v.Rearranged u) : u.KeysApart ↔ v.KeysApart :=
  ⟨h.symm.keysApart, h.keysApart⟩

/-- **A settled value is written alike in all orders**, and stays settled. -/
theorem encode_eq {w : Bytes} (h : v.Rearranged u) (hv : v.Settled)
    (hw : v.encode .canonical = .ok w) : u.encode .canonical = .ok w ∧ u.Settled := by
  induction h generalizing w with
  | refl v => exact ⟨hw, hv⟩
  | @tag number content content' h ih =>
      by_cases hnil : content = .nil
      · rw [h.eq_nil_iff.1 hnil]
        rw [hnil] at hw hv
        exact ⟨hw, hv⟩
      · obtain ⟨w', hw', rfl⟩ := (encode_tag_eq_ok_iff hnil).1 hw
        obtain ⟨hcontent, hsettled⟩ := ih (allMaps_tag_iff.1 hv) hw'
        have hnil' : content' ≠ .nil := fun h' => hnil (h.eq_nil_iff.2 h')
        exact ⟨(encode_tag_eq_ok_iff hnil').2 ⟨w', hcontent, rfl⟩, allMaps_tag_iff.2 hsettled⟩
  | @list ps _ ih =>
      obtain ⟨ws, hws, rfl⟩ := encode_list_eq_ok_iff.1 hw
      have hboth : List.Forall₂ (fun p w => p.2.Settled ∧ p.2.encode .canonical = .ok w) ps ws := by
        refine forall₂_imp_mem (List.forall₂_map_left_iff.1 hws) ?_
        intro p hp w hpw
        exact (ih p hp (allMaps_list_iff.1 hv _ (List.mem_map_of_mem hp)) hpw).symm
      obtain ⟨hsettled, hencode⟩ := (List.forall₂_and_left ps ws).1 hboth
      refine ⟨encode_list_eq_ok_iff.2 ⟨ws, List.forall₂_map_left_iff.2 hencode, ?_⟩, ?_⟩
      · rw [List.length_map, List.length_map]
      · refine allMaps_list_iff.2 ?_
        intro v hmem
        obtain ⟨p, hp, rfl⟩ := List.mem_map.1 hmem
        exact hsettled p hp
  | @map ps es _ hperm ih =>
      obtain ⟨ws, hws, rfl⟩ := encode_map_eq_ok_iff.1 hw
      obtain ⟨hsame, hvalues⟩ := allMaps_map_iff.1 hv
      have hboth : List.Forall₂ (fun p w =>
          (p.2.2.Settled ∧ p.2.2.encode .canonical = p.2.1.encode .canonical)
            ∧ EntryBytes (p.1, p.2.2) w) ps ws := by
        refine forall₂_imp_mem (List.forall₂_map_left_iff.1 hws) ?_
        rintro p hp w ⟨hkey, hvalue⟩
        obtain ⟨hencode, hsettled⟩ := ih p hp (hvalues _ (List.mem_map_of_mem hp)) hvalue
        exact ⟨⟨hsettled, hencode.trans hvalue.symm⟩, hkey, hencode⟩
      obtain ⟨hps, hentries⟩ := (List.forall₂_and_left ps ws).1 hboth
      obtain ⟨ws', hws', hperm'⟩ := List.perm_comp_forall₂ hperm.symm
        (List.forall₂_map_left_iff.2 hentries)
      constructor
      · rw [encode_map hws', Entries.sort_eq_of_keys hperm'.symm (EntryBytes.eq_of_keys hws hsame),
          ← hperm.length_eq, List.length_map, List.length_map]
      · refine allMaps_map_iff.2 ⟨?_, ?_⟩
        · intro a ha b hb hab
          obtain ⟨p, hp, rfl⟩ := List.mem_map.1 (hperm.mem_iff.2 ha)
          obtain ⟨q, hq, rfl⟩ := List.mem_map.1 (hperm.mem_iff.2 hb)
          rw [(hps p hp).2, (hps q hq).2]
          exact hsame _ (List.mem_map_of_mem hp) _ (List.mem_map_of_mem hq) hab
        · intro e he
          obtain ⟨p, hp, rfl⟩ := List.mem_map.1 (hperm.mem_iff.2 he)
          exact (hps p hp).1

theorem settled_iff {w w' : Bytes} (h : v.Rearranged u) (hv : v.encode .canonical = .ok w)
    (hu : u.encode .canonical = .ok w') : u.Settled ↔ v.Settled :=
  ⟨fun hsettled => (h.symm.encode_eq hsettled hu).2, fun hsettled => (h.encode_eq hsettled hv).2⟩

end Rearranged

/-! ## Values with one form -/

/-- The value is written alike in whatever order maps hold their entries. -/
def OneForm (v : Value) : Prop :=
  ∀ u, v.Rearranged u → u.encode .canonical = v.encode .canonical

theorem Flat.oneForm {v : Value} (h : v.Flat) : v.OneForm := by
  intro u hu
  rw [hu.eq_of_flat h]

theorem oneForm_tag_iff {number : Nat} {content : Value} (hnumber : number ≠ 0) {w : Bytes}
    (hw : content.encode .canonical = .ok w) : (tag number content).OneForm ↔ content.OneForm := by
  constructor
  · intro h u hu
    have hsame := h _ (.tag hu)
    rw [encode_tag hnumber, encode_tag hnumber, hw] at hsame
    cases hwritten : u.encode .canonical with
    | error e =>
        rw [hwritten] at hsame
        cases hsame
    | ok w' =>
        rw [hwritten] at hsame
        rw [hw, List.append_cancel_left (Except.ok.inj hsame)]
  · intro h u hu
    obtain ⟨content', hcontent, rfl⟩ := rearranged_tag_iff.1 hu
    rw [encode_tag hnumber, encode_tag hnumber, h content' hcontent]

/-- A part cannot change by itself when the whole stays as it is. -/
theorem oneForm_of_flatten {vs : List Value} {ws : List Bytes}
    (hws : List.Forall₂ (fun v w => v.encode .canonical = .ok w) vs ws)
    (h : ∀ us, List.Forall₂ Rearranged vs us →
      ∃ ws', List.Forall₂ (fun u w => u.encode .canonical = .ok w) us ws'
        ∧ ws'.flatten = ws.flatten) : ∀ v ∈ vs, v.OneForm := by
  have hunique : Relator.RightUnique fun (v : Value) w => v.encode .canonical = .ok w := by
    intro v w w' hw hw'
    exact Except.ok.inj (hw.symm.trans hw')
  induction hws with
  | nil => simp
  | @cons v w vs ws hv hvs ih =>
      refine List.forall_mem_cons.2 ⟨?_, ih ?_⟩
      · intro u hu
        obtain ⟨_, hall, hflatten⟩ := h (u :: vs)
          (.cons hu (List.forall₂_same.2 fun v _ => .refl v))
        obtain ⟨w', ws', hu', hvs', rfl⟩ := List.forall₂_cons_left_iff.1 hall
        obtain rfl := hunique.forall₂ hvs hvs'
        rw [List.flatten_cons, List.flatten_cons] at hflatten
        rw [hu', hv, List.append_cancel_right hflatten]
      · intro us hus
        obtain ⟨_, hall, hflatten⟩ := h (v :: us) (.cons (.refl v) hus)
        obtain ⟨w', ws', hv', hus', rfl⟩ := List.forall₂_cons_left_iff.1 hall
        obtain rfl := hunique hv hv'
        exact ⟨ws', hus', List.append_cancel_left hflatten⟩

theorem oneForm_list_iff {vs : List Value} {ws : List Bytes}
    (hws : List.Forall₂ (fun v w => v.encode .canonical = .ok w) vs ws) :
    (list vs).OneForm ↔ ∀ v ∈ vs, v.OneForm := by
  constructor
  · intro h
    apply oneForm_of_flatten hws
    intro us hus
    have hsame := h _ (rearranged_list_iff.2 ⟨us, hus, rfl⟩)
    rw [encode_list hws] at hsame
    obtain ⟨ws', hws', hbytes⟩ := encode_list_eq_ok_iff.1 hsame
    rw [hus.length_eq] at hbytes
    exact ⟨ws', hws', (List.append_cancel_left hbytes).symm⟩
  · intro h u hu
    obtain ⟨us, hus, rfl⟩ := rearranged_list_iff.1 hu
    have hsame : List.Forall₂ (fun v u => u.encode .canonical = v.encode .canonical) vs us :=
      forall₂_imp_mem hus h
    rw [encode_list hws, encode_list (forall₂_comp hsame.flip hws fun hvu hvw => hvu.trans hvw),
      hus.length_eq]

/-- The bytes of an entry stand at a place that its key alone decides. -/
theorem exists_place (k : Bytes) (ws : List (Bytes × Bytes)) :
    ∃ front back, ∀ w, (Entries.sort ((k, w) :: ws)).flatMap (fun e => e.1 ++ e.2)
      = front ++ (k ++ (w ++ back)) := by
  refine ⟨((Entries.sort ws).takeWhile fun a => decide (a.1 < k)).flatMap fun e => e.1 ++ e.2,
    ((Entries.sort ws).dropWhile fun a => decide (a.1 < k)).flatMap fun e => e.1 ++ e.2, ?_⟩
  intro w
  rw [Entries.sort_cons, List.flatMap_append, List.flatMap_cons, List.append_assoc]

/-- Two entries of one key, of which none comes before them, stand next to each other. -/
theorem exists_places (k : Bytes) (ws : List (Bytes × Bytes)) :
    ∃ front back, ∀ w w',
      (Entries.sort ((k, w) :: (k, w') :: ws)).flatMap (fun e => e.1 ++ e.2)
        = front ++ (k ++ (w ++ (k ++ (w' ++ back)))) := by
  refine ⟨((Entries.sort ws).takeWhile fun a => decide (a.1 < k)).flatMap fun e => e.1 ++ e.2,
    ((Entries.sort ws).dropWhile fun a => decide (a.1 < k)).flatMap fun e => e.1 ++ e.2, ?_⟩
  intro w w'
  have hbelow : ∀ a ∈ (Entries.sort ws).takeWhile fun a => decide (a.1 < k),
      decide (a.1 < k) = true := List.all_eq_true.1 List.all_takeWhile
  rw [Entries.sort_cons, Entries.sort_cons, List.takeWhile_append_of_pos hbelow,
    List.dropWhile_append_of_pos hbelow, List.takeWhile_cons_of_neg (by simp [List.lt_irrefl]),
    List.dropWhile_cons_of_neg (by simp [List.lt_irrefl]), List.append_nil, List.flatMap_append,
    List.flatMap_cons, List.flatMap_cons, List.append_assoc, List.append_assoc]

section Maps

variable {es : List (Value × Value)} {ws : List (Bytes × Bytes)}

theorem rearranged_of_perm {es' : List (Value × Value)} (h : es.Perm es') :
    (map es).Rearranged (map es') :=
  rearranged_map_iff.2 ⟨es, es', List.forall₂_same.2 fun e _ => ⟨rfl, .refl e.2⟩, h, rfl⟩

/-- A value under a key cannot change by itself. -/
theorem oneForm_of_entry (hws : List.Forall₂ EntryBytes es ws) (h : (map es).OneForm)
    {e : Value × Value} (he : e ∈ es) : e.2.OneForm := by
  obtain ⟨before, after, rfl⟩ := List.append_of_mem he
  -- the entry is moved to the front, and changed there
  have hperm : (before ++ e :: after).Perm (e :: (before ++ after)) := List.perm_middle
  obtain ⟨_, hall, -⟩ := List.perm_comp_forall₂ hperm.symm hws
  obtain ⟨w, rest, hw, hrest, rfl⟩ := List.forall₂_cons_left_iff.1 hall
  intro u hu
  have hmoved := h _ (rearranged_of_perm hperm)
  have hchanged := h (map ((e.1, u) :: (before ++ after))) <| rearranged_map_iff.2
    ⟨before ++ (e.1, u) :: after, _, List.rel_append
      (List.forall₂_same.2 fun e _ => ⟨rfl, .refl e.2⟩)
      (.cons ⟨rfl, hu⟩ (List.forall₂_same.2 fun e _ => ⟨rfl, .refl e.2⟩)), List.perm_middle, rfl⟩
  rw [← hmoved, encode_map (.cons hw hrest)] at hchanged
  obtain ⟨_, hall', hbytes⟩ := encode_map_eq_ok_iff.1 hchanged
  obtain ⟨w', rest', hw', hrest', rfl⟩ := List.forall₂_cons_left_iff.1 hall'
  obtain rfl := EntryBytes.rightUnique.forall₂ hrest hrest'
  have hkey : w'.1 = w.1 := Except.ok.inj (hw'.1.symm.trans hw.1)
  obtain ⟨front, back, hplace⟩ := exists_place w.1 rest
  have hbytes := List.append_cancel_left hbytes
  have hchanged : w' = (w.1, w'.2) := Prod.ext hkey rfl
  rw [hchanged, hplace w'.2, ← Prod.eta w, hplace w.2] at hbytes
  rw [hw'.2, hw.2]
  exact congrArg _ (List.append_cancel_right (List.append_cancel_left
    (List.append_cancel_left hbytes))).symm

/-- Entries whose keys are written alike can change places. -/
theorem encode_eq_of_oneForm (hws : List.Forall₂ EntryBytes es ws) (h : (map es).OneForm)
    {a b : Value × Value} (ha : a ∈ es) (hb : b ∈ es)
    (hkeys : a.1.encode .canonical = b.1.encode .canonical)
    (hwords : ∀ w w' r r', a.2.encode .canonical = .ok w → b.2.encode .canonical = .ok w' →
      w ++ r = w' ++ r' → w = w') : a.2.encode .canonical = b.2.encode .canonical := by
  by_contra hne
  obtain ⟨rest, hperm⟩ : ∃ rest, es.Perm (a :: b :: rest) := by
    obtain ⟨before, after, rfl⟩ := List.append_of_mem ha
    have hmoved : (before ++ a :: after).Perm (a :: (before ++ after)) := List.perm_middle
    have hb' : b ∈ before ++ after := by
      rcases List.mem_cons.1 (hmoved.mem_iff.1 hb) with rfl | hb'
      · exact absurd rfl hne
      · exact hb'
    obtain ⟨before', after', heq⟩ := List.append_of_mem hb'
    exact ⟨before' ++ after', hmoved.trans (by rw [heq]; exact List.perm_middle.cons a)⟩
  obtain ⟨_, hall, -⟩ := List.perm_comp_forall₂ hperm.symm hws
  obtain ⟨w, _, hw, hall', rfl⟩ := List.forall₂_cons_left_iff.1 hall
  obtain ⟨w', ws', hw', hws', rfl⟩ := List.forall₂_cons_left_iff.1 hall'
  have hsame := (h _ (rearranged_of_perm hperm)).trans
    (h _ (rearranged_of_perm (hperm.trans (.swap b a rest)))).symm
  rw [encode_map (.cons hw (.cons hw' hws')), encode_map (.cons hw' (.cons hw hws'))] at hsame
  have hkey : w'.1 = w.1 := by
    rw [hw.1, hw'.1] at hkeys
    exact (Except.ok.inj hkeys).symm
  obtain ⟨front, back, hplaces⟩ := exists_places w.1 ws'
  have hbytes := List.append_cancel_left (Except.ok.inj hsame)
  have hother : w' = (w.1, w'.2) := Prod.ext hkey rfl
  rw [hother, ← Prod.eta w, hplaces, hplaces] at hbytes
  have hvalue := hwords _ _ _ _ hw.2 hw'.2
    (List.append_cancel_left (List.append_cancel_left hbytes))
  rw [hw.2, hw'.2, hvalue] at hne
  exact hne rfl

theorem oneForm_map_iff (hws : List.Forall₂ EntryBytes es ws)
    (hwords : ∀ a ∈ es, ∀ b ∈ es, ∀ w w' r r', a.2.encode .canonical = .ok w →
      b.2.encode .canonical = .ok w' → w ++ r = w' ++ r' → w = w') :
    (map es).OneForm ↔ (∀ a ∈ es, ∀ b ∈ es, a.1.encode .canonical = b.1.encode .canonical →
      a.2.encode .canonical = b.2.encode .canonical) ∧ ∀ e ∈ es, e.2.OneForm := by
  constructor
  · intro h
    refine ⟨?_, fun e he => oneForm_of_entry hws h he⟩
    intro a ha b hb hkeys
    exact encode_eq_of_oneForm hws h ha hb hkeys (hwords a ha b hb)
  · rintro ⟨hsame, hvalues⟩ u hu
    obtain ⟨es₁, es', hes, hperm, rfl⟩ := rearranged_map_iff.1 hu
    have hwritten : List.Forall₂ EntryBytes es₁ ws := by
      have hentries := (List.forall₂_and_left es es₁).2 ⟨hvalues, hes⟩
      refine forall₂_comp hentries.flip hws ?_
      rintro e₁ e w ⟨hone, hkey, hvalue⟩ hw
      exact ⟨by rw [hkey]; exact hw.1, by rw [hone _ hvalue]; exact hw.2⟩
    obtain ⟨ws', hws', hperm'⟩ := List.perm_comp_forall₂ hperm.symm hwritten
    rw [encode_map hws, encode_map hws',
      Entries.sort_eq_of_keys hperm'.symm (EntryBytes.eq_of_keys hws hsame), ← hperm.length_eq,
      hes.length_eq]

end Maps

end Value

end RoundTrip.Cbor
