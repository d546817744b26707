import RoundTrip.Proofs.Cbor.Copies
import RoundTrip.Proofs.Entries
import RoundTrip.Proofs.Run.Integrity

/-!
# CBOR values that are written again

Every value that is read has a faithful copy, in whatever order its maps hand out their entries:
arrays and maps have the copies of their items, and the entries of a map are put in the order of the
bytes of their keys. So what is written for a value is accepted again exactly when no two keys of a
map in it are written alike, and it is written as the same bytes in every order exactly when the
value is settled.

Main statement: `encode_fixpoint_iff`. The exception is real: `encode_keys_merge`.
-/

set_option autoImplicit false

namespace RoundTrip.Cbor

open Step RoundTrip.Store
open RoundTrip.Run (Options run run_faultless_cases)

namespace Copy

variable {strip afterTag : Bool} {depth : Nat}

/-! ## Arrays -/

theorem interpretAll_eq_ok_iff {items : List Item} {done vs : List Value} :
    interpretAll items done = .ok vs ↔
      ∃ vs', List.Forall₂ (fun it v => it.interpret true = .ok v) items vs'
        ∧ vs = done.reverse ++ vs' := by
  induction items generalizing done with
  | nil =>
      rw [interpretAll]
      constructor
      · rintro ⟨⟩
        exact ⟨[], .nil, by simp⟩
      · rintro ⟨vs', hvs', rfl⟩
        cases hvs'
        simp
  | cons it items ih =>
      rw [interpretAll]
      constructor
      · intro h
        split at h
        · rename_i v hv
          obtain ⟨vs', hvs', rfl⟩ := ih.1 h
          exact ⟨v :: vs', .cons hv hvs', by simp⟩
        · cases h
      · rintro ⟨vs', hvs', rfl⟩
        cases hvs' with
        | @cons _ v _ vs' hv hvs' =>
            simp only [hv]
            exact ih.2 ⟨vs', hvs', by simp⟩

theorem interpret_array_eq_ok_iff {arg : Option Argument} {items : List Item} {v : Value} :
    (Item.array arg items).interpret strip = .ok v ↔
      ∃ vs, List.Forall₂ (fun it v => it.interpret true = .ok v) items vs ∧ v = .list vs := by
  rw [Item.interpret]
  constructor
  · intro h
    obtain ⟨vs, hvs, hresult⟩ := bind_eq_ok.1 h
    obtain ⟨_, hvs', rfl⟩ := interpretAll_eq_ok_iff.1 hvs
    exact ⟨_, hvs', (Except.ok.inj hresult).symm⟩
  · rintro ⟨vs, hvs, rfl⟩
    exact bind_eq_ok.2 ⟨vs, interpretAll_eq_ok_iff.2 ⟨vs, hvs, rfl⟩, rfl⟩

/-- The copy of an array, from those of its items. -/
def ofArray (cs : List Copy) : Copy where
  value := .list (cs.map Copy.value)
  item := .array (some (shortArgument cs.length)) (cs.map Copy.item)
  bytes := shortHead .array cs.length ++ (cs.map Copy.bytes).flatten

theorem faithful_ofArray {cs : List Copy} (hcount : cs.length ≤ maxCount)
    (h : ∀ c ∈ cs, c.Faithful true false depth) :
    (ofArray cs).Faithful strip afterTag (depth + 1) where
  encode_eq := by
    have hencode : List.Forall₂ (fun v w => v.encode .canonical = .ok w) (cs.map Copy.value)
        (cs.map Copy.bytes) :=
      List.forall₂_map_left_iff.2 (List.forall₂_map_right_iff.2
        (List.forall₂_same.2 fun c hc => (h c hc).encode_eq))
    rw [ofArray, encode_list hencode, List.length_map]
  canonical := by
    have hcanonical : Canonical afterTag (depth + 1)
        (.array (some (shortArgument (cs.map fun c => (c.item, c.bytes)).length))
          ((cs.map fun c => (c.item, c.bytes)).map Prod.fst))
        (shortHead .array (cs.map fun c => (c.item, c.bytes)).length
          ++ ((cs.map fun c => (c.item, c.bytes)).map Prod.snd).flatten) := by
      apply Canonical.array
      · rwa [List.length_map]
      · intro p hp
        obtain ⟨c, hc, rfl⟩ := List.mem_map.1 hp
        exact (h c hc).canonical
    rw [List.length_map, List.map_map, List.map_map] at hcanonical
    exact hcanonical
  chainError_eq := rfl
  exists_interpret := by
    intro hapart
    have hitems : ∀ c ∈ cs, ∃ v, c.item.interpret true = .ok v := by
      intro c hc
      exact (h c hc).exists_interpret
        (Value.allMaps_list_iff.1 hapart _ (List.mem_map_of_mem hc))
    obtain ⟨vs, hvs⟩ := exists_forall₂ hitems
    exact ⟨.list vs, interpret_array_eq_ok_iff.2 ⟨vs, List.forall₂_map_left_iff.2 hvs, rfl⟩⟩
  of_interpret := by
    intro v hv
    obtain ⟨vs, hvs, rfl⟩ := interpret_array_eq_ok_iff.1 hv
    have hread : List.Forall₂ (fun c v => c.value.KeysApart ∧ v.encode .canonical = .ok c.bytes)
        cs vs :=
      forall₂_imp_mem (List.forall₂_map_left_iff.1 hvs) fun c hc => (h c hc).of_interpret
    obtain ⟨hapart, hencode⟩ := (List.forall₂_and_left cs vs).1 hread
    constructor
    · refine Value.allMaps_list_iff.2 ?_
      intro v hv
      obtain ⟨c, hc, rfl⟩ := List.mem_map.1 hv
      exact hapart c hc
    · rw [encode_list (List.Forall₂.flip (List.forall₂_map_left_iff.2 hencode)),
        ← hencode.length_eq]
      rfl
  oneForm_iff := by
    intro v hv
    obtain ⟨vs, hvs, rfl⟩ := interpret_array_eq_ok_iff.1 hv
    have hread : List.Forall₂ (fun v c => v.encode .canonical = .ok c.bytes
        ∧ (v.OneForm ↔ c.value.Settled)) vs cs :=
      List.Forall₂.flip (forall₂_imp_mem (List.forall₂_map_left_iff.1 hvs) fun c hc v hv =>
        ⟨((h c hc).of_interpret v hv).2, (h c hc).oneForm_iff v hv⟩)
    rw [Value.oneForm_list_iff (List.forall₂_map_right_iff.2 (hread.imp fun _ _ hvc => hvc.1)),
      forall_mem_iff_of_forall₂ (hread.imp fun _ _ hvc => hvc.2), ofArray]
    exact List.forall_mem_map.symm.trans Value.allMaps_list_iff.symm
  of_key? := by
    intro k hk
    cases hk

end Copy

/-! ## Rows of a map -/

/-- An entry of a map, with the copies of its key and of its value. -/
structure Row where
  key : Value
  keyCopy : Copy
  valueCopy : Copy

namespace Row

variable {r r' : Row} {depth : Nat}

structure Faithful (r : Row) (depth : Nat) : Prop where
  key?_eq : r.keyCopy.value.key? = some r.key
  keyCopy : r.keyCopy.Faithful true false depth
  valueCopy : r.valueCopy.Faithful true false depth

theorem Faithful.isKey (h : r.Faithful depth) : r.key.IsKey := (h.keyCopy.of_key? _ h.key?_eq).1

theorem Faithful.encode_key (h : r.Faithful depth) :
    r.key.encode .canonical = .ok r.keyCopy.bytes := by
  rw [Value.encode_of_key? .canonical h.isKey h.key?_eq, h.keyCopy.encode_eq]

theorem Faithful.isEntry_iff (h : r.Faithful depth) {e : Value × Value} :
    IsEntry (r.keyCopy.item, r.valueCopy.item) e ↔
      e.1 = r.key.again ∧ r.valueCopy.item.interpret true = .ok e.2 := by
  obtain ⟨-, k, hk, hagain⟩ := h.keyCopy.of_key? _ h.key?_eq
  constructor
  · rintro ⟨k', hk', hkey, hvalue⟩
    rw [hk] at hk'
    obtain rfl := Except.ok.inj hk'
    rw [hagain] at hkey
    exact ⟨(Option.some.inj hkey).symm, hvalue⟩
  · rintro ⟨hkey, hvalue⟩
    exact ⟨k, hk, by rw [hkey]; exact hagain, hvalue⟩

theorem Faithful.encode_again (h : r.Faithful depth) :
    r.key.again.encode .canonical = .ok r.keyCopy.bytes := by
  obtain ⟨hkey, k, hk, hagain⟩ := h.keyCopy.of_key? _ h.key?_eq
  rw [Value.encode_of_key? .canonical hkey.again hagain]
  exact (h.keyCopy.of_interpret k hk).2

/-- Keys that are written alike are read again as the same key, and the other way round. -/
theorem bytes_eq_iff (h : r.Faithful depth) (h' : r'.Faithful depth) :
    r.keyCopy.bytes = r'.keyCopy.bytes ↔ r.key.again = r'.key.again := by
  constructor
  · intro hbytes
    have hread := (h.keyCopy.canonical.reads 0).eq_ok
    have hread' := (h'.keyCopy.canonical.reads 0).eq_ok
    rw [hbytes, hread'] at hread
    have hitem := (Prod.mk.inj (Except.ok.inj hread)).1
    obtain ⟨-, k, hk, hagain⟩ := h.keyCopy.of_key? _ h.key?_eq
    obtain ⟨-, k', hk', hagain'⟩ := h'.keyCopy.of_key? _ h'.key?_eq
    rw [hitem, hk] at hk'
    obtain rfl := Except.ok.inj hk'
    rw [hagain] at hagain'
    exact Option.some.inj hagain'
  · intro hagain
    have hencode := h.encode_again
    rw [hagain, h'.encode_again] at hencode
    exact (Except.ok.inj hencode).symm

/-- Different keys fall together when they are written alike and have an identity. -/
theorem not_same_again_iff (h : r.Faithful depth) (h' : r'.Faithful depth)
    (hne : ¬ r.key.Same r'.key) :
    ¬ r.key.again.Same r'.key.again ↔
      (r.keyCopy.bytes = r'.keyCopy.bytes → r.key.isNan = true ∧ r'.key.isNan = true) := by
  rw [bytes_eq_iff h h', ← Value.identity?_again_eq_none_iff h.isKey,
    ← Value.identity?_again_eq_none_iff h'.isKey]
  constructor
  · intro hnot heq
    rw [← heq, and_self, Option.eq_none_iff_forall_ne_some]
    intro i hi
    exact hnot ⟨i, hi, by rw [← heq]; exact hi⟩
  · intro hnan hsame
    rcases Value.again_eq_of_same h.isKey h'.isKey hsame with heq | hbefore
    · obtain ⟨i, hi, -⟩ := hsame
      rw [(hnan heq).1] at hi
      cases hi
    · exact hne hbefore

/-- Rows in the order of the bytes of their keys. -/
def sort (rows : List Row) : List Row :=
  (Entries.sort (rows.map fun r => (r.keyCopy.bytes, r))).map Prod.snd

theorem sort_perm (rows : List Row) : (sort rows).Perm rows := by
  have hperm := (Entries.sort_perm (rows.map fun r => (r.keyCopy.bytes, r))).map Prod.snd
  rw [List.map_map] at hperm
  have hid : (Prod.snd ∘ fun r : Row => (r.keyCopy.bytes, r)) = id := rfl
  rwa [hid, List.map_id] at hperm

theorem sort_map (rows : List Row) (f : Row → Bytes) :
    (sort rows).map (fun r => (r.keyCopy.bytes, f r))
      = Entries.sort (rows.map fun r => (r.keyCopy.bytes, f r)) := by
  have hsort := Entries.sort_map f (rows.map fun r => (r.keyCopy.bytes, r))
  rw [List.map_map] at hsort
  refine Eq.trans ?_ hsort.symm
  rw [sort, List.map_map]
  apply List.map_congr_left
  intro e he
  obtain ⟨r, -, rfl⟩ := List.mem_map.1 ((Entries.sort_perm _).mem_iff.1 he)
  rfl

/-- **Keys that were different stay different exactly when they are written in different ways**, in
whatever order. -/
theorem pairwise_again_iff {rows : List Row} (h : ∀ r ∈ rows, r.Faithful depth)
    (hdistinct : rows.Pairwise fun r r' => ¬ r.key.Same r'.key) :
    ((sort rows).Pairwise fun r r' => ¬ r.key.again.Same r'.key.again) ↔
      rows.Pairwise fun r r' => r.key.encode .canonical = r'.key.encode .canonical →
        r.key.isNan = true ∧ r'.key.isNan = true := by
  have hsymm : ∀ {r r' : Row}, ¬ r.key.again.Same r'.key.again →
      ¬ r'.key.again.Same r.key.again := by
    rintro r r' hnot ⟨i, hi, hi'⟩
    exact hnot ⟨i, hi', hi⟩
  rw [(sort_perm rows).pairwise_iff hsymm]
  have hpair : ∀ {r r'}, r ∈ rows → r' ∈ rows → ¬ r.key.Same r'.key →
      (¬ r.key.again.Same r'.key.again ↔
        (r.key.encode .canonical = r'.key.encode .canonical →
          r.key.isNan = true ∧ r'.key.isNan = true)) := by
    intro r r' hr hr' hne
    rw [(h r hr).encode_key, (h r' hr').encode_key, Except.ok.injEq]
    exact not_same_again_iff (h r hr) (h r' hr') hne
  constructor
  · intro hagain
    exact (hagain.and hdistinct).imp_of_mem fun hr hr' hboth => (hpair hr hr' hboth.2).1 hboth.1
  · intro happart
    exact (happart.and hdistinct).imp_of_mem fun hr hr' hboth => (hpair hr hr' hboth.2).2 hboth.1

/-- Entries whose keys are those of rows, read again, are different when those are. -/
theorem pairwise_of_forall₂ {rows : List Row} {es : List (Value × Value)}
    (h : List.Forall₂ (fun r e => e.1 = r.key.again) rows es) :
    (es.Pairwise fun a b => ¬ a.1.Same b.1) ↔
      rows.Pairwise fun r r' => ¬ r.key.again.Same r'.key.again := by
  have hkeys : List.Forall₂ (· = ·) (rows.map fun r => r.key.again) (es.map Prod.fst) :=
    List.forall₂_map_left_iff.2 (List.forall₂_map_right_iff.2 (h.imp fun _ _ heq => heq.symm))
  rw [List.forall₂_eq_eq_eq] at hkeys
  rw [← List.pairwise_map (f := Prod.fst) (R := fun a b => ¬ Value.Same a b), ← hkeys,
    List.pairwise_map]

end Row

/-! ## Maps -/

namespace Copy

variable {strip afterTag : Bool} {depth : Nat}

theorem interpret_map_eq_ok_iff {arg : Option Argument} {pairs : List (Item × Item)} {v : Value} :
    (Item.map arg pairs).interpret strip = .ok v ↔ ∃ es, List.Forall₂ IsEntry pairs es
      ∧ (es.Pairwise fun a b => ¬ a.1.Same b.1) ∧ v = .map es := by
  have hnew : ∀ k, ({} : Partial).has k = false := by
    intro k
    rw [Bool.eq_false_iff, ne_eq, Partial.has_iff]
    simp
  rw [Item.interpret, interpretPairs_eq_ok_iff rfl]
  simp [hnew]

/-- The copy of a map, from its rows. -/
def ofMap (rows : List Row) : Copy where
  value := .map (rows.map fun r => (r.key, r.valueCopy.value))
  item := .map (some (shortArgument rows.length))
    ((Row.sort rows).map fun r => (r.keyCopy.item, r.valueCopy.item))
  bytes := shortHead .map rows.length
    ++ (Row.sort rows).flatMap fun r => r.keyCopy.bytes ++ r.valueCopy.bytes

theorem canonical_ofMap {rows : List Row} (hcount : rows.length ≤ maxCount)
    (h : ∀ r ∈ rows, r.Faithful depth) :
    Canonical afterTag (depth + 1) (ofMap rows).item (ofMap rows).bytes := by
  have hsorted : ∀ r ∈ Row.sort rows, r.Faithful depth := fun r hr =>
    h r ((Row.sort_perm rows).mem_iff.1 hr)
  have hcanonical := @Canonical.map afterTag depth ((Row.sort rows).map fun r =>
    ((r.keyCopy.item, r.keyCopy.bytes), r.valueCopy.item, r.valueCopy.bytes)) ?_ ?_ ?_
  · rw [List.length_map, (Row.sort_perm rows).length_eq, List.map_map, List.flatMap_map]
      at hcanonical
    exact hcanonical
  · rwa [List.length_map, (Row.sort_perm rows).length_eq]
  · intro p hp
    obtain ⟨r, hr, rfl⟩ := List.mem_map.1 hp
    exact (hsorted r hr).keyCopy.canonical
  · intro p hp
    obtain ⟨r, hr, rfl⟩ := List.mem_map.1 hp
    exact (hsorted r hr).valueCopy.canonical

/-- What is read for a copy of a map, entry by entry. -/
structure ReadAs (r : Row) (e : Value × Value) : Prop where
  key_eq : e.1 = r.key.again
  entryBytes : EntryBytes e (r.keyCopy.bytes, r.valueCopy.bytes)
  keysApart : r.valueCopy.value.KeysApart
  oneForm_iff : e.2.OneForm ↔ r.valueCopy.value.Settled

theorem forall₂_readAs {rows : List Row} {es : List (Value × Value)}
    (h : ∀ r ∈ rows, r.Faithful depth) (hes : List.Forall₂ IsEntry
      ((Row.sort rows).map fun r => (r.keyCopy.item, r.valueCopy.item)) es) :
    List.Forall₂ ReadAs (Row.sort rows) es := by
  have hsorted : ∀ r ∈ Row.sort rows, r.Faithful depth := fun r hr =>
    h r ((Row.sort_perm rows).mem_iff.1 hr)
  refine forall₂_imp_mem (List.forall₂_map_left_iff.1 hes) ?_
  intro r hmem e hentry
  have hr := hsorted r hmem
  obtain ⟨hkey, hvalue⟩ := hr.isEntry_iff.1 hentry
  obtain ⟨hapart, hagain⟩ := hr.valueCopy.of_interpret e.2 hvalue
  exact ⟨hkey, ⟨by rw [hkey, hr.encode_again], hagain⟩, hapart, hr.valueCopy.oneForm_iff e.2 hvalue⟩

/-- **The entries that are read have one form exactly when the rows are settled.** -/
theorem oneForm_iff_of_readAs {rows : List Row} {es : List (Value × Value)}
    (h : ∀ r ∈ rows, r.Faithful depth) (hes : List.Forall₂ ReadAs (Row.sort rows) es) :
    (Value.map es).OneForm ↔ (ofMap rows).value.Settled := by
  have hmem : ∀ r, r ∈ Row.sort rows ↔ r ∈ rows := fun r => (Row.sort_perm rows).mem_iff
  have hwritten : List.Forall₂ EntryBytes es
      ((Row.sort rows).map fun r => (r.keyCopy.bytes, r.valueCopy.bytes)) :=
    List.Forall₂.flip (List.forall₂_map_left_iff.2 (hes.imp fun _ _ hre => hre.entryBytes))
  have hwords : ∀ a ∈ es, ∀ b ∈ es, ∀ w w' s s', a.2.encode .canonical = .ok w →
      b.2.encode .canonical = .ok w' → w ++ s = w' ++ s' → w = w' := by
    intro a ha b hb w w' s s' hw hw' heq
    obtain ⟨r, hr, hra⟩ := exists_partner hes.flip ha
    obtain ⟨r', hr', hrb⟩ := exists_partner hes.flip hb
    obtain rfl := Except.ok.inj (hra.entryBytes.2.symm.trans hw)
    obtain rfl := Except.ok.inj (hrb.entryBytes.2.symm.trans hw')
    exact (h r ((hmem r).1 hr)).valueCopy.canonical.eq_of_append
      (h r' ((hmem r').1 hr')).valueCopy.canonical heq
  -- keys and values are written for the rows as they are for the entries
  have hencoded : List.Forall₂ (fun r e => e.1.encode .canonical = r.key.encode .canonical
      ∧ e.2.encode .canonical = r.valueCopy.value.encode .canonical) (Row.sort rows) es := by
    refine forall₂_imp_mem hes ?_
    intro r hr e hre
    have hfaithful := h r ((hmem r).1 hr)
    rw [hre.entryBytes.1, hre.entryBytes.2, hfaithful.encode_key, hfaithful.valueCopy.encode_eq]
    exact ⟨rfl, rfl⟩
  have hpairs : (∀ a ∈ es, ∀ b ∈ es, a.1.encode .canonical = b.1.encode .canonical →
        a.2.encode .canonical = b.2.encode .canonical) ↔
      ∀ r ∈ Row.sort rows, ∀ r' ∈ Row.sort rows,
        r.key.encode .canonical = r'.key.encode .canonical →
          r.valueCopy.value.encode .canonical = r'.valueCopy.value.encode .canonical := by
    refine forall_mem_iff_of_forall₂ (hencoded.flip.imp fun e r hre => ?_)
    refine forall_mem_iff_of_forall₂ (hencoded.flip.imp fun e' r' hre' => ?_)
    rw [hre.1, hre.2, hre'.1, hre'.2]
  rw [Value.oneForm_map_iff hwritten hwords, hpairs,
    ← forall_mem_iff_of_forall₂ (hes.imp fun _ _ hre => hre.oneForm_iff.symm)]
  refine Iff.trans ?_ Value.allMaps_map_iff.symm
  simp only [hmem, List.forall_mem_map]
  rfl

theorem faithful_ofMap {rows : List Row} (hcount : rows.length ≤ maxCount)
    (h : ∀ r ∈ rows, r.Faithful depth)
    (hdistinct : rows.Pairwise fun r r' => ¬ r.key.Same r'.key) :
    (ofMap rows).Faithful strip afterTag (depth + 1) where
  encode_eq := by
    have hencode : List.Forall₂ EntryBytes (rows.map fun r => (r.key, r.valueCopy.value))
        (rows.map fun r => (r.keyCopy.bytes, r.valueCopy.bytes)) :=
      List.forall₂_map_left_iff.2 (List.forall₂_map_right_iff.2
        (List.forall₂_same.2 fun r hr => ⟨(h r hr).encode_key, (h r hr).valueCopy.encode_eq⟩))
    rw [ofMap, encode_map hencode, ← Row.sort_map, List.flatMap_map, List.length_map]
  canonical := canonical_ofMap hcount h
  chainError_eq := rfl
  exists_interpret := by
    intro hapart
    obtain ⟨hkeys, hvalues⟩ := Value.allMaps_map_iff.1 hapart
    -- the key of an entry is the one that is read again, which need not be the one of the row
    have hentries : ∀ r ∈ Row.sort rows, ∃ e : Value × Value,
        e.1 = r.key.again ∧ IsEntry (r.keyCopy.item, r.valueCopy.item) e := by
      intro r hr
      have hmem := (Row.sort_perm rows).mem_iff.1 hr
      obtain ⟨v, hv⟩ := (h r hmem).valueCopy.exists_interpret
        (hvalues (r.key, r.valueCopy.value) (List.mem_map_of_mem hmem))
      exact ⟨(r.key.again, v), rfl, (h r hmem).isEntry_iff.2 ⟨rfl, hv⟩⟩
    obtain ⟨es, hes⟩ := exists_forall₂ hentries
    refine ⟨.map es, interpret_map_eq_ok_iff.2 ⟨es, ?_, ?_, rfl⟩⟩
    · exact List.forall₂_map_left_iff.2 (hes.imp fun _ _ hre => hre.2)
    · rw [Row.pairwise_of_forall₂ (hes.imp fun _ _ hre => hre.1),
        Row.pairwise_again_iff h hdistinct]
      exact List.pairwise_map.1 hkeys
  of_interpret := by
    intro v hv
    obtain ⟨es, hes, hpairwise, rfl⟩ := interpret_map_eq_ok_iff.1 hv
    have hread := forall₂_readAs h hes
    rw [Row.pairwise_of_forall₂ (hread.imp fun _ _ hre => hre.key_eq),
      Row.pairwise_again_iff h hdistinct] at hpairwise
    constructor
    · refine Value.allMaps_map_iff.2 ⟨List.pairwise_map.2 hpairwise, ?_⟩
      intro e he
      obtain ⟨r, hr, rfl⟩ := List.mem_map.1 he
      obtain ⟨e, -, hre⟩ := exists_partner hread ((Row.sort_perm rows).mem_iff.2 hr)
      exact hre.keysApart
    · -- the rows are in order already
      have hwritten : List.Forall₂ EntryBytes es
          ((Row.sort rows).map fun r => (r.keyCopy.bytes, r.valueCopy.bytes)) :=
        List.Forall₂.flip (List.forall₂_map_left_iff.2 (hread.imp fun _ _ hre => hre.entryBytes))
      rw [encode_map hwritten, Row.sort_map, Entries.sort_eq_self (Entries.sort_sorted _),
        ← Row.sort_map, List.flatMap_map, ← hread.length_eq, (Row.sort_perm rows).length_eq]
      rfl
  oneForm_iff := by
    intro v hv
    obtain ⟨es, hes, -, rfl⟩ := interpret_map_eq_ok_iff.1 hv
    exact oneForm_iff_of_readAs h (forall₂_readAs h hes)
  of_key? := by
    intro k hk
    cases hk

end Copy

/-! ## Whole values -/

/-- **Every value that is read has a faithful copy**, in whatever order its maps hold their
entries. -/
theorem Sound.exists_copy {afterTag : Bool} {depth : Nat} {it : Item}
    (h : Sound afterTag depth it) :
    ∀ {strip : Bool} {v u : Value}, it.interpret strip = .ok v → v.Rearranged u →
      ∃ c : Copy, c.value = u ∧ c.Faithful strip afterTag depth := by
  induction h with
  | unsigned harg =>
      intro strip v u hv hu
      rw [Item.interpret] at hv
      obtain rfl := Except.ok.inj hv
      obtain rfl := hu.eq_of_flat (Value.flat_of_key? rfl)
      exact ⟨_, rfl, Copy.faithful_unsigned harg.lt_wordCount⟩
  | negative harg =>
      intro strip v u hv hu
      rw [Item.interpret] at hv
      obtain rfl := Except.ok.inj hv
      obtain rfl := hu.eq_of_flat (Copy.flat_negative _)
      exact ⟨_, rfl, Copy.faithful_negative harg.lt_wordCount⟩
  | @string _ _ kind arg cs hcs =>
      intro strip v u hv hu
      cases kind with
      | bytes =>
          rw [Item.interpret] at hv
          obtain rfl := Except.ok.inj hv
          obtain rfl := hu.eq_of_flat (Value.flat_of_key? rfl)
          exact ⟨_, rfl, Copy.faithful_bytes hcs⟩
      | text =>
          rw [Item.interpret] at hv
          apply Copy.exists_copy_text _ hv hu
          exact hcs
  | @chunked _ _ kind chunks hlength =>
      intro strip v u hv hu
      cases kind with
      | bytes =>
          rw [Item.interpret] at hv
          obtain rfl := Except.ok.inj hv
          obtain rfl := hu.eq_of_flat (Value.flat_of_key? rfl)
          exact ⟨_, rfl, Copy.faithful_bytes hlength⟩
      | text =>
          rw [Item.interpret] at hv
          apply Copy.exists_copy_text _ hv hu
          exact hlength
  | @array _ depth _ items hcount _ ih =>
      intro strip v u hv hu
      obtain ⟨vs, hvs, rfl⟩ := Copy.interpret_array_eq_ok_iff.1 hv
      obtain ⟨us, hus, rfl⟩ := Value.rearranged_list_iff.1 hu
      have hcopies : ∀ u ∈ us, ∃ c : Copy, c.value = u ∧ c.Faithful true false depth := by
        intro u hu
        obtain ⟨v, hv, hvu⟩ := exists_partner hus.flip hu
        obtain ⟨it, hit, hread⟩ := exists_partner hvs.flip hv
        exact ih it hit hread hvu
      obtain ⟨cs, rfl, hcs⟩ := exists_map_eq hcopies
      rw [hvs.length_eq, hus.length_eq, List.length_map] at hcount
      exact ⟨_, rfl, Copy.faithful_ofArray hcount hcs⟩
  | @map _ depth _ pairs hcount _ _ ihkeys ihvalues =>
      intro strip v u hv hu
      obtain ⟨es, hes, hdistinct, rfl⟩ := Copy.interpret_map_eq_ok_iff.1 hv
      obtain ⟨es₁, es', hsame, hperm, rfl⟩ := Value.rearranged_map_iff.1 hu
      -- a row has the copies of a key and of a value, which the two induction hypotheses give
      have hrows : ∀ e ∈ es', ∃ r : Row, (r.key, r.valueCopy.value) = e ∧ r.Faithful depth := by
        intro e' he'
        obtain ⟨e, he, hkey', hvalue'⟩ := exists_partner hsame.flip (hperm.mem_iff.2 he')
        obtain ⟨pair, hpair, k, hk, hkey, hvalue⟩ := exists_partner hes.flip he
        obtain ⟨kc, rfl, hkc⟩ := ihkeys pair hpair hk (.refl k)
        obtain ⟨vc, hvc, hfaithful⟩ := ihvalues pair hpair hvalue hvalue'
        exact ⟨⟨e'.1, kc, vc⟩, by rw [hvc], by rw [hkey, hkey'], hkc, hfaithful⟩
      have hsymm : ∀ {k k' : Value}, ¬ k.Same k' → ¬ k'.Same k := by
        rintro k k' hnot ⟨i, hi, hi'⟩
        exact hnot ⟨i, hi', hi⟩
      have hdistinct' := Value.pairwise_keys (R := fun k k' => ¬ k.Same k') hsymm hsame hperm
        hdistinct
      obtain ⟨rows, rfl, hfaithful⟩ := exists_map_eq hrows
      rw [hes.length_eq, hsame.length_eq, hperm.length_eq, List.length_map] at hcount
      exact ⟨_, rfl, Copy.faithful_ofMap hcount hfaithful (List.pairwise_map.1 hdistinct')⟩
  | tag harg hsound ih =>
      intro strip v u hv hu
      exact Copy.exists_copy_tag (fun hn hw => .tag hn hw) Canonical.ofAfterTag harg hsound ih hv hu
  | innerTag harg hsound ih =>
      intro strip v u hv hu
      exact Copy.exists_copy_tag (fun hn hw => .innerTag hn hw) Canonical.succ harg hsound ih hv hu
  | primitive harg =>
      intro strip v u hv hu
      rw [Item.interpret] at hv
      obtain rfl := Except.ok.inj hv
      obtain rfl := hu.eq_of_flat (Copy.flat_primitive _)
      exact Copy.exists_copy_primitive harg

/-! ## Main statement -/

theorem read_eq_ok_iff {bs rest : Bytes} {v : Value} :
    read bs = .ok (v, rest) ↔
      ∃ it, Item.read bs = .ok (it, rest) ∧ it.interpret true = .ok v := by
  unfold read
  constructor
  · intro h
    obtain ⟨⟨it, rest'⟩, hread, h⟩ := bind_eq_ok.1 h
    obtain ⟨v', hv', hresult⟩ := bind_eq_ok.1 h
    obtain ⟨rfl, rfl⟩ := Prod.mk.inj (Except.ok.inj hresult)
    exact ⟨it, mapError_eq_ok.1 hread, hv'⟩
  · rintro ⟨it, hread, hv⟩
    exact bind_eq_ok.2 ⟨(it, rest), mapError_eq_ok.2 hread, bind_eq_ok.2 ⟨v, hv, rfl⟩⟩

theorem decode_eq_ok_iff {o : Order} {bs : Bytes} {v : Value} :
    (codec o).decode bs = .ok v ↔
      ∃ it, Item.read bs = .ok (it, []) ∧ it.interpret true = .ok v :=
  (exact_ofRest_eq_ok_iff.trans mapError_eq_ok).trans read_eq_ok_iff

theorem Canonical.read_eq {it : Item} {w : Bytes} (h : Canonical false maxLevels it w) :
    Item.read w = .ok (it, []) := by
  have hread : (level w.length maxLevels).item w = .ok (it, []) := (h.reads w.length).eq_ok
  unfold Item.read
  cases w with
  | nil =>
      -- no item is read from nothing
      rw [level_eq] at hread
      obtain ⟨⟨a, tail⟩, hhead, -⟩ := bind_eq_ok.1 hread
      exact absurd hhead (head_nil a tail)
  | cons b w => exact hread

theorem codec_encode_eq {v : Value} {w : Bytes} (h : v.encode .canonical = .ok w) :
    (codec .canonical).encode v = .once w := by
  change Emission.ofExcept ((v.encode .canonical).mapError Error.toFailure) = _
  rw [h]
  rfl

/-- The codec of canonical output, for maps that hand out their entries in orders of their own. -/
def arranged (arrange : Value → Value) : Codec Value where
  decode := (codec .canonical).decode
  encode v := (codec .canonical).encode (arrange v)

/-- **What is written is a fixed point exactly when keys stay apart and values are settled.** The
value of an accepted input, whose length fits a signed word, can be written in whatever order its
maps hand out their entries. The bytes are accepted if and only if no two keys of a map in the value
are written alike, save such as are no number, and what they are read as is written as the same
bytes in all orders if and only if values under keys that are written alike are written alike
too. So the harness that is run again on its own output copies it, or else refuses it and changes no
file. -/
theorem encode_fixpoint_iff {bs : Bytes} {v u : Value} (hbs : bs.length < wordHalf)
    (h : (codec .canonical).decode bs = .ok v) (hu : v.Rearranged u) :
    ((codec .canonical).encode u).failure = none ∧
      ((∃ v', (codec .canonical).decode ((codec .canonical).encode u).bytes = .ok v') ↔
        v.KeysApart) ∧
      (∀ v', (codec .canonical).decode ((codec .canonical).encode u).bytes = .ok v' →
        ((∀ u', v'.Rearranged u' → (codec .canonical).encode u' = (codec .canonical).encode u) ↔
          v.Settled)) ∧
      ∀ (arrange : Value → Value), (∀ w : Value, w.Rearranged (arrange w)) →
      ∀ (files : Files) (o : Options) (program input output : String) (extra : List String),
        input ≠ "" → output ≠ "" →
        files.get? input = some ((codec .canonical).encode u).bytes →
        let report := run (some (arranged arrange)) o (files.storage .none)
          (program :: input :: output :: extra)
        (v.KeysApart → exitStatus report.failure = 0
            ∧ (v.Settled →
              (files.after report).get? output = some ((codec .canonical).encode u).bytes))
          ∧ (¬ v.KeysApart → exitStatus report.failure = 1 ∧ files.after report = files) := by
  obtain ⟨it, hread, hv⟩ := decode_eq_ok_iff.1 h
  have hsound := read_sound hbs hread
  obtain ⟨c₀, rfl, hc₀⟩ := hsound.exists_copy hv (.refl v)
  obtain ⟨c, rfl, hc⟩ := hsound.exists_copy hv hu
  have hapart := hu.keysApart_iff
  have hsettled := hu.settled_iff hc₀.encode_eq hc.encode_eq
  rw [codec_encode_eq hc.encode_eq, Emission.bytes_once]
  -- the bytes are read as the item of the copy, and as nothing else
  have hdecode : ∀ v', (codec .canonical).decode c.bytes = .ok v' ↔
      c.item.interpret true = .ok v' := by
    intro v'
    rw [decode_eq_ok_iff, hc.canonical.read_eq]
    simp
  have haccepted : (∃ v', (codec .canonical).decode c.bytes = .ok v') ↔ c₀.value.KeysApart := by
    simp only [hdecode, ← hapart]
    refine ⟨?_, hc.exists_interpret⟩
    rintro ⟨v', hv'⟩
    exact (hc.of_interpret v' hv').1
  -- what is read can be written again, in whatever order
  have hagain : ∀ v' u', (codec .canonical).decode c.bytes = .ok v' → v'.Rearranged u' →
      ∃ w, u'.encode .canonical = .ok w := by
    intro v' u' hv' hu'
    obtain ⟨c', rfl, hc'⟩ := hc.canonical.sound.exists_copy ((hdecode v').1 hv') hu'
    exact ⟨_, hc'.encode_eq⟩
  have hsame : ∀ v', (codec .canonical).decode c.bytes = .ok v' →
      ((∀ u', v'.Rearranged u' → (codec .canonical).encode u' = .once c.bytes) ↔
        c₀.value.Settled) := by
    intro v' hv'
    have hv'' := (hdecode v').1 hv'
    rw [← hsettled, ← hc.oneForm_iff v' hv'', Value.OneForm, (hc.of_interpret v' hv'').2]
    refine forall₂_congr fun u' hu' => ?_
    obtain ⟨w, hw⟩ := hagain v' u' hv' hu'
    rw [codec_encode_eq hw, hw]
    simp [Emission.once]
  refine ⟨rfl, haccepted, hsame, ?_⟩
  intro arrange harrange files o program input output extra hinput houtput hin report
  rw [← haccepted]
  rcases run_faultless_cases (arranged arrange) o files program extra hinput houtput hin with
    ⟨e, herror, hrefused⟩ | ⟨v', hv', hwritten⟩
  · refine ⟨?_, fun _ => hrefused⟩
    rintro ⟨v', hv'⟩
    rw [show (codec .canonical).decode c.bytes = .error e from herror] at hv'
    cases hv'
  · refine ⟨fun _ => ?_, fun hnot => absurd ⟨v', hv'⟩ hnot⟩
    obtain ⟨w, hw⟩ := hagain v' (arrange v') hv' (harrange v')
    rw [show (arranged arrange).encode v' = .once w from codec_encode_eq hw] at hwritten
    obtain ⟨hstatus, hafter⟩ := hwritten rfl
    refine ⟨hstatus, ?_⟩
    intro hv
    have hcopied := (hsame v' hv').2 hv (arrange v') (harrange v')
    rw [codec_encode_eq hw] at hcopied
    rw [hafter, Files.get?_insert_self, hcopied, Emission.bytes_once]

/-- Two keys that are no number, over arrays of one nothing, and a text behind them; the map hands
them out from the last to the first. -/
theorem encode_fixpoint_nan_keys :
    (codec .canonical).decode [0xa3, 0xf9, 0x7e, 0, 0x9f, 0xf7, 0xff, 0xfb, 0x7f, 0xf8, 0, 0, 0, 0,
        0, 1, 0x81, 0xf6, 0x61, 0x62, 0xc2, 0x41, 5]
        = .ok (.map [(.float 0x7ff8000000000000, .list [.nil]),
          (.float 0x7ff8000000000001, .list [.nil]), (.text [0x62], .big 5)])
      ∧ (codec .canonical).encode (.map [(.text [0x62], .big 5),
          (.float 0x7ff8000000000001, .list [.nil]), (.float 0x7ff8000000000000, .list [.nil])])
        = .once [0xa3, 0x61, 0x62, 5, 0xf9, 0x7e, 0, 0x81, 0xf6, 0xf9, 0x7e, 0, 0x81, 0xf6]
      ∧ ∃ v', (codec .canonical).decode
          [0xa3, 0x61, 0x62, 5, 0xf9, 0x7e, 0, 0x81, 0xf6, 0xf9, 0x7e, 0, 0x81, 0xf6] = .ok v'
        ∧ ∀ u', v'.Rearranged u' → (codec .canonical).encode u'
          = .once [0xa3, 0x61, 0x62, 5, 0xf9, 0x7e, 0, 0x81, 0xf6, 0xf9, 0x7e, 0, 0x81, 0xf6] := by
  have hsort : Entries.sort [([0x61, 0x62], ([5] : Bytes)), ([0xf9, 0x7e, 0], [0x81, 0xf6]),
        ([0xf9, 0x7e, 0], [0x81, 0xf6])]
      = [([0x61, 0x62], [5]), ([0xf9, 0x7e, 0], [0x81, 0xf6]), ([0xf9, 0x7e, 0], [0x81, 0xf6])] :=
    Entries.sort_eq_self (by decide)
  have hitem : Item.read [0xa3, 0xf9, 0x7e, 0, 0x9f, 0xf7, 0xff, 0xfb, 0x7f, 0xf8, 0, 0, 0, 0, 0, 1,
        0x81, 0xf6, 0x61, 0x62, 0xc2, 0x41, 5]
      = .ok (.map (some ⟨.inline, 3⟩)
        [(.primitive ⟨.two, 0x7e00⟩, .array none [.primitive ⟨.inline, 23⟩]),
          (.primitive ⟨.eight, 0x7ff8000000000001⟩,
            .array (some ⟨.inline, 1⟩) [.primitive ⟨.inline, 22⟩]),
          (.string .text ⟨.inline, 1⟩ [0x62],
            .tag ⟨.inline, 2⟩ (.string .bytes ⟨.inline, 1⟩ [5]))], []) := rfl
  have hnan : (Value.float 0x7ff8000000000000).identity? = none := rfl
  have hnan' : (Value.float 0x7ff8000000000001).identity? = none := rfl
  have hdecode : (codec .canonical).decode [0xa3, 0xf9, 0x7e, 0, 0x9f, 0xf7, 0xff, 0xfb, 0x7f, 0xf8,
        0, 0, 0, 0, 0, 1, 0x81, 0xf6, 0x61, 0x62, 0xc2, 0x41, 5]
      = .ok (.map [(.float 0x7ff8000000000000, .list [.nil]),
        (.float 0x7ff8000000000001, .list [.nil]), (.text [0x62], .big 5)]) := by
    refine decode_eq_ok_iff.2 ⟨_, hitem, Copy.interpret_map_eq_ok_iff.2 ⟨_, ?_, ?_, rfl⟩⟩
    · exact .cons ⟨.float 0x7ff8000000000000, rfl, rfl, rfl⟩
        (.cons ⟨.float 0x7ff8000000000001, rfl, rfl, rfl⟩
          (.cons ⟨.text [0x62], rfl, rfl, rfl⟩ .nil))
    · simp [Value.Same, hnan, hnan']
  have hkey : (Value.float 0x7ff8000000000000).encode .canonical = .ok [0xf9, 0x7e, 0] := rfl
  have hkey' : (Value.float 0x7ff8000000000001).encode .canonical = .ok [0xf9, 0x7e, 0] := rfl
  have htext : (Value.text [0x62]).encode .canonical = .ok [0x61, 0x62] := rfl
  have hencode : (Value.map [(.text [0x62], .big 5), (.float 0x7ff8000000000001, .list [.nil]),
        (.float 0x7ff8000000000000, .list [.nil])]).encode .canonical
      = .ok [0xa3, 0x61, 0x62, 5, 0xf9, 0x7e, 0, 0x81, 0xf6, 0xf9, 0x7e, 0, 0x81, 0xf6] := by
    have hentries : List.Forall₂ EntryBytes
        [(.text [0x62], .big 5), (.float 0x7ff8000000000001, .list [.nil]),
          (.float 0x7ff8000000000000, .list [.nil])]
        [([0x61, 0x62], [5]), ([0xf9, 0x7e, 0], [0x81, 0xf6]), ([0xf9, 0x7e, 0], [0x81, 0xf6])] :=
      .cons ⟨rfl, rfl⟩ (.cons ⟨rfl, rfl⟩ (.cons ⟨rfl, rfl⟩ .nil))
    rw [encode_map hentries, hsort]
    rfl
  have hlist : (Value.list [.nil]).Flat := by
    rintro es (_ | ⟨hv, hes⟩)
    obtain rfl := List.mem_singleton.1 hv
    cases hes
  have hvalues : ∀ p, ∀ e ∈ [(Value.float 0x7ff8000000000000, Value.list [.nil]),
      (.float 0x7ff8000000000001, .list [.nil]), (.text [0x62], .big 5)], e.2.AllMaps p := by
    intro p e he
    simp only [List.mem_cons, List.not_mem_nil, or_false] at he
    rcases he with rfl | rfl | rfl
    · exact hlist.allMaps p
    · exact hlist.allMaps p
    · exact (Value.flat_big 5).allMaps p
  have hapart : (Value.map [(.float 0x7ff8000000000000, .list [.nil]),
        (.float 0x7ff8000000000001, .list [.nil]), (.text [0x62], .big 5)]).KeysApart := by
    have his : (Value.float 0x7ff8000000000000).isNan = true := rfl
    have his' : (Value.float 0x7ff8000000000001).isNan = true := rfl
    exact Value.allMaps_map_iff.2 ⟨by simp [his, his', hkey, hkey', htext], hvalues _⟩
  have hsettled : (Value.map [(.float 0x7ff8000000000000, .list [.nil]),
        (.float 0x7ff8000000000001, .list [.nil]), (.text [0x62], .big 5)]).Settled :=
    Value.allMaps_map_iff.2 ⟨by simp [hkey, hkey', htext], hvalues _⟩
  obtain ⟨-, haccepted, hsame, -⟩ := encode_fixpoint_iff (by decide) hdecode
    (Value.rearranged_of_perm (List.reverse_perm _).symm)
  dsimp only [List.reverse, List.reverseAux] at haccepted hsame
  rw [codec_encode_eq hencode, Emission.bytes_once] at haccepted hsame
  obtain ⟨v', hv'⟩ := haccepted.2 hapart
  exact ⟨hdecode, codec_encode_eq hencode, v', hv', (hsame v' hv').2 hsettled⟩

/-- The time that is not set and nothing at all are different keys, but both are written as nothing
at all. -/
theorem encode_keys_merge :
    (codec .canonical).decode [0xa2, 0xf6, 0, 0xc1, 0xf9, 0x7e, 0, 0]
        = .ok (.map [(.nil, .unsigned 0), (.time .unset, .unsigned 0)])
      ∧ (codec .canonical).encode (.map [(.nil, .unsigned 0), (.time .unset, .unsigned 0)])
        = .once [0xa2, 0xf6, 0, 0xf6, 0]
      ∧ (codec .canonical).decode [0xa2, 0xf6, 0, 0xf6, 0]
        = .error (Error.duplicateKey "<nil>" 1).toFailure := by
  refine ⟨?_, ?_, ?_⟩
  · have hitem : Item.read [0xa2, 0xf6, 0, 0xc1, 0xf9, 0x7e, 0, 0]
        = .ok (.map (some ⟨.inline, 2⟩) [(.primitive ⟨.inline, 22⟩, .unsigned ⟨.inline, 0⟩),
          (.tag ⟨.inline, 1⟩ (.primitive ⟨.two, 0x7e00⟩), .unsigned ⟨.inline, 0⟩)], []) := rfl
    refine decode_eq_ok_iff.2 ⟨_, hitem, Copy.interpret_map_eq_ok_iff.2 ⟨_, ?_, ?_, rfl⟩⟩
    · exact .cons ⟨.nil, rfl, rfl, rfl⟩ (.cons ⟨.time .unset, rfl, rfl, rfl⟩ .nil)
    · simp [Value.Same, Value.identity?]
  · have hentries : List.Forall₂ EntryBytes [(.nil, .unsigned 0), (.time .unset, .unsigned 0)]
        [([0xf6], [0]), ([0xf6], [0])] :=
      .cons ⟨rfl, rfl⟩ (.cons ⟨rfl, rfl⟩ .nil)
    refine codec_encode_eq ?_
    rw [encode_map hentries, Entries.sort_eq_self (by decide)]
    rfl
  · have hitem : Item.read [0xa2, 0xf6, 0, 0xf6, 0]
        = .ok (.map (some ⟨.inline, 2⟩) [(.primitive ⟨.inline, 22⟩, .unsigned ⟨.inline, 0⟩),
          (.primitive ⟨.inline, 22⟩, .unsigned ⟨.inline, 0⟩)], []) := rfl
    have hpairs : interpretPairs [(.primitive ⟨.inline, 22⟩, .unsigned ⟨.inline, 0⟩),
        (.primitive ⟨.inline, 22⟩, .unsigned ⟨.inline, 0⟩)] {}
          = .error (.duplicateKey "<nil>" 1) := by
      simp [interpretPairs, Item.interpret, primitive, floatBits?, Value.key?, Partial.has,
        Partial.add, Value.identity?]
      rfl
    have hread : read [0xa2, 0xf6, 0, 0xf6, 0] = .error (.duplicateKey "<nil>" 1) := by
      rw [read, hitem]
      change (do let v ← Item.interpret true (.map _ _); return (v, [])) = _
      rw [Item.interpret, hpairs]
      rfl
    change exact readPrefix _ = _
    rw [exact, readPrefix, PrefixReader.ofRest, hread]
    rfl

end RoundTrip.Cbor
