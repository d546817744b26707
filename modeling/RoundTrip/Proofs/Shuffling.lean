import Mathlib.Data.List.Perm.Basic
import RoundTrip.Proofs.Cbor.Stability
import RoundTrip.Proofs.Json.Stability
import RoundTrip.Proofs.Msgpack.Canonical
import RoundTrip.Proofs.Protobuf.Stability

/-!
# The order of entries is never written

A map has its entries in no particular order, and the same map may come in another order with every
run. `Shuffled` relates values that differ in the order of entries only, in maps at any depth. All
writers put entries in the order of their keys, so they write such values alike, as long as the keys
of a map can be told apart by what is written for them.

Main definitions: `Value.Shuffled` for each of the four formats. Main statement: `encode_shuffled`.
-/

set_option autoImplicit false

namespace RoundTrip

/-! ## Rows -/

/-- Rows of things that have the same partners. -/
theorem forall₂_map_congr {α β γ : Type} {R : β → γ → Prop} {f f' : α → β} {as : List α}
    (h : ∀ a ∈ as, ∀ c, R (f a) c ↔ R (f' a) c) {cs : List γ} :
    List.Forall₂ R (as.map f) cs ↔ List.Forall₂ R (as.map f') cs := by
  induction as generalizing cs with
  | nil => rfl
  | cons a as ih =>
      rw [List.forall_mem_cons] at h
      cases cs with
      | nil => simp
      | cons c cs =>
          rw [List.map_cons, List.map_cons, List.forall₂_cons, List.forall₂_cons, h.1 c, ih h.2]

/-- A result that does not depend on the order of a row is the same for every order of what the row is
made from. -/
theorem exists_row_iff {α β γ δ : Type} {R : β → γ → Prop} {f f' : α → β} {as : List α}
    {bs : List β} (h : ∀ a ∈ as, ∀ c, R (f a) c ↔ R (f' a) c) (hperm : (as.map f').Perm bs)
    {result : List γ → δ} (hresult : ∀ cs cs', List.Forall₂ R (as.map f) cs → cs.Perm cs' →
      result cs = result cs') {d : δ} :
    (∃ cs, List.Forall₂ R (as.map f) cs ∧ d = result cs)
      ↔ ∃ cs, List.Forall₂ R bs cs ∧ d = result cs := by
  constructor
  · rintro ⟨cs, hcs, rfl⟩
    obtain ⟨cs', hcs', hperm'⟩ :=
      List.perm_comp_forall₂ hperm.symm ((forall₂_map_congr h).1 hcs)
    exact ⟨cs', hcs', hresult cs cs' hcs hperm'.symm⟩
  · rintro ⟨cs', hcs', rfl⟩
    -- the row that is given is the one for `bs`, so `hresult` is used from the other side
    obtain ⟨cs, hcs, hperm'⟩ := List.perm_comp_forall₂ hperm hcs'
    have hcs := (forall₂_map_congr h).2 hcs
    exact ⟨cs, hcs, (hresult cs cs' hcs hperm').symm⟩

namespace Entries

variable {α β : Type}

/-- Entries whose values are written alike, in another order. -/
theorem sort_shuffled {f : α → β} {ps : List (Bytes × α × α)} {es : List (Bytes × α)}
    (hvalues : ∀ p ∈ ps, f p.2.2 = f p.2.1) (hkeys : (ps.map Prod.fst).Nodup)
    (hperm : (ps.map fun p => (p.1, p.2.2)).Perm es) :
    sort (es.map fun e => (e.1, f e.2))
      = sort ((ps.map fun p => (p.1, p.2.1)).map fun e => (e.1, f e.2)) := by
  have hsame : (ps.map fun p => (p.1, p.2.2)).map (fun e => (e.1, f e.2))
      = (ps.map fun p => (p.1, p.2.1)).map fun e => (e.1, f e.2) := by
    rw [List.map_map, List.map_map]
    apply List.map_congr_left
    intro p hp
    exact congrArg (Prod.mk p.1) (hvalues p hp)
  -- what is left is a rearrangement, and sorting forgets it
  rw [← hsame]
  refine (sort_eq_sort (hperm.map _) ?_).symm
  rw [List.map_map, List.map_map]
  exact hkeys

end Entries

end RoundTrip

/-! ## MessagePack -/

namespace RoundTrip.Msgpack

/-- Values that differ in the order of entries, in maps whose keys are different. -/
inductive Value.Shuffled : Value → Value → Prop
  | refl (v : Value) : Shuffled v v
  | list {ps : List (Value × Value)} (h : ∀ p ∈ ps, Shuffled p.1 p.2) :
      Shuffled (.list (ps.map Prod.fst)) (.list (ps.map Prod.snd))
  | map {ps : List (Bytes × Value × Value)} {es : List (Bytes × Value)}
      (h : ∀ p ∈ ps, Shuffled p.2.1 p.2.2) (hkeys : (ps.map Prod.fst).Nodup)
      (hperm : (ps.map fun p => (p.1, p.2.2)).Perm es) :
      Shuffled (.map (ps.map fun p => (p.1, p.2.1))) (.map es)

theorem Value.Shuffled.writes_eq {v v' : Value} (h : v.Shuffled v') : v'.writes = v.writes := by
  induction h with
  | refl v => rfl
  | @list ps _ ih =>
      have hvalues : (ps.map Prod.snd).map Value.writes = (ps.map Prod.fst).map Value.writes := by
        rw [List.map_map, List.map_map]
        exact List.map_congr_left ih
      rw [writes_list, writes_list, hvalues, List.length_map, List.length_map]
  | @map ps es _ hkeys hperm ih =>
      have hlength := hperm.length_eq
      rw [List.length_map] at hlength
      rw [writes, writes, entryWrites_eq, entryWrites_eq, List.reverse_nil, List.nil_append,
        List.nil_append, Entries.sort_shuffled ih hkeys hperm, List.length_map, hlength]

end RoundTrip.Msgpack

/-! ## Protocol buffers -/

namespace RoundTrip.Protobuf

/-- Values that differ in the order of entries, in structs whose names are different. -/
inductive Value.Shuffled : Value → Value → Prop
  | refl (v : Value) : Shuffled v v
  | list {ps : List (Value × Value)} {unknown rest : Bytes} (h : ∀ p ∈ ps, Shuffled p.1 p.2) :
      Shuffled (.mk (.list (ps.map Prod.fst) unknown) rest)
        (.mk (.list (ps.map Prod.snd) unknown) rest)
  | struct {ps : List (Bytes × Value × Value)} {fields : List (Bytes × Value)}
      {unknown rest : Bytes} (h : ∀ p ∈ ps, Shuffled p.2.1 p.2.2)
      (hnames : (ps.map Prod.fst).Nodup) (hperm : (ps.map fun p => (p.1, p.2.2)).Perm fields) :
      Shuffled (.mk (.struct (ps.map fun p => (p.1, p.2.1)) unknown) rest)
        (.mk (.struct fields unknown) rest)

/-- Structs that differ in the order of entries, at their top or inside. -/
inductive Struct.Shuffled : Struct → Struct → Prop
  | mk {ps : List (Bytes × Value × Value)} {fields : List (Bytes × Value)} {unknown : Bytes}
      (h : ∀ p ∈ ps, p.2.1.Shuffled p.2.2) (hnames : (ps.map Prod.fst).Nodup)
      (hperm : (ps.map fun p => (p.1, p.2.2)).Perm fields) :
      Shuffled ⟨ps.map fun p => (p.1, p.2.1), unknown⟩ ⟨fields, unknown⟩

/-- Two values with the same bytes, of which both have texts of UTF-8 or none has. -/
structure Value.Same (v v' : Value) : Prop where
  encode_eq : v'.encode = v.encode
  isUtf8_eq : v'.isUtf8 = v.isUtf8

theorem Struct.encode_of_perm {ps : List (Bytes × Value × Value)} {fields : List (Bytes × Value)}
    (h : ∀ p ∈ ps, p.2.1.Same p.2.2) (hnames : (ps.map Prod.fst).Nodup)
    (hperm : (ps.map fun p => (p.1, p.2.2)).Perm fields) (unknown : Bytes) :
    Struct.encode ⟨fields, unknown⟩ = Struct.encode ⟨ps.map fun p => (p.1, p.2.1), unknown⟩ := by
  rw [encode, encode, encodeFields_eq, encodeFields_eq, List.reverse_nil, List.nil_append,
    List.nil_append, Entries.sort_shuffled (fun p hp => (h p hp).encode_eq) hnames hperm]

theorem fieldsAreUtf8_shuffled {ps : List (Bytes × Value × Value)} {fields : List (Bytes × Value)}
    (h : ∀ p ∈ ps, p.2.1.Same p.2.2) (hperm : (ps.map fun p => (p.1, p.2.2)).Perm fields) :
    fieldsAreUtf8 fields = fieldsAreUtf8 (ps.map fun p => (p.1, p.2.1)) := by
  rw [Bool.eq_iff_iff, fieldsAreUtf8_iff, fieldsAreUtf8_iff]
  simp only [← hperm.mem_iff, List.forall_mem_map]
  refine forall₂_congr fun p hp => ?_
  rw [(h p hp).isUtf8_eq]

theorem Value.Shuffled.same {v v' : Value} (h : v.Shuffled v') : v.Same v' := by
  induction h with
  | refl v => exact ⟨rfl, rfl⟩
  | @list ps unknown rest _ ih =>
      refine ⟨?_, ?_⟩
      · have hvalues : (ps.map Prod.snd).map Value.encode = (ps.map Prod.fst).map Value.encode := by
          rw [List.map_map, List.map_map]
          exact List.map_congr_left fun p hp => (ih p hp).encode_eq
        rw [encode, encode, Kind.encode, Kind.encode, encodeValues_eq, encodeValues_eq, hvalues]
      · rw [Bool.eq_iff_iff]
        simp only [isUtf8, Kind.isUtf8, valuesAreUtf8_iff, List.forall_mem_map]
        refine forall₂_congr fun p hp => ?_
        rw [(ih p hp).isUtf8_eq]
  | @struct ps fields unknown rest _ hnames hperm ih =>
      refine ⟨?_, fieldsAreUtf8_shuffled ih hperm⟩
      have hstruct := Struct.encode_of_perm ih hnames hperm unknown
      rw [Struct.encode, Struct.encode] at hstruct
      rw [encode, encode, Kind.encode, Kind.encode, hstruct]

theorem Struct.Shuffled.encode_eq {s s' : Struct} (h : s.Shuffled s') :
    Struct.codec.encode s' = Struct.codec.encode s := by
  obtain ⟨h, hnames, hperm⟩ := h
  have hsame := fun p hp => (h p hp).same
  simp only [codec, fieldsAreUtf8_shuffled hsame hperm, Struct.encode_of_perm hsame hnames hperm]

end RoundTrip.Protobuf

/-! ## JSON -/

namespace RoundTrip.Json

/-- Values that differ in the order of entries, in objects whose keys are read back as different
ones. -/
inductive Value.Shuffled : Value → Value → Prop
  | refl (v : Value) : Shuffled v v
  | array {ps : List (Value × Value)} (h : ∀ p ∈ ps, Shuffled p.1 p.2) :
      Shuffled (.array (ps.map Prod.fst)) (.array (ps.map Prod.snd))
  | object {ps : List (Bytes × Value × Value)} {es : List (Bytes × Value)}
      (h : ∀ p ∈ ps, Shuffled p.2.1 p.2.2) (hkeys : (ps.map fun p => repaired p.1).Nodup)
      (hperm : (ps.map fun p => (p.1, p.2.2)).Perm es) :
      Shuffled (.object (ps.map fun p => (p.1, p.2.1))) (.object es)

theorem MemberBytes.keys_eq {es : List (Bytes × Value)} {ws : List (Bytes × Bytes)}
    (h : List.Forall₂ MemberBytes es ws) : ws.map Prod.fst = es.map Prod.fst := by
  induction h with
  | nil => rfl
  | cons hmember _ ih => rw [List.map_cons, List.map_cons, ih, hmember.1]

theorem memberBytes_perm {ws ws' : List (Bytes × Bytes)} (hperm : ws.Perm ws')
    (hkeys : ((ws.map Prod.fst).map repaired).Nodup) : memberBytes ws = memberBytes ws' := by
  have hsort := Entries.sort_eq_sort (hperm.map fun w => (repaired w.1, quote w.1 ++ 0x3a :: w.2))
    (by rwa [List.map_map] at hkeys ⊢)
  rw [memberBytes, memberBytes, hsort]

theorem Value.Shuffled.encode_eq_ok_iff {v v' : Value} (h : v.Shuffled v') :
    ∀ w, v.encode = .ok w ↔ v'.encode = .ok w := by
  induction h with
  | refl v => exact fun _ => Iff.rfl
  | @array ps _ ih =>
      intro w
      rw [encode_array_eq_ok_iff, encode_array_eq_ok_iff]
      exact exists_congr fun _ => and_congr_left fun _ => forall₂_map_congr ih
  | @object ps es _ hkeys hperm ih =>
      intro w
      rw [encode_object_eq_ok_iff, encode_object_eq_ok_iff]
      have hmembers : ∀ p ∈ ps, ∀ m, MemberBytes (p.1, p.2.1) m ↔ MemberBytes (p.1, p.2.2) m :=
        fun p hp m => and_congr_right fun _ => ih p hp m.2
      apply exists_row_iff hmembers hperm
      intro ws ws' hws hperm'
      -- members are sorted by their repaired keys, which are different
      rw [memberBytes_perm hperm']
      rw [MemberBytes.keys_eq hws, List.map_map, List.map_map]
      exact hkeys

/-- What cannot be written fails in one way only. -/
theorem encode_eq_of_iff {v v' : Value} (h : ∀ w, v.encode = .ok w ↔ v'.encode = .ok w) :
    codec.encode v' = codec.encode v := by
  change Emission.ofExcept (v'.encode.mapError Error.toFailure)
    = Emission.ofExcept (v.encode.mapError Error.toFailure)
  cases hv : v.encode with
  | ok w => rw [(h w).1 hv]
  | error e =>
      cases hv' : v'.encode with
      | ok w =>
          rw [(h w).2 hv'] at hv
          cases hv
      | error e' => rfl

end RoundTrip.Json

/-! ## CBOR -/

namespace RoundTrip.Cbor

/-- Values that differ in the order of entries, in maps whose keys are written as different bytes. No
key of a map holds one. -/
inductive Value.Shuffled : Value → Value → Prop
  | refl (v : Value) : Shuffled v v
  | tag {number : Nat} {content content' : Value} (h : Shuffled content content') :
      Shuffled (.tag number content) (.tag number content')
  | list {ps : List (Value × Value)} (h : ∀ p ∈ ps, Shuffled p.1 p.2) :
      Shuffled (.list (ps.map Prod.fst)) (.list (ps.map Prod.snd))
  | map {ps : List (Value × Value × Value)} {es : List (Value × Value)}
      (h : ∀ p ∈ ps, Shuffled p.2.1 p.2.2)
      (hkeys : ps.Pairwise fun p q => ∀ w, p.1.encode .canonical = .ok w →
        q.1.encode .canonical ≠ .ok w)
      (hperm : (ps.map fun p => (p.1, p.2.2)).Perm es) :
      Shuffled (.map (ps.map fun p => (p.1, p.2.1))) (.map es)

theorem toExcept_encode_eq_ok_iff {v : Value} {bs : Bytes} :
    ((codec .canonical).encode v).toExcept = .ok bs ↔ v.encode .canonical = .ok bs := by
  change (Emission.ofExcept ((v.encode .canonical).mapError Error.toFailure)).toExcept = _ ↔ _
  cases v.encode .canonical with
  | error e => simp [Except.mapError, Emission.ofExcept, Emission.fail, Emission.toExcept]
  | ok w =>
      simp [Except.mapError, Emission.ofExcept, Emission.once, Emission.toExcept, Emission.bytes]

theorem Value.Shuffled.eq_nil_iff {v v' : Value} (h : v.Shuffled v') : v = .nil ↔ v' = .nil := by
  cases h <;> simp

theorem EntryBytes.keys_nodup {es : List (Value × Value)} {ws : List (Bytes × Bytes)}
    (h : List.Forall₂ EntryBytes es ws) (hkeys : es.Pairwise fun e e' =>
      ∀ w, e.1.encode .canonical = .ok w → e'.1.encode .canonical ≠ .ok w) :
    (ws.map Prod.fst).Nodup := by
  refine List.pairwise_map.2 ((pairwise_partners h.flip hkeys).imp ?_)
  rintro w w' ⟨e, e', he, he', hne⟩ heq
  exact hne w.1 he.1 (heq ▸ he'.1)

theorem Value.Shuffled.encode_eq_ok_iff {v v' : Value} (h : v.Shuffled v') :
    ∀ w, v.encode .canonical = .ok w ↔ v'.encode .canonical = .ok w := by
  induction h with
  | refl v => exact fun _ => Iff.rfl
  | @tag number content content' h ih =>
      intro w
      by_cases hnil : content = .nil
      · -- a tag with nothing in it has nothing to rearrange
        rw [hnil, h.eq_nil_iff.1 hnil]
      · have hnil' : content' ≠ .nil := fun h' => hnil (h.eq_nil_iff.2 h')
        rw [encode_tag_eq_ok_iff hnil, encode_tag_eq_ok_iff hnil']
        simp only [ih]
  | @list ps _ ih =>
      intro w
      rw [encode_list_eq_ok_iff, encode_list_eq_ok_iff, List.length_map, List.length_map]
      exact exists_congr fun _ => and_congr_left fun _ => forall₂_map_congr ih
  | @map ps es _ hkeys hperm ih =>
      intro w
      rw [encode_map_eq_ok_iff, encode_map_eq_ok_iff, ← hperm.length_eq, List.length_map,
        List.length_map]
      have hentries : ∀ p ∈ ps, ∀ m,
          EntryBytes (p.1, p.2.1) m ↔ EntryBytes (p.1, p.2.2) m :=
        fun p hp m => and_congr_right fun _ => ih p hp m.2
      apply exists_row_iff hentries hperm
      intro ws ws' hws hperm'
      -- entries are sorted by the bytes of their keys, which are different
      rw [Entries.sort_eq_sort hperm' (EntryBytes.keys_nodup hws (List.pairwise_map.2 hkeys))]

/-- Two entries in exchanged places. -/
theorem Value.Shuffled.exchange {k l a a' b b' : Value} {w u : Bytes}
    (hk : k.encode .canonical = .ok w) (hl : l.encode .canonical = .ok u) (hne : w ≠ u)
    (ha : a.Shuffled a') (hb : b.Shuffled b') :
    (Value.map [(k, a), (l, b)]).Shuffled (.map [(l, b'), (k, a')]) := by
  refine @Shuffled.map [(k, a, a'), (l, b, b')] _ ?_ ?_ (.swap _ _ _)
  · simp [ha, hb]
  · simp [hk, hl, hne.symm]

end RoundTrip.Cbor

namespace RoundTrip

/-- **The order of entries is never written.** Values that differ in the order of entries of maps, at
any depth, are written as the same bytes, or none of them is written. In CBOR the failure may be
another one; in the other formats even that is the same. -/
theorem encode_shuffled :
    (∀ v v' : Cbor.Value, v.Shuffled v' → ∀ bs,
      ((Cbor.codec .canonical).encode v).toExcept = .ok bs
        ↔ ((Cbor.codec .canonical).encode v').toExcept = .ok bs)
    ∧ (∀ v v' : Msgpack.Value, v.Shuffled v' →
      Msgpack.codec.encode v' = Msgpack.codec.encode v)
    ∧ (∀ v v' : Json.Value, v.Shuffled v' → Json.codec.encode v' = Json.codec.encode v)
    ∧ ∀ s s' : Protobuf.Struct, s.Shuffled s' →
      Protobuf.Struct.codec.encode s' = Protobuf.Struct.codec.encode s := by
  refine ⟨?_, ?_, ?_, ?_⟩
  · intro v v' h bs
    rw [Cbor.toExcept_encode_eq_ok_iff, Cbor.toExcept_encode_eq_ok_iff]
    exact h.encode_eq_ok_iff bs
  · intro v v' h
    exact congrArg (Emission.mk · none) h.writes_eq
  · intro v v' h
    exact Json.encode_eq_of_iff h.encode_eq_ok_iff
  · intro s s' h
    exact h.encode_eq

/-- Entries exchanged in a map and in one inside it, and in one map of each other format. -/
theorem encode_shuffled_nested :
    ((Cbor.codec .canonical).encode (.map [(.unsigned 1, .nil),
        (.text [0x61], .tag 5 (.map [(.simple 32, .nil), (.bool true, .nil)]))])).toExcept
      = .ok [0xa2, 0x01, 0xf6, 0x61, 0x61, 0xc5, 0xa2, 0xf5, 0xf6, 0xf8, 0x20, 0xf6]
    ∧ Msgpack.codec.encode (.map [([0x62], .nil), ([0x61], .bool true)])
      = Msgpack.codec.encode (.map [([0x61], .bool true), ([0x62], .nil)])
    ∧ Json.codec.encode (.object [([0xff], .null), ([0x61], .bool true)])
      = Json.codec.encode (.object [([0x61], .bool true), ([0xff], .null)])
    ∧ Protobuf.Struct.codec.encode ⟨[([0x62], .mk .unset []), ([0x61], .mk (.bool true) [])], []⟩
      = Protobuf.Struct.codec.encode
        ⟨[([0x61], .mk (.bool true) []), ([0x62], .mk .unset [])], []⟩ := by
  obtain ⟨hcbor, hmsgpack, hjson, hprotobuf⟩ := encode_shuffled
  refine ⟨?_, ?_, ?_, ?_⟩
  · have hinner : Cbor.Value.Shuffled (.map [(.bool true, .nil), (.simple 32, .nil)])
        (.map [(.simple 32, .nil), (.bool true, .nil)]) :=
      .exchange (w := [0xf5]) (u := [0xf8, 0x20]) rfl rfl (by decide) (.refl _) (.refl _)
    have houter : Cbor.Value.Shuffled
        (.map [(.text [0x61], .tag 5 (.map [(.bool true, .nil), (.simple 32, .nil)])),
          (.unsigned 1, .nil)])
        (.map [(.unsigned 1, .nil),
          (.text [0x61], .tag 5 (.map [(.simple 32, .nil), (.bool true, .nil)]))]) :=
      .exchange (w := [0x61, 0x61]) (u := [0x01]) rfl rfl (by decide) (.tag hinner) (.refl _)
    have hinnerEntries : List.Forall₂ Cbor.EntryBytes [(.bool true, .nil), (.simple 32, .nil)]
        [([0xf5], [0xf6]), ([0xf8, 0x20], [0xf6])] :=
      .cons ⟨rfl, rfl⟩ (.cons ⟨rfl, rfl⟩ .nil)
    have htag : (Cbor.Value.tag 5 (.map [(.bool true, .nil), (.simple 32, .nil)])).encode .canonical
        = .ok [0xc5, 0xa2, 0xf5, 0xf6, 0xf8, 0x20, 0xf6] := by
      refine (Cbor.encode_tag_eq_ok_iff (by simp)).2 ⟨_, Cbor.encode_map hinnerEntries, ?_⟩
      rw [Entries.sort_eq_self (by decide)]
      rfl
    have houterEntries : List.Forall₂ Cbor.EntryBytes
        [(.text [0x61], .tag 5 (.map [(.bool true, .nil), (.simple 32, .nil)])),
          (.unsigned 1, .nil)]
        [([0x61, 0x61], [0xc5, 0xa2, 0xf5, 0xf6, 0xf8, 0x20, 0xf6]), ([0x01], [0xf6])] :=
      .cons ⟨rfl, htag⟩ (.cons ⟨rfl, rfl⟩ .nil)
    refine (hcbor _ _ houter _).1 (Cbor.toExcept_encode_eq_ok_iff.2 ?_)
    rw [Cbor.encode_map houterEntries, Entries.sort_eq_of_perm (List.Perm.swap _ _ _)]
    · rfl
    · unfold Entries.Increasing
      decide
  · refine hmsgpack _ _ (@Msgpack.Value.Shuffled.map
      [([0x61], .bool true, .bool true), ([0x62], .nil, .nil)] _ ?_ (by decide) (.swap _ _ _))
    simp [Msgpack.Value.Shuffled.refl]
  · refine hjson _ _ (@Json.Value.Shuffled.object
      [([0x61], .bool true, .bool true), ([0xff], .null, .null)] _ ?_ (by decide) (.swap _ _ _))
    simp [Json.Value.Shuffled.refl]
  · refine hprotobuf _ _ (@Protobuf.Struct.Shuffled.mk
      [([0x61], .mk (.bool true) [], .mk (.bool true) []), ([0x62], .mk .unset [], .mk .unset [])]
      _ _ ?_ (by decide) (.swap _ _ _))
    simp [Protobuf.Value.Shuffled.refl]

end RoundTrip
