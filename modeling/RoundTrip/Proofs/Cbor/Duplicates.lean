import RoundTrip.Proofs.Cbor.Spelling
import RoundTrip.Proofs.Cbor.Stability

/-!
# Repeated keys in CBOR

Keys are compared as values, and a value that is equal to nothing is not found again: what is no
number, and times in a zone that only they have (`Value.isLone`). Every other key occurs once in its
map, in each map of an input that is accepted, wherever it stands and however its length is given.

The comparison of values becomes one of bytes because keys with the same bytes are the same item
(`Item.Told`).

Main statement: `decode_repeats_lone_keys`.
-/

set_option autoImplicit false

namespace RoundTrip.Cbor

open Step

/-! ## Keys that are equal to nothing -/

namespace Value

/-- A zone that no other time has. Shared are the two that have a name and those of whole hours from
-12 to 14. -/
def isOwnZone : Zone → Bool
  | .fixed offset => ¬ (offset % 3600 = 0 ∧ -12 ≤ offset / 3600 ∧ offset / 3600 ≤ 14)
  | _ => false

/-- A key that equals no key, itself included: what is no number and times in a zone of their own,
also inside tags. -/
def isLone : Value → Bool
  | float bits => Binary.double.unpack bits.toNat = .nan
  | time t => isOwnZone t.zone
  | tag _ content => content.isLone
  | _ => false

theorem zoneIdentity?_eq_none_iff {zone : Zone} :
    zoneIdentity? zone = none ↔ isOwnZone zone = true := by
  cases zone with
  | utc => simp [zoneIdentity?, isOwnZone]
  | machine => simp [zoneIdentity?, isOwnZone]
  | fixed offset =>
      simp only [zoneIdentity?, isOwnZone, decide_eq_true_eq]
      split
      · rename_i hshared
        simp only [reduceCtorEq, hshared, not_true_eq_false, and_self]
      · rename_i hown
        exact iff_of_true rfl hown

/-- The keys without an identity are those that equal nothing. -/
theorem identity?_eq_none_iff {v k : Value} (h : v.key? = some k) :
    k.identity? = none ↔ v.isLone = true := by
  fun_induction key? v generalizing k with
  | case1 bs =>
      cases h
      simp [identity?, isLone]
  | case2 number content ih =>
      obtain ⟨k', hk', rfl⟩ := Option.map_eq_some_iff.1 h
      rw [identity?, Option.map_eq_none_iff, isLone]
      exact ih hk'
  | case3 n => cases h
  | case4 vs => cases h
  | case5 es => cases h
  | case6 v hbytes htag hbig hlist hmap =>
      cases h
      cases v with
      | float bits => simp [identity?, isLone, floatIdentity?_eq_none_iff]
      | time t => simp [identity?, isLone, zoneIdentity?_eq_none_iff]
      | bytes bs => exact absurd rfl (hbytes bs)
      | tag number content => exact absurd rfl (htag number content)
      | big n => exact absurd rfl (hbig n)
      | list vs => exact absurd rfl (hlist vs)
      | map es => exact absurd rfl (hmap es)
      | _ => simp [identity?, isLone]

end Value

/-! ## Maps inside items -/

/-- The four tags that are times and integers have no map inside. -/
theorem Item.not_hasMap_of_contentError? {number : Nat} {content : Item} (hnumber : number < 4)
    (h : contentError? number content = none) (pairs : List (Item × Item)) :
    ¬ content.HasMap pairs := by
  intro hmap
  match number, hnumber with
  | 0, _ | 1, _ | 2, _ | 3, _ => cases hmap <;> simp [contentError?, Item.major] at h

/-- A tag with a meaning has a content with a meaning, or one without maps. -/
theorem Item.of_interpret_tag {strip : Bool} {arg : Argument} {content : Item} {v : Value}
    (h : (Item.tag arg content).interpret strip = .ok v) :
    (∃ strip' v', content.interpret strip' = .ok v') ∨ ∀ pairs, ¬ content.HasMap pairs := by
  rw [Item.interpret] at h
  split at h
  · exact .inl ⟨true, v, h⟩
  split at h
  · cases h
  rename_i hchain
  have hcontent : contentError? arg.value content = none := by
    rw [chainError?] at hchain
    split at hchain
    · cases hchain
    · assumption
  by_cases hnumber : arg.value < 4
  · exact .inr (Item.not_hasMap_of_contentError? hnumber hcontent)
  · split at h
    · omega
    · omega
    · omega
    · omega
    · obtain ⟨v', hv', -⟩ := bind_eq_ok.1 h
      exact .inl ⟨false, v', hv'⟩

/-- **Every map inside an item with a meaning has one itself**, so that its keys are different. -/
theorem Item.HasMap.exists_entries {it : Item} {pairs : List (Item × Item)} (h : it.HasMap pairs) :
    ∀ {strip : Bool} {v : Value}, it.interpret strip = .ok v →
      ∃ es, List.Forall₂ IsEntry pairs es ∧ es.Pairwise fun a b => ¬ a.1.Same b.1 := by
  induction h with
  | self arg pairs =>
      intro strip v hv
      obtain ⟨es, hes, hkeys, -⟩ := Copy.interpret_map_eq_ok_iff.1 hv
      exact ⟨es, hes, hkeys⟩
  | array hit _ ih =>
      intro strip v hv
      obtain ⟨vs, hvs, -⟩ := Copy.interpret_array_eq_ok_iff.1 hv
      obtain ⟨v', -, hv'⟩ := exists_partner hvs hit
      exact ih hv'
  | key hp _ ih =>
      intro strip v hv
      obtain ⟨es, hes, -, -⟩ := Copy.interpret_map_eq_ok_iff.1 hv
      obtain ⟨e, -, k, hk, -, -⟩ := exists_partner hes hp
      exact ih hk
  | value hp _ ih =>
      intro strip v hv
      obtain ⟨es, hes, -, -⟩ := Copy.interpret_map_eq_ok_iff.1 hv
      obtain ⟨e, -, k, -, -, hvalue⟩ := exists_partner hes hp
      exact ih hvalue
  | tag hmap ih =>
      intro strip v hv
      rcases Item.of_interpret_tag hv with ⟨strip', v', hv'⟩ | hnone
      · exact ih hv'
      · exact absurd hmap (hnone _)

/-! ## Whole inputs -/

/-- Keys of one map that are the same item are keys that equal nothing. -/
theorem isLone_of_isEntry {p : Item × Item} {q : Item × Item} {e e' : Value × Value}
    (he : IsEntry p e) (he' : IsEntry q e') (hsame : ¬ e.1.Same e'.1) (heq : p.1 = q.1) :
    ∃ k, p.1.interpret true = .ok k ∧ k.isLone = true := by
  obtain ⟨k, hk, hkey, -⟩ := he
  obtain ⟨k', hk', hkey', -⟩ := he'
  rw [← heq, hk] at hk'
  obtain rfl := Except.ok.inj hk'
  rw [hkey] at hkey'
  have hentry : e.1 = e'.1 := Option.some.inj hkey'
  refine ⟨k, hk, (Value.identity?_eq_none_iff hkey).1 ?_⟩
  cases hidentity : e.1.identity? with
  | none => rfl
  | some i => exact absurd ⟨i, hidentity, hentry ▸ hidentity⟩ hsame

/-- Such keys are the only ones that a map can have twice. -/
theorem interpret_twice_iff {strip : Bool} {arg : Option Argument} {key value : Item} {k k' v : Value}
    (hk : key.interpret true = .ok k) (hkey : k.key? = some k') (hv : value.interpret true = .ok v) :
    (∃ m, (Item.map arg [(key, value), (key, value)]).interpret strip = .ok m)
      ↔ k.isLone = true := by
  constructor
  · rintro ⟨m, hm⟩
    obtain ⟨es, hes, hkeys, -⟩ := Copy.interpret_map_eq_ok_iff.1 hm
    have hpairs := pairwise_partners hes hkeys
    obtain ⟨e, e', he, he', hsame⟩ := List.pairwise_pair.1 hpairs
    obtain ⟨k'', hk'', hlone⟩ := isLone_of_isEntry he he' hsame rfl
    rw [hk] at hk''
    rwa [Except.ok.inj hk'']
  · intro hlone
    have hentry : IsEntry (key, value) (k', v) := ⟨k, hk, hkey, hv⟩
    refine ⟨_, Copy.interpret_map_eq_ok_iff.2
      ⟨[(k', v), (k', v)], .cons hentry (.cons hentry .nil), ?_, rfl⟩⟩
    rw [List.pairwise_pair]
    rintro ⟨i, hi, -⟩
    rw [(Value.identity?_eq_none_iff hkey).2 hlone] at hi
    cases hi

/-- In an input that is accepted, the keys of a map that have the same bytes are keys that equal
nothing. This holds of every map inside the item that the input consists of. -/
theorem decode_repeats_lone_keys {o : Order} {bs : Bytes} {v : Value}
    (h : (codec o).decode bs = .ok v) :
    ∃ it, Item.read bs = .ok (it, []) ∧ it.bytes = bs ∧ it.interpret true = .ok v
      ∧ ∀ pairs, it.HasMap pairs → pairs.Pairwise fun p q =>
          p.1.bytes = q.1.bytes → ∃ k, p.1.interpret true = .ok k ∧ k.isLone = true := by
  obtain ⟨it, hread, hv⟩ := decode_eq_ok_iff.1 h
  obtain ⟨hbytes, htold⟩ := append_of_read hread
  rw [List.append_nil] at hbytes
  refine ⟨it, hread, hbytes.symm, hv, ?_⟩
  intro pairs hpairs
  obtain ⟨es, hes, hkeys⟩ := hpairs.exists_entries hv
  have hentries := pairwise_partners hes hkeys
  refine hentries.imp_of_mem ?_
  rintro p q hp hq ⟨e, e', he, he', hsame⟩ heq
  exact isLone_of_isEntry he he' hsame (htold pairs hpairs p hp q hq heq)

/-- A map of indefinite length inside an array. -/
theorem decode_repeats_lone_keys_nested :
    (codec .given).decode [0x9f, 0xbf, 1, 2, 0x21, 4, 0xff, 0xff]
        = .ok (.list [.map [(.unsigned 1, .unsigned 2), (.signed (-2), .unsigned 4)]])
    ∧ ∃ it, Item.read [0x9f, 0xbf, 1, 2, 0x21, 4, 0xff, 0xff] = .ok (it, [])
      ∧ ∀ pairs, it.HasMap pairs → pairs.Pairwise fun p q =>
          p.1.bytes = q.1.bytes → ∃ k, p.1.interpret true = .ok k ∧ k.isLone = true := by
  have hitem : Item.read [0x9f, 0xbf, 1, 2, 0x21, 4, 0xff, 0xff]
      = .ok (.array none [.map none [(.unsigned ⟨.inline, 1⟩, .unsigned ⟨.inline, 2⟩),
        (.negative ⟨.inline, 1⟩, .unsigned ⟨.inline, 4⟩)]], []) := by
    cbv
  have hdecode : (codec .given).decode [0x9f, 0xbf, 1, 2, 0x21, 4, 0xff, 0xff]
      = .ok (.list [.map [(.unsigned 1, .unsigned 2), (.signed (-2), .unsigned 4)]]) := by
    refine decode_eq_ok_iff.2 ⟨_, hitem, ?_⟩
    refine Copy.interpret_array_eq_ok_iff.2 ⟨_, .cons ?_ .nil, rfl⟩
    refine Copy.interpret_map_eq_ok_iff.2 ⟨_, ?_, ?_, rfl⟩
    · exact .cons ⟨_, rfl, rfl, rfl⟩ (.cons ⟨_, rfl, rfl, rfl⟩ .nil)
    · simp [Value.Same, Value.identity?]
  obtain ⟨it, hread, -, -, hapart⟩ := decode_repeats_lone_keys hdecode
  exact ⟨hdecode, it, hread, hapart⟩

/-- An input that is accepted, by the codec of either order, although a map inside it has two keys
of the same bytes. -/
def Repeats (bs : Bytes) : Prop :=
  ∃ it v, Item.read bs = .ok (it, []) ∧ (∀ o, (codec o).decode bs = .ok v)
    ∧ ¬ ∀ pairs, it.HasMap pairs → pairs.Pairwise fun p q => p.1.bytes ≠ q.1.bytes

theorem repeats_of_isLone {bs : Bytes} {arg : Option Argument} {key value : Item}
    {k k' v : Value} (hitem : Item.read bs = .ok (.map arg [(key, value), (key, value)], []))
    (hk : key.interpret true = .ok k) (hkey : k.key? = some k') (hlone : k.isLone = true)
    (hv : value.interpret true = .ok v) : Repeats bs := by
  obtain ⟨m, hm⟩ := (interpret_twice_iff hk hkey hv).2 hlone
  refine ⟨_, m, hitem, fun _ => decode_eq_ok_iff.2 ⟨_, hitem, hm⟩, ?_⟩
  intro hapart
  exact List.pairwise_pair.1 (hapart _ (.self _ _)) rfl

/-- The time `2013-03-21T20:04:00+05:30` as text. -/
def halfHourStamp : Bytes :=
  [0x32, 0x30, 0x31, 0x33, 0x2d, 0x30, 0x33, 0x2d, 0x32, 0x31, 0x54, 0x32, 0x30, 0x3a, 0x30, 0x34,
    0x3a, 0x30, 0x30, 0x2b, 0x30, 0x35, 0x3a, 0x33, 0x30]

/-- What is no number is accepted as a key twice, and so is a time in a zone of half an hour. -/
theorem decode_repeated_keys :
    Repeats [0xa2, 0xf9, 0x7e, 0, 0, 0xf9, 0x7e, 0, 0]
    ∧ Repeats ([0xa2, 0xc0, 0x78, 0x19] ++ halfHourStamp ++ [0, 0xc0, 0x78, 0x19] ++ halfHourStamp
        ++ [0]) := by
  have hvalue : (Item.unsigned ⟨.inline, 0⟩).interpret true = .ok (.unsigned 0) := rfl
  constructor
  · have hitem : Item.read [0xa2, 0xf9, 0x7e, 0, 0, 0xf9, 0x7e, 0, 0]
        = .ok (.map (some ⟨.inline, 2⟩) [(.primitive ⟨.two, 0x7e00⟩, .unsigned ⟨.inline, 0⟩),
          (.primitive ⟨.two, 0x7e00⟩, .unsigned ⟨.inline, 0⟩)], []) := by
      cbv
    have hkey : (Item.primitive ⟨.two, 0x7e00⟩).interpret true = .ok (.float Value.nanBits) := rfl
    exact repeats_of_isLone hitem hkey rfl (by decide) hvalue
  · have hitem : Item.read ([0xa2, 0xc0, 0x78, 0x19] ++ halfHourStamp ++ [0, 0xc0, 0x78, 0x19]
          ++ halfHourStamp ++ [0])
        = .ok (.map (some ⟨.inline, 2⟩)
          [(.tag ⟨.inline, 0⟩ (.string .text ⟨.one, 25⟩ halfHourStamp), .unsigned ⟨.inline, 0⟩),
          (.tag ⟨.inline, 0⟩ (.string .text ⟨.one, 25⟩ halfHourStamp), .unsigned ⟨.inline, 0⟩)],
          []) := by
      cbv
    have hread : Timestamp.read? halfHourStamp = some ⟨1363876440, 0, .fixed 19800⟩ := by decide
    have htext : (Item.string .text ⟨.one, 25⟩ halfHourStamp).textContents = .ok halfHourStamp := by
      decide
    have hkey : (Item.tag ⟨.inline, 0⟩ (.string .text ⟨.one, 25⟩ halfHourStamp)).interpret true
        = .ok (.time ⟨1363876440, 0, .fixed 19800⟩) := by
      rw [Copy.interpret_tag (by decide) rfl]
      refine bind_eq_ok.2 ⟨halfHourStamp, htext, ?_⟩
      rw [hread]
    exact repeats_of_isLone hitem hkey rfl (by decide) hvalue

end RoundTrip.Cbor
