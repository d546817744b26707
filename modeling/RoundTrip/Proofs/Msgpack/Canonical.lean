import RoundTrip.Proofs.Msgpack.Words

/-!
# Canonical MessagePack

A value that has been read is written in one canonical form. `Canonical v w` is the grammar of
these forms: integers take the fewest bytes of all their words, and the keys of maps are strictly
increasing. Reading the form again gives a value that differs from the first one at most in the
widths of its integers (`Alike`), and so the form is written again.

Main statement: `encode_canonical`, by induction over the levels of nesting (`valueStep_restored`).
-/

set_option autoImplicit false

namespace RoundTrip.Msgpack

open Step

/-! ## Values that are written alike -/

/-- Values that differ at most in the widths of the integers in them. -/
inductive Alike : Value → Value → Prop
  | refl (v : Value) : Alike v v
  | integer {v v' : Value} {n : Int} : v.integer? = some n → v'.integer? = some n → Alike v v'
  | list {vs vs' : List Value} : List.Forall₂ Alike vs vs' → Alike (.list vs) (.list vs')
  | map {es es' : List (Bytes × Value)} :
      es'.map Prod.fst = es.map Prod.fst →
      List.Forall₂ Alike (es.map Prod.snd) (es'.map Prod.snd) → Alike (.map es) (.map es')

/-- A value without integers or values inside it. -/
def Value.Scalar : Value → Prop
  | .signed .. | .unsigned .. | .list _ | .map _ => False
  | _ => True

/-- The canonical words of a value. An integer has no shorter word, and the keys of a map are in
strictly increasing order. -/
inductive Canonical : Value → Bytes → Prop
  | integer {v : Value} {n : Int} {w : Bytes} :
      v.integer? = some n → Reads read w v →
      (∀ v' w', v'.integer? = some n → Reads read w' v' → w.length ≤ w'.length) → Canonical v w
  | scalar {v : Value} {w : Bytes} : v.Scalar → Reads read w v → Canonical v w
  | list {vs : List Value} {head : Bytes} {ws : List Bytes} :
      Opens .list head vs.length → List.Forall₂ Canonical vs ws →
        Canonical (.list vs) (head ++ ws.flatten)
  | map {es : List (Bytes × Value)} {head : Bytes} {keys ws : List Bytes} :
      Opens .map head es.length → List.Forall₂ (Reads string) keys (es.map Prod.fst) →
      List.Forall₂ Canonical (es.map Prod.snd) ws → (es.map Prod.fst).Pairwise (· < ·) →
        Canonical (.map es) (head ++ (List.zipWith (· ++ ·) keys ws).flatten)

/-- A value that takes the place of another one when it has been written and read again. -/
structure Restored (levels : Nat) (v v' : Value) : Prop where
  alike : Alike v v'
  writes_eq : v'.writes = v.writes
  reads : Reads (valueStep levels) v.bytes v'
  canonical : Canonical v' v.bytes

theorem reads_read {levels : Nat} {w : Bytes} {v : Value} (h : Reads (valueStep levels) w v) :
    Reads read w v := by
  intro s
  exact (h.of_local (valueStep_local levels) (by simp) : Reads (valueStep (w ++ s).length) w v) s

theorem listWrites_eq (vs : List Value) (done : List (List Write)) :
    listWrites vs done = done.reverse ++ vs.map Value.writes := by
  induction vs generalizing done with
  | nil => simp [listWrites]
  | cons v vs ih => simp [listWrites, ih]

theorem entryWrites_eq (es : List (Bytes × Value)) (done : List (Bytes × List Write)) :
    entryWrites es done = done.reverse ++ es.map fun e => (e.1, e.2.writes) := by
  induction es generalizing done with
  | nil => simp [entryWrites]
  | cons e es ih => simp [entryWrites, ih]

theorem Value.writes_list (vs : List Value) :
    (Value.list vs).writes = listHeader vs.length :: (vs.map Value.writes).flatten := by
  rw [Value.writes, listWrites_eq]
  rfl

theorem Value.writes_map (es : List (Bytes × Value)) :
    (Value.map es).writes = mapHeader es.length ::
      (Entries.sort
        ((es.map Prod.fst).zip ((es.map Prod.snd).map Value.writes))).flatMap entry := by
  rw [Value.writes, entryWrites_eq, List.map_map, List.zip_map']
  rfl

theorem Value.bytes_list (vs : List Value) :
    (Value.list vs).bytes = (listHeader vs.length).bytes ++ (vs.map Value.bytes).flatten := by
  rw [bytes, writes_list, List.flatMap_cons, List.flatMap, List.map_flatten, List.flatten_flatten,
    List.map_map, List.map_map]
  rfl

/-- The bytes of a key. -/
def keyBytes (key : Bytes) : Bytes := (textHeader key.length).bytes ++ key

theorem Value.bytes_map {es : List (Bytes × Value)} (h : Entries.Increasing es) :
    (Value.map es).bytes
      = (mapHeader es.length).bytes
        ++ (List.zipWith (· ++ ·) ((es.map Prod.fst).map keyBytes)
            ((es.map Prod.snd).map Value.bytes)).flatten := by
  have hincreasing : Entries.Increasing (es.map fun e => (e.1, e.2.writes)) :=
    h.of_keys (by simp)
  rw [bytes, writes_map, List.map_map, List.zip_map']
  simp only [Function.comp_apply]
  rw [Entries.sort_eq_self hincreasing.le, List.flatMap_cons, List.flatMap_assoc, List.flatMap_map,
    List.map_map, List.map_map, List.zipWith_map, List.zipWith_self]
  simp [List.flatMap, entry, Msgpack.text, keyBytes, Value.bytes, Write.bytes]

/-! ## Integers take the fewest bytes -/

theorem length_numbered (code : UInt8) (width n : Nat) :
    (numbered code width n).bytes.length = 1 + width := by
  rw [numbered, Write.bytes_block, List.length_cons, Bytes.length_bigEndian, Nat.add_comm]

/-- A number that fits one width and not another one is of a greater width; `s` is the number of
bits that are left to the sign. -/
theorem Width.bytes_lt {w w' : Width} {n s : Nat} (h : n < 2 ^ (w.bits - s))
    (hn : ¬ n < 2 ^ (w'.bits - s)) : w'.bytes < w.bytes := by
  by_contra hle
  apply hn
  refine Nat.lt_of_lt_of_le h (Nat.pow_le_pow_right (by decide) ?_)
  unfold bits
  omega

theorem Width.bytes_cases (w : Width) :
    w.bytes = 1 ∨ w.bytes = 2 ∨ w.bytes = 4 ∨ w.bytes = 8 := by
  cases w <;> decide

/-- The first width that a number fits takes no more bytes than any other one. -/
theorem length_first_le {w : Width} {n s : Nat} (h : n < 2 ^ (w.bits - s)) (c₁ c₂ c₄ c₈ : UInt8)
    (n₁ n₂ n₄ n₈ : Nat) :
    (if n < 2 ^ (Width.w8.bits - s) then numbered c₁ 1 n₁
      else if n < 2 ^ (Width.w16.bits - s) then numbered c₂ 2 n₂
      else if n < 2 ^ (Width.w32.bits - s) then numbered c₄ 4 n₄
      else numbered c₈ 8 n₈).bytes.length ≤ 1 + w.bytes := by
  have hw := w.bytes_cases
  split
  · rw [length_numbered]
    omega
  rename_i hone
  have hone' : 1 < w.bytes := Width.bytes_lt h hone
  split
  · rw [length_numbered]
    omega
  rename_i htwo
  have htwo' : 2 < w.bytes := Width.bytes_lt h htwo
  split
  · rw [length_numbered]
    omega
  · rename_i hfour
    have hfour' : 4 < w.bytes := Width.bytes_lt h hfour
    rw [length_numbered]
    omega

theorem length_natural_le {w : Width} {n : Nat} (h : n < 2 ^ w.bits) :
    (natural n).bytes.length ≤ 1 + w.bytes := by
  unfold natural
  split
  · exact Nat.le_add_right 1 _
  · exact length_first_le (s := 0) h ..

theorem length_negative_le {w : Width} {n : Nat} (h : n < 2 ^ (w.bits - 1)) :
    (negative n).bytes.length ≤ 1 + w.bytes := by
  unfold negative
  split
  · exact Nat.le_add_right 1 _
  · exact length_first_le (s := 1) h ..

/-- No word of an integer is shorter than the one written. -/
theorem length_integer_le {v : Value} {n : Int} {w : Bytes} (hn : v.integer? = some n)
    (h : Reads read w v) : (integer n).bytes.length ≤ w.length := by
  have hread : valueStep w.length w = .ok (v, []) := h.eq_ok
  cases w with
  | nil => cases hread
  | cons c w =>
      have hfound := valueStep_found hread
      generalize hused : (c :: w).length - ([] : Bytes).length = used at hfound
      rw [List.length_nil, Nat.sub_zero] at hused
      rw [hused]
      cases hfound with
      | small hone hlow hhigh =>
          cases hn
          cases n with
          | ofNat n =>
              rw [integer, natural, if_pos (Int.ofNat_lt.1 hhigh), hone]
              exact Nat.le_refl 1
          | negSucc n =>
              rw [integer, negative, if_pos (by omega), hone]
              exact Nat.le_refl 1
      | unsigned hused hlt =>
          cases hn
          rw [hused]
          exact length_natural_le hlt
      | @signed w _ hused hlow hhigh =>
          cases hn
          rw [hused]
          have hpow : ((2 ^ (w.bits - 1) : Nat) : Int) = 2 ^ (w.bits - 1) := Int.natCast_pow 2 _
          rw [← hpow] at hlow hhigh
          cases n with
          | ofNat n =>
              apply length_natural_le
              have hhalf : 2 ^ (w.bits - 1) ≤ 2 ^ w.bits :=
                Nat.pow_le_pow_right (by decide) (Nat.sub_le ..)
              exact Nat.lt_of_lt_of_le (Int.ofNat_lt.1 hhigh) hhalf
          | negSucc n =>
              apply length_negative_le
              omega
      | _ => cases hn

/-! ## A value written and read again -/

theorem reads_key {key : Bytes} (h : key.length < 0x100000000) :
    Reads string (keyBytes key) key := by
  obtain ⟨c, field, s, hhead, hform, hsize⟩ := textHeader_opens h
  rw [keyBytes, hhead]
  have hafter : Reads (stringAfter c) (field ++ key) key := by
    unfold stringAfter
    rw [hform]
    exact hsize.bind (reads_piece key)
  exact hafter

theorem scalar_restored {levels : Nat} {v : Value} (hscalar : v.Scalar)
    (h : Reads (valueStep levels) v.bytes v) : ∃ v', Restored levels v v' :=
  ⟨v, .refl v, rfl, h, .scalar hscalar (reads_read h)⟩

theorem integer_restored {v : Value} {n : Int} (hn : v.integer? = some n) (h : InRange n)
    (levels : Nat) : ∃ v', Restored (levels + 1) v v' := by
  obtain ⟨v', hn', hreads⟩ := reads_integer h
  have hbytes : v.bytes = (integer n).bytes := by
    rw [Value.bytes, Value.writes_of_integer hn, List.flatMap_singleton]
  have hword : Reads (valueStep (levels + 1)) v.bytes v' := by
    rw [hbytes]
    exact hreads levels
  refine ⟨v', .integer hn hn', ?_, hword, .integer hn' (reads_read hword) ?_⟩
  · rw [Value.writes_of_integer hn, Value.writes_of_integer hn']
  · intro v'' w' hn'' hw'
    rw [hbytes]
    exact length_integer_le hn'' hw'

theorem list_restored {levels : Nat} {vs vs' : List Value} (hlength : vs.length < 0x100000000)
    (h : List.Forall₂ (Restored levels) vs vs') : Restored (levels + 1) (.list vs) (.list vs') := by
  have hcount := h.length_eq
  have hopens := listHeader_opens hlength
  refine ⟨.list (h.imp fun _ _ hr => hr.alike), ?_, ?_, ?_⟩
  · rw [Value.writes_list, Value.writes_list, hcount,
      map_eq_of_forall₂ (h.imp fun _ _ hr => hr.writes_eq)]
  · have htimes := Reads.times (List.forall₂_map_left_iff.2 (h.imp fun _ _ hr => hr.reads))
    rw [Value.bytes_list]
    obtain ⟨c, field, s, hhead, hform, hsize⟩ := hopens
    rw [hhead]
    apply reads_valueStep
    rw [hform]
    rw [hcount] at hsize
    exact hsize.bind (htimes.returning Value.list)
  · rw [Value.bytes_list]
    rw [hcount] at hopens ⊢
    refine .list hopens ?_
    exact List.forall₂_map_right_iff.2 (h.flip.imp fun _ _ hr => hr.canonical)

/-- A word of an entry is a word of its key in front of one of its value. -/
theorem reads_entries {value : Step Error Value} {keys words keyWords : List Bytes}
    {vs : List Value} (hkeys : List.Forall₂ (Reads string) keyWords keys)
    (hvalues : List.Forall₂ (Reads value) words vs) :
    List.Forall₂ (Reads (entryStep value)) (List.zipWith (· ++ ·) keyWords words)
      (keys.zip vs) := by
  induction hkeys generalizing words vs with
  | nil => exact .nil
  | cons hkey _ ih =>
      cases hvalues with
      | nil => exact .nil
      | cons hvalue hvalues =>
          exact .cons (hkey.bind (hvalue.returning fun v => (_, v))) (ih hvalues)

theorem map_restored {levels : Nat} {es : List (Bytes × Value)} {vs' : List Value}
    (hlength : es.length < 0x100000000) (hincreasing : Entries.Increasing es)
    (hkeys : ∀ e ∈ es, e.1.length < 0x100000000)
    (h : List.Forall₂ (Restored levels) (es.map Prod.snd) vs') :
    Restored (levels + 1) (.map es) (.map ((es.map Prod.fst).zip vs')) := by
  have hcount : es.length = vs'.length := by simpa using h.length_eq
  have hfst : ((es.map Prod.fst).zip vs').map Prod.fst = es.map Prod.fst :=
    List.map_fst_zip (by simp [hcount])
  have hsnd : ((es.map Prod.fst).zip vs').map Prod.snd = vs' :=
    List.map_snd_zip (by simp [hcount])
  have hzip : ((es.map Prod.fst).zip vs').length = es.length := by simp [hcount]
  have hopens := mapHeader_opens hlength
  have hwords : List.Forall₂ (Reads string) ((es.map Prod.fst).map keyBytes) (es.map Prod.fst) := by
    apply List.forall₂_map_left_iff.2
    apply List.forall₂_same.2
    intro key hkey
    obtain ⟨e, he, rfl⟩ := List.mem_map.1 hkey
    exact reads_key (hkeys e he)
  refine ⟨.map hfst ?_, ?_, ?_, ?_⟩
  · rw [hsnd]
    exact h.imp fun _ _ hr => hr.alike
  · rw [Value.writes_map, Value.writes_map, hfst, hsnd, hzip,
      map_eq_of_forall₂ (h.imp fun _ _ hr => hr.writes_eq)]
  · have hentries := Reads.times
      (reads_entries hwords (List.forall₂_map_left_iff.2 (h.imp fun _ _ hr => hr.reads)))
    rw [Value.bytes_map hincreasing]
    obtain ⟨c, field, s, hhead, hform, hsize⟩ := hopens
    rw [hhead]
    apply reads_valueStep
    rw [hform]
    rw [hzip] at hentries
    have hmap := hentries.returning fun es => Value.map (Entries.ofPairs es)
    rw [Entries.ofPairs_eq_self (hincreasing.of_keys hfst)] at hmap
    exact hsize.bind hmap
  · rw [Value.bytes_map hincreasing]
    refine .map (by rwa [hzip]) (by rwa [hfst]) ?_ ?_
    · rw [hsnd]
      exact List.forall₂_map_right_iff.2 (h.flip.imp fun _ _ hr => hr.canonical)
    · rw [hfst]
      exact Entries.increasing_iff.1 hincreasing

/-- A value of a found integer. -/
theorem Found.inRange {value : Step Error Value} {used : Nat} {v : Value} {n : Int}
    (h : Found value used v) (hn : v.integer? = some n) : InRange n := by
  cases h with
  | small _ hlow hhigh =>
      cases hn
      simp only [InRange, wordHalf, wordCount]
      omega
  | @unsigned w n _ hlt =>
      cases hn
      simp only [InRange, wordHalf, wordCount]
      cases w <;> simp only [Width.bits, Width.bytes] at hlt <;> omega
  | @signed w n _ hlow hhigh =>
      cases hn
      simp only [InRange, wordHalf, wordCount]
      cases w <;> simp only [Width.bits, Width.bytes] at hlow hhigh <;> omega
  | _ => cases hn

/-- **Every value that is read can be written and read again.** -/
theorem valueStep_restored {levels : Nat} {bs rest : Bytes} {v : Value}
    (h : valueStep levels bs = .ok (v, rest)) : ∃ v', Restored levels v v' := by
  induction levels generalizing bs rest v with
  | zero => cases h
  | succ levels ih =>
      have hfound := valueStep_found h
      have hrange := fun n => hfound.inRange (n := n)
      cases hfound with
      | small => exact integer_restored rfl (hrange _ rfl) levels
      | unsigned => exact integer_restored rfl (hrange _ rfl) levels
      | signed => exact integer_restored rfl (hrange _ rfl) levels
      | nil => exact scalar_restored (v := .nil) trivial fun _ => rfl
      | bool b => exact scalar_restored trivial (reads_bool b levels)
      | float32 bits => exact scalar_restored trivial (reads_float32 bits levels)
      | float64 bits => exact scalar_restored trivial (reads_float64 bits levels)
      | text hlength => exact scalar_restored trivial (reads_text hlength levels)
      | binary hlength => exact scalar_restored trivial (reads_binary hlength levels)
      | time hnormal => exact scalar_restored trivial (reads_time hnormal levels)
      | @list vs hlength hread =>
          have hrestored : ∀ v ∈ vs, ∃ v', Restored levels v v' := by
            intro v hv
            obtain ⟨_, _, hvalue⟩ := hread v hv
            exact ih hvalue
          obtain ⟨vs', hvs'⟩ := exists_forall₂ hrestored
          exact ⟨.list vs', list_restored hlength hvs'⟩
      | @map es hlength hincreasing hread =>
          have hrestored : ∀ v ∈ es.map Prod.snd, ∃ v', Restored levels v v' := by
            intro v hv
            obtain ⟨e, he, rfl⟩ := List.mem_map.1 hv
            obtain ⟨-, _, _, hvalue⟩ := hread e he
            exact ih hvalue
          obtain ⟨vs', hvs'⟩ := exists_forall₂ hrestored
          exact ⟨_, map_restored hlength hincreasing (fun e he => (hread e he).1) hvs'⟩

/-! ## Main statement -/

theorem decode_eq_ok_iff {bs : Bytes} {v : Value} :
    codec.decode bs = .ok v ↔ read bs = .ok (v, []) :=
  exact_ofRest_eq_ok_iff.trans mapError_eq_ok

/-- **Written again, a value is canonical.** -/
theorem encode_canonical {bs : Bytes} {v : Value} (h : codec.decode bs = .ok v) :
    (codec.encode v).failure = none ∧
      ∃ v', codec.decode (codec.encode v).bytes = .ok v' ∧ Alike v v' ∧
        codec.encode v' = codec.encode v ∧ Canonical v' (codec.encode v).bytes := by
  obtain ⟨v', hrestored⟩ := valueStep_restored (decode_eq_ok_iff.1 h)
  refine ⟨rfl, v', ?_, hrestored.alike, ?_, hrestored.canonical⟩
  · exact decode_eq_ok_iff.2 (reads_read hrestored.reads).eq_ok
  · exact congrArg (Emission.mk · none) hrestored.writes_eq

/-- A binary key that repeats a text key, and keys out of order. -/
theorem encode_canonical_repeated_key :
    codec.decode [0x83, 0xa1, 0x62, 0xcd, 0, 5, 0xa1, 0x61, 0xc0, 0xc4, 1, 0x61, 0x91, 0xd0, 0xff]
        = .ok (.map [([0x61], .list [.signed .w8 (-1)]), ([0x62], .unsigned .w16 5)]) ∧
      ∃ v', codec.decode [0x82, 0xa1, 0x61, 0x91, 0xff, 0xa1, 0x62, 0x05] = .ok v' ∧
        Canonical v' [0x82, 0xa1, 0x61, 0x91, 0xff, 0xa1, 0x62, 0x05] := by
  have hsorted : Entries.ofPairs [([0x62], .unsigned .w16 5), ([0x61], .nil),
      ([0x61], .list [.signed .w8 (-1)])]
        = [([0x61], Value.list [.signed .w8 (-1)]), ([0x62], .unsigned .w16 5)] := by
    have hnil : Entries.sort ([] : List (Bytes × Value)) = [] := Entries.sort_eq_self .nil
    rw [Entries.ofPairs, Entries.sort_cons, Entries.sort_cons, Entries.sort_cons, hnil]
    rfl
  have hpairs : Step.times (entryStep (valueStep 14)) 3
      [0xa1, 0x62, 0xcd, 0, 5, 0xa1, 0x61, 0xc0, 0xc4, 1, 0x61, 0x91, 0xd0, 0xff]
        = .ok ([([0x62], .unsigned .w16 5), ([0x61], .nil),
          ([0x61], .list [.signed .w8 (-1)])], []) := by
    have hsigned : signedOf .w8 0xff = -1 := by decide
    rw [← hsigned]
    rfl
  have hdecode : codec.decode
      [0x83, 0xa1, 0x62, 0xcd, 0, 5, 0xa1, 0x61, 0xc0, 0xc4, 1, 0x61, 0x91, 0xd0, 0xff]
        = .ok (.map [([0x61], .list [.signed .w8 (-1)]), ([0x62], .unsigned .w16 5)]) := by
    refine decode_eq_ok_iff.2 ?_
    rw [← hsorted]
    exact bind_eq_ok.2 ⟨_, rfl, bind_eq_ok.2 ⟨_, rfl, bind_eq_ok.2 ⟨_, hpairs, rfl⟩⟩⟩
  have hbytes : (codec.encode
      (.map [([0x61], .list [.signed .w8 (-1)]), ([0x62], .unsigned .w16 5)])).bytes
        = [0x82, 0xa1, 0x61, 0x91, 0xff, 0xa1, 0x62, 0x05] := by
    refine (Value.bytes_map ?_).trans rfl
    unfold Entries.Increasing
    decide
  obtain ⟨-, v', hagain, -, -, hcanonical⟩ := encode_canonical hdecode
  rw [hbytes] at hagain hcanonical
  exact ⟨hdecode, v', hagain, hcanonical⟩

end RoundTrip.Msgpack
