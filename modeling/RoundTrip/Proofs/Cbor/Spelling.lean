import RoundTrip.Proofs.Cbor.Canonical

/-!
# The bytes of CBOR items

An item remembers how its heads were written, so the bytes that it was read from can be given back
(`Item.bytes`). This holds for every item that is read and not only for canonical ones: arguments may
be longer than they have to be, and lengths may be indefinite.

Of two things that one reader finds, those with the same bytes are the same. The keys of a map are
found by one reader; that is all that the comparison of keys needs (`Item.Told`).

Main statements: `level_faithful`, `append_of_read`.
-/

set_option autoImplicit false

namespace RoundTrip.Step

variable {ε α β : Type}

/-- What a step finds stands at the front of the input, written as `spell` says. -/
def Spelled (step : Step ε α) (spell : α → Bytes) : Prop :=
  ∀ ⦃bs a rest⦄, step bs = .ok (a, rest) → bs = spell a ++ rest

/-- A local step finds one thing in the bytes of what it finds. -/
theorem Spelled.inj {r : Nat → Step ε α} {spell : α → Bytes} {n : Nat}
    (hspelled : Spelled (r n) spell) (hlocal : Local r n) {bs rest bs' rest' : Bytes} {a a' : α}
    (h : r n bs = .ok (a, rest)) (h' : r n bs' = .ok (a', rest')) (heq : spell a = spell a') :
    a = a' := by
  obtain ⟨used, hused, hagain⟩ := hlocal h
  obtain ⟨used', hused', hagain'⟩ := hlocal h'
  obtain rfl : spell a = used := List.append_cancel_right ((hspelled h).symm.trans hused)
  obtain rfl : spell a' = used' := List.append_cancel_right ((hspelled h').symm.trans hused')
  have hread := hagain (spell a').length (Nat.le_of_eq (congrArg List.length heq)) []
  rw [heq, hagain' _ (Nat.le_refl _) []] at hread
  exact (Prod.mk.inj (Except.ok.inj hread)).1.symm

theorem Spelled.times {step : Step ε α} {spell : α → Bytes} (hstep : Spelled step spell) (n : Nat) :
    Spelled (Step.times step n) (List.flatMap spell) := by
  induction n with
  | zero =>
      intro bs as rest h
      cases h
      rfl
  | succ n ih =>
      intro bs as rest h
      rw [times_succ] at h
      split at h
      · rename_i a tail hread
        cases htimes : Step.times step n tail with
        | error e =>
            rw [htimes] at h
            cases h
        | ok r =>
            rw [htimes] at h
            cases h
            rw [hstep hread, ih htimes, List.flatMap_cons, List.append_assoc]
      · cases h

end RoundTrip.Step

namespace RoundTrip.Cbor

open Step

/-! ## Heads -/

/-- What the first byte of a head says about the argument. -/
def Argument.info (arg : Argument) : Nat :=
  match arg.width with
  | .inline => arg.value
  | w => w.info

/-- The bytes of a head; without argument the length is indefinite. -/
def headBytes (major : Major) : Option Argument → Bytes
  | some arg => UInt8.ofNat (major.code * 32 + arg.info) :: Bytes.bigEndian arg.width.bytes arg.value
  | none => [UInt8.ofNat (major.code * 32 + 31)]

theorem code_ofCode {n : Nat} (h : n < 8) : (Major.ofCode n).code = n := by
  match n, h with
  | 0, _ | 1, _ | 2, _ | 3, _ | 4, _ | 5, _ | 6, _ | 7, _ => rfl

theorem ofNat_code (b : UInt8) :
    UInt8.ofNat ((Major.ofCode (b.toNat / 32)).code * 32 + b.toNat % 32) = b := by
  have hlt := b.toNat_lt
  have hsum : b.toNat / 32 * 32 + b.toNat % 32 = b.toNat := by omega
  rw [code_ofCode (by omega), hsum, UInt8.ofNat_toNat]

theorem take_spelled (n : Nat) : Spelled (take n) id := by
  intro bs part rest h
  simp only [take] at h
  split at h
  · rename_i r hsplit
    cases h
    exact (Bytes.append_of_split hsplit).1
  · cases h

theorem argument_spelled (w : Width) :
    Spelled (argument w) fun arg => Bytes.bigEndian w.bytes arg.value := by
  intro bs arg rest h
  obtain ⟨⟨field, tail⟩, htake, hresult⟩ := bind_eq_ok.1 h
  cases hresult
  simp only [take] at htake
  split at htake
  · rename_i r hsplit
    cases htake
    obtain ⟨rfl, hlength⟩ := Bytes.append_of_split hsplit
    dsimp only
    rw [← hlength, Bytes.bigEndian_toNat]
  · cases htake

theorem of_headArgument {b : UInt8} {w : Width} (hw : w ≠ .inline) (hinfo : b.toNat % 32 = w.info)
    {major : Major} {arg : Option Argument} {bs rest : Bytes}
    (h : (do
      let (arg, rest) ← argument w bs
      if w = .one ∧ Major.ofCode (b.toNat / 32) = .primitive ∧ arg.value < 32 then
        throw (.simpleForm arg.value)
      return ((Major.ofCode (b.toNat / 32), some arg), rest) :
        Except SyntaxError ((Major × Option Argument) × Bytes)) = .ok ((major, arg), rest)) :
    major = Major.ofCode (b.toNat / 32) ∧ b :: bs = headBytes major arg ++ rest := by
  obtain ⟨⟨a, tail⟩, harg, hresult⟩ := bind_eq_ok.1 h
  dsimp only at hresult
  split at hresult
  · cases hresult
  · cases hresult
    have hwidth : a.width = w := by
      obtain ⟨⟨field, tail⟩, -, hargument⟩ := bind_eq_ok.1 harg
      cases hargument
      rfl
    have hainfo : a.info = b.toNat % 32 := by
      rw [Argument.info, hwidth, hinfo]
      cases w with
      | inline => exact absurd rfl hw
      | _ => rfl
    refine ⟨rfl, ?_⟩
    rw [headBytes, hainfo, ofNat_code, hwidth, argument_spelled w harg, List.cons_append]

theorem of_head_cons {b : UInt8} {major : Major} {arg : Option Argument} {bs rest : Bytes}
    (h : head (b :: bs) = .ok ((major, arg), rest)) :
    major = Major.ofCode (b.toNat / 32) ∧ b :: bs = headBytes major arg ++ rest := by
  unfold head at h
  dsimp only at h
  split at h
  · cases h
    exact ⟨rfl, congrArg (· :: bs) (ofNat_code b).symm⟩
  split at h
  · rename_i hinfo
    exact of_headArgument (by decide) hinfo h
  split at h
  · rename_i hinfo
    exact of_headArgument (by decide) hinfo h
  split at h
  · rename_i hinfo
    exact of_headArgument (by decide) hinfo h
  split at h
  · rename_i hinfo
    exact of_headArgument (by decide) hinfo h
  split at h
  · cases h
  · -- all that is left is an indefinite length
    have hinfo : b.toNat % 32 = 31 := by omega
    have hb := ofNat_code b
    rw [hinfo] at hb
    split at h <;> cases h
    exact ⟨rfl, congrArg (· :: bs) hb.symm⟩

theorem head_spelled : Spelled head fun h => headBytes h.1 h.2 := by
  intro bs h rest hhead
  cases bs with
  | nil => cases hhead
  | cons b bs => exact (of_head_cons hhead).2

/-! ## Items -/

/-- The end of what has no argument. -/
def closing : Option Argument → Bytes
  | some _ => []
  | none => [breakCode]

/-- A chunk of a string with its head. -/
def chunkBytes (kind : StringKind) (chunk : Argument × Bytes) : Bytes :=
  headBytes kind.major (some chunk.1) ++ chunk.2

mutual

/-- The bytes of an item. -/
def Item.bytes : Item → Bytes
  | .unsigned arg => headBytes .unsigned (some arg)
  | .negative arg => headBytes .negative (some arg)
  | .string kind arg cs => headBytes kind.major (some arg) ++ cs
  | .chunked kind chunks =>
      headBytes kind.major none ++ (chunks.flatMap (chunkBytes kind) ++ [breakCode])
  | .array arg items => headBytes .array arg ++ (itemsBytes items ++ closing arg)
  | .map arg pairs => headBytes .map arg ++ (pairsBytes pairs ++ closing arg)
  | .tag arg content => headBytes .tag (some arg) ++ content.bytes
  | .primitive arg => headBytes .primitive (some arg)

/-- The bytes of items one behind the other. -/
def itemsBytes : List Item → Bytes
  | [] => []
  | item :: items => item.bytes ++ itemsBytes items

/-- The bytes of keys, each with its value behind it. -/
def pairsBytes : List (Item × Item) → Bytes
  | [] => []
  | (key, value) :: pairs => key.bytes ++ value.bytes ++ pairsBytes pairs

end

/-- The bytes of a key with its value. -/
def pairBytes (p : Item × Item) : Bytes := p.1.bytes ++ p.2.bytes

theorem itemsBytes_eq (items : List Item) : itemsBytes items = items.flatMap Item.bytes := by
  induction items with
  | nil => rfl
  | cons item items ih => rw [itemsBytes, ih, List.flatMap_cons]

theorem pairsBytes_eq (pairs : List (Item × Item)) : pairsBytes pairs = pairs.flatMap pairBytes := by
  induction pairs with
  | nil => rfl
  | cons p pairs ih => rw [pairsBytes, ih, List.flatMap_cons, pairBytes]

theorem flatMap_pairs (pairs : List (Item × Item)) :
    (pairs.flatMap fun p => [p.1, p.2]).flatMap Item.bytes = pairs.flatMap pairBytes := by
  induction pairs with
  | nil => rfl
  | cons p pairs ih =>
      rw [List.flatMap_cons, List.flatMap_append, ih, List.flatMap_cons]
      simp [pairBytes]

/-- An item holds a map, as itself or somewhere inside, keys included. -/
inductive Item.HasMap : Item → List (Item × Item) → Prop
  | self (arg : Option Argument) (pairs : List (Item × Item)) : HasMap (map arg pairs) pairs
  | array {arg : Option Argument} {items : List Item} {it : Item} {pairs : List (Item × Item)}
      (hit : it ∈ items) (h : HasMap it pairs) : HasMap (array arg items) pairs
  | key {arg : Option Argument} {pairs pairs' : List (Item × Item)} {p : Item × Item}
      (hp : p ∈ pairs) (h : HasMap p.1 pairs') : HasMap (map arg pairs) pairs'
  | value {arg : Option Argument} {pairs pairs' : List (Item × Item)} {p : Item × Item}
      (hp : p ∈ pairs) (h : HasMap p.2 pairs') : HasMap (map arg pairs) pairs'
  | tag {arg : Argument} {content : Item} {pairs : List (Item × Item)} (h : HasMap content pairs) :
      HasMap (tag arg content) pairs

/-- In each map inside the item, keys with the same bytes are the same item. -/
def Item.Told (it : Item) : Prop :=
  ∀ pairs, it.HasMap pairs → ∀ p ∈ pairs, ∀ q ∈ pairs, p.1.bytes = q.1.bytes → p.1 = q.1

theorem Item.told_of_leaf {it : Item} (h : ∀ pairs, ¬ it.HasMap pairs) : it.Told :=
  fun pairs hpairs => absurd hpairs (h pairs)

theorem Item.told_array {arg : Option Argument} {items : List Item} (h : ∀ it ∈ items, it.Told) :
    (array arg items).Told := by
  intro pairs hpairs
  cases hpairs with
  | array hit hpairs => exact h _ hit pairs hpairs

theorem Item.told_map {arg : Option Argument} {pairs : List (Item × Item)}
    (hparts : ∀ p ∈ pairs, p.1.Told ∧ p.2.Told)
    (hkeys : ∀ p ∈ pairs, ∀ q ∈ pairs, p.1.bytes = q.1.bytes → p.1 = q.1) :
    (map arg pairs).Told := by
  intro pairs' hpairs
  cases hpairs with
  | self => exact hkeys
  | key hp hpairs => exact (hparts _ hp).1 pairs' hpairs
  | value hp hpairs => exact (hparts _ hp).2 pairs' hpairs

theorem Item.told_tag {arg : Argument} {content : Item} (h : content.Told) :
    (tag arg content).Told := by
  intro pairs hpairs
  cases hpairs with
  | tag hpairs => exact h pairs hpairs

/-! ## Strings -/

theorem contents_spelled (major : Major) (arg : Argument) : Spelled (contents major arg) id := by
  intro bs cs rest h
  unfold contents at h
  split at h
  · cases h
  · exact take_spelled arg.value h

theorem chunksLoop_spelled {kind : StringKind} {k : Nat} {done chunks : List (Argument × Bytes)}
    {bs rest : Bytes} (h : chunksLoop kind k done bs = .ok (chunks, rest)) :
    ∃ new, chunks = done.reverse ++ new
      ∧ bs = new.flatMap (chunkBytes kind) ++ [breakCode] ++ rest := by
  induction k generalizing done bs with
  | zero => cases h
  | succ k ih =>
      cases bs with
      | nil => cases h
      | cons b bs =>
          rw [chunksLoop] at h
          split at h
          · rename_i hbreak
            cases h
            exact ⟨[], by simp, by rw [hbreak]; rfl⟩
          split at h
          · cases h
          rename_i htype
          split at h
          · cases h
          split at h
          · cases h
          · cases h
          · rename_i major arg tail hhead
            split at h
            · cases h
            · rename_i chunk tail' hcontents
              obtain ⟨new, rfl, rfl⟩ := ih h
              obtain ⟨hmajor, hinput⟩ := of_head_cons hhead
              rw [Decidable.not_not.1 htype] at hmajor
              refine ⟨(arg, chunk) :: new, by simp, ?_⟩
              rw [hinput, contents_spelled major arg hcontents, hmajor, List.flatMap_cons, chunkBytes]
              simp

theorem stringItem_faithful {size : Nat} (kind : StringKind) {arg : Option Argument}
    {bs rest : Bytes} {it : Item} (h : stringItem size kind arg bs = .ok (it, rest)) :
    headBytes kind.major arg ++ bs = it.bytes ++ rest ∧ it.Told := by
  cases arg with
  | some arg =>
      obtain ⟨⟨cs, tail⟩, hcontents, hresult⟩ := bind_eq_ok.1 h
      cases hresult
      refine ⟨?_, Item.told_of_leaf fun pairs hpairs => by cases hpairs⟩
      rw [contents_spelled _ _ hcontents, Item.bytes, List.append_assoc]
      rfl
  | none =>
      obtain ⟨⟨chunks, tail⟩, hchunks, hresult⟩ := bind_eq_ok.1 h
      cases hresult
      refine ⟨?_, Item.told_of_leaf fun pairs hpairs => by cases hpairs⟩
      obtain ⟨new, rfl, rfl⟩ := chunksLoop_spelled hchunks
      simp [Item.bytes]

/-! ## Containers -/

/-- What a reader finds stands at the front of the input as its bytes and has its keys told apart by
their bytes, and so are the things that it finds. -/
structure Faithful (item : Step SyntaxError Item) : Prop where
  spelled : Spelled item Item.bytes
  told : ∀ ⦃bs it rest⦄, item bs = .ok (it, rest) → it.Told
  inj : ∀ ⦃bs it rest bs' it' rest'⦄, item bs = .ok (it, rest) → item bs' = .ok (it', rest') →
    it.bytes = it'.bytes → it = it'

section Containers

variable {item : Step SyntaxError Item}

theorem untilBreak_spelled (hitem : Spelled item Item.bytes) {excess? : Nat → Option SyntaxError}
    {k count : Nat} {done items : List Item} {bs rest : Bytes}
    (h : untilBreak item excess? k count done bs = .ok (items, rest)) :
    ∃ new, items = done.reverse ++ new ∧ bs = new.flatMap Item.bytes ++ [breakCode] ++ rest
      ∧ ∀ it ∈ new, ∃ bs' rest', item bs' = .ok (it, rest') := by
  induction k generalizing count done bs with
  | zero => cases h
  | succ k ih =>
      cases bs with
      | nil => cases h
      | cons b bs =>
          rw [untilBreak] at h
          split at h
          · rename_i hbreak
            cases h
            exact ⟨[], by simp, by rw [hbreak]; rfl, by simp⟩
          split at h
          · cases h
          · rename_i it tail hread
            split at h
            · cases h
            · obtain ⟨new, rfl, rfl, hnew⟩ := ih h
              refine ⟨it :: new, by simp, ?_, List.forall_mem_cons.2 ⟨⟨_, _, hread⟩, hnew⟩⟩
              rw [hitem hread, List.flatMap_cons]
              simp

theorem of_pairUp {done pairs : List (Item × Item)} {items : List Item}
    (h : pairUp done items = some pairs) :
    ∃ new, pairs = done.reverse ++ new ∧ items = new.flatMap fun p => [p.1, p.2] := by
  fun_induction pairUp done items with
  | case1 done =>
      cases h
      exact ⟨[], by simp, rfl⟩
  | case2 => cases h
  | case3 done key value items ih =>
      obtain ⟨new, rfl, rfl⟩ := ih h
      exact ⟨(key, value) :: new, by simp, rfl⟩

theorem arrayItem_faithful (hitem : Faithful item) {size : Nat} {arg : Option Argument}
    {bs rest : Bytes} {it : Item} (h : arrayItem size item arg bs = .ok (it, rest)) :
    headBytes .array arg ++ bs = it.bytes ++ rest ∧ it.Told := by
  cases arg with
  | some arg =>
      simp only [arrayItem] at h
      split at h
      · cases h
      split at h
      · cases h
      · obtain ⟨⟨items, tail⟩, htimes, hresult⟩ := bind_eq_ok.1 h
        cases hresult
        refine ⟨?_, Item.told_array fun it hit => ?_⟩
        · rw [hitem.spelled.times arg.value htimes, Item.bytes, itemsBytes_eq]
          simp [closing]
        · obtain ⟨bs', rest', hread⟩ := (of_times htimes).2 it hit
          exact hitem.told hread
  | none =>
      obtain ⟨⟨items, tail⟩, hloop, hresult⟩ := bind_eq_ok.1 h
      cases hresult
      obtain ⟨new, rfl, rfl, hnew⟩ := untilBreak_spelled hitem.spelled hloop
      refine ⟨?_, Item.told_array fun it hit => ?_⟩
      · rw [Item.bytes, itemsBytes_eq]
        simp [closing]
      · obtain ⟨bs', rest', hread⟩ := hnew it hit
        exact hitem.told hread

/-- A map of which every key and every value has been found by one reader. -/
theorem told_map_of_found (hitem : Faithful item) {arg : Option Argument} {pairs : List (Item × Item)}
    (hkeys : ∀ p ∈ pairs, ∃ bs rest, item bs = .ok (p.1, rest))
    (hvalues : ∀ p ∈ pairs, ∃ bs rest, item bs = .ok (p.2, rest)) : (Item.map arg pairs).Told := by
  refine Item.told_map ?_ ?_
  · intro p hp
    obtain ⟨_, _, hkey⟩ := hkeys p hp
    obtain ⟨_, _, hvalue⟩ := hvalues p hp
    exact ⟨hitem.told hkey, hitem.told hvalue⟩
  · intro p hp q hq heq
    obtain ⟨_, _, hkey⟩ := hkeys p hp
    obtain ⟨_, _, hkey'⟩ := hkeys q hq
    exact hitem.inj hkey hkey' heq

theorem of_pairStep {p : Item × Item} {bs rest : Bytes} (h : pairStep item bs = .ok (p, rest)) :
    ∃ tail, item bs = .ok (p.1, tail) ∧ item tail = .ok (p.2, rest) := by
  obtain ⟨⟨key, tail⟩, hkey, hrest⟩ := bind_eq_ok.1 h
  obtain ⟨⟨value, tail'⟩, hvalue, hresult⟩ := bind_eq_ok.1 hrest
  cases hresult
  exact ⟨tail, hkey, hvalue⟩

theorem pairStep_spelled (hitem : Spelled item Item.bytes) : Spelled (pairStep item) pairBytes := by
  intro bs p rest h
  obtain ⟨tail, hkey, hvalue⟩ := of_pairStep h
  rw [hitem hkey, hitem hvalue, pairBytes, List.append_assoc]

theorem mapItem_faithful (hitem : Faithful item) {size : Nat} {arg : Option Argument}
    {bs rest : Bytes} {it : Item} (h : mapItem size item arg bs = .ok (it, rest)) :
    headBytes .map arg ++ bs = it.bytes ++ rest ∧ it.Told := by
  cases arg with
  | some arg =>
      simp only [mapItem] at h
      split at h
      · cases h
      split at h
      · cases h
      · obtain ⟨⟨pairs, tail⟩, htimes, hresult⟩ := bind_eq_ok.1 h
        cases hresult
        have hfound := (of_times htimes).2
        refine ⟨?_, told_map_of_found hitem ?_ ?_⟩
        · rw [(pairStep_spelled hitem.spelled).times arg.value htimes, Item.bytes, pairsBytes_eq]
          simp [closing]
        · intro p hp
          obtain ⟨bs', rest', hread⟩ := hfound p hp
          obtain ⟨tail', hkey, -⟩ := of_pairStep hread
          exact ⟨bs', tail', hkey⟩
        · intro p hp
          obtain ⟨bs', rest', hread⟩ := hfound p hp
          obtain ⟨tail', -, hvalue⟩ := of_pairStep hread
          exact ⟨tail', rest', hvalue⟩
  | none =>
      obtain ⟨⟨items, tail⟩, hloop, hresult⟩ := bind_eq_ok.1 h
      obtain ⟨new, rfl, rfl, hnew⟩ := untilBreak_spelled hitem.spelled hloop
      dsimp only at hresult
      split at hresult
      · rename_i pairs hpairs
        cases hresult
        obtain ⟨pairs, rfl, hitems⟩ := of_pairUp hpairs
        subst hitems
        refine ⟨?_, told_map_of_found hitem ?_ ?_⟩
        · rw [Item.bytes, pairsBytes_eq, flatMap_pairs]
          simp [closing]
        · intro p hp
          exact hnew p.1 (List.mem_flatMap.2 ⟨p, hp, by simp⟩)
        · intro p hp
          exact hnew p.2 (List.mem_flatMap.2 ⟨p, hp, by simp⟩)
      · cases hresult

end Containers

/-! ## Levels -/

section Above

variable {size depth : Nat}
  (hbelow : ∀ d, depth = d + 1 → ∀ afterTag, Faithful ((level size d).reader afterTag))
include hbelow

theorem untagged_faithful {major : Major} {arg : Option Argument} {bs rest : Bytes} {it : Item}
    (h : untagged size (levelBelow size depth) major arg bs = .ok (it, rest)) :
    headBytes major arg ++ bs = it.bytes ++ rest ∧ it.Told := by
  cases major with
  | bytes => exact stringItem_faithful .bytes h
  | text => exact stringItem_faithful .text h
  | array =>
      cases depth with
      | zero => cases h
      | succ d => exact arrayItem_faithful (hbelow d rfl false) h
  | map =>
      cases depth with
      | zero => cases h
      | succ d => exact mapItem_faithful (hbelow d rfl false) h
  | tag => cases h
  | unsigned =>
      cases arg with
      | none => cases h
      | some arg =>
          cases h
          exact ⟨by rw [Item.bytes], Item.told_of_leaf fun pairs hpairs => by cases hpairs⟩
  | negative =>
      cases arg with
      | none => cases h
      | some arg =>
          cases h
          exact ⟨by rw [Item.bytes], Item.told_of_leaf fun pairs hpairs => by cases hpairs⟩
  | primitive =>
      cases arg with
      | none => cases h
      | some arg =>
          cases h
          exact ⟨by rw [Item.bytes], Item.told_of_leaf fun pairs hpairs => by cases hpairs⟩

theorem afterTag_faithful {bs rest : Bytes} {it : Item}
    (h : (level size depth).afterTag bs = .ok (it, rest)) : bs = it.bytes ++ rest ∧ it.Told := by
  rw [level_eq] at h
  obtain ⟨⟨⟨major, arg⟩, tail⟩, hhead, hrest⟩ := bind_eq_ok.1 h
  rw [head_spelled hhead]
  dsimp only at hrest
  split at hrest
  · cases hrest
  · rename_i arg' l hinner
    obtain ⟨⟨content, tail'⟩, hcontent, hresult⟩ := bind_eq_ok.1 hrest
    cases hresult
    cases depth with
    | zero => cases hinner
    | succ d =>
        cases hinner
        have hfaithful := hbelow d rfl true
        refine ⟨?_, Item.told_tag (hfaithful.told hcontent)⟩
        rw [hfaithful.spelled hcontent, Item.bytes, List.append_assoc]
  · exact untagged_faithful hbelow hrest

theorem item_faithful {bs rest : Bytes} {it : Item}
    (h : (level size depth).item bs = .ok (it, rest)) : bs = it.bytes ++ rest ∧ it.Told := by
  rw [level_eq] at h
  obtain ⟨⟨⟨major, arg⟩, tail⟩, hhead, hrest⟩ := bind_eq_ok.1 h
  rw [head_spelled hhead]
  dsimp only at hrest
  split at hrest
  · obtain ⟨⟨content, tail'⟩, hcontent, hresult⟩ := bind_eq_ok.1 hrest
    cases hresult
    -- the content is read by the other reader of the same level
    have hafterTag : (level size depth).afterTag tail = .ok (content, tail') := by
      rw [level_eq]
      exact hcontent
    obtain ⟨rfl, htold⟩ := afterTag_faithful hbelow hafterTag
    exact ⟨by rw [Item.bytes, List.append_assoc], Item.told_tag htold⟩
  · exact untagged_faithful hbelow hrest

theorem above_faithful (afterTag : Bool) : Faithful ((level size depth).reader afterTag) := by
  have hfound : ∀ ⦃bs it rest⦄, (level size depth).reader afterTag bs = .ok (it, rest) →
      bs = it.bytes ++ rest ∧ it.Told := by
    intro bs it rest h
    cases afterTag with
    | false => exact item_faithful hbelow h
    | true => exact afterTag_faithful hbelow h
  have hspelled : Spelled ((level size depth).reader afterTag) Item.bytes :=
    fun _ _ _ h => (hfound h).1
  refine ⟨hspelled, fun _ _ _ h => (hfound h).2, ?_⟩
  have hlocal := level_local (n := size) depth
  intro bs it rest bs' it' rest' h h' heq
  cases afterTag with
  | false => exact hspelled.inj (r := fun m => (level m depth).reader false) hlocal.item h h' heq
  | true => exact hspelled.inj (r := fun m => (level m depth).reader true) hlocal.afterTag h h' heq

end Above

/-- **Every level of nesting finds items whose bytes stand at the front of the input.** -/
theorem level_faithful (size depth : Nat) (afterTag : Bool) :
    Faithful ((level size depth).reader afterTag) := by
  induction depth generalizing afterTag with
  | zero =>
      apply above_faithful
      intro d hd
      cases hd
  | succ depth ih =>
      apply above_faithful
      rintro d ⟨⟩
      exact ih

theorem append_of_read {bs rest : Bytes} {it : Item} (h : Item.read bs = .ok (it, rest)) :
    bs = it.bytes ++ rest ∧ it.Told := by
  unfold Item.read at h
  split at h
  · cases h
  · have hfaithful := level_faithful bs.length maxLevels false
    exact ⟨hfaithful.spelled h, hfaithful.told h⟩

end RoundTrip.Cbor
