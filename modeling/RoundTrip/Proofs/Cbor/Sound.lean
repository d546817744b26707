import RoundTrip.Proofs.Cbor.Canonical

/-!
# What the reader of CBOR items finds

The bounds that heads, limits and levels put on an item that is read: arguments fit an unsigned
word, strings a signed one, containers have no more than the greatest number of items, and nesting
stops at the last level. An input is taken to be no longer than a signed word can say.

Main statements: `level_sound`, `read_sound`. Canonical items are sound as well
(`Canonical.sound`).
-/

set_option autoImplicit false

namespace RoundTrip.Cbor

open Step

/-! ## Heads -/

/-- The bounds on the argument of a head that is read. -/
structure Argument.Bounded (arg : Argument) (major : Major) : Prop where
  lt_wordCount : arg.value < wordCount
  of_inline : arg.width = .inline → arg.value < 24
  of_one : arg.width = .one → arg.value < 256 ∧ (major = .primitive → 32 ≤ arg.value)

theorem argument_bounded {w : Width} {bs rest : Bytes} {arg : Argument}
    (h : argument w bs = .ok (arg, rest)) :
    arg.width = w ∧ arg.value < Nat.pow 256 w.bytes := by
  obtain ⟨⟨field, tail⟩, htake, hresult⟩ := bind_eq_ok.1 h
  cases hresult
  refine ⟨rfl, ?_⟩
  simp only [take] at htake
  split at htake
  · rename_i r hsplit
    cases htake
    obtain ⟨-, hlength⟩ := Bytes.append_of_split hsplit
    have hlt := Bytes.toNat_lt field
    rwa [hlength] at hlt
  · cases htake

theorem headArgument_bounded {major major' : Major} {w : Width} (hw : w ≠ .inline) {bs rest : Bytes}
    {arg : Option Argument}
    (h : (do
      let (arg, rest) ← argument w bs
      if w = .one ∧ major = .primitive ∧ arg.value < 32 then
        throw (.simpleForm arg.value)
      return ((major, some arg), rest) :
        Except SyntaxError ((Major × Option Argument) × Bytes)) = .ok ((major', arg), rest)) :
    ∀ a ∈ arg, a.Bounded major' := by
  obtain ⟨⟨a, tail⟩, harg, hresult⟩ := bind_eq_ok.1 h
  obtain ⟨hwidth, hlt⟩ := argument_bounded harg
  dsimp only at hresult
  split at hresult
  · cases hresult
  · rename_i hform
    cases hresult
    rintro _ ⟨⟩
    refine ⟨?_, ?_, ?_⟩
    · cases w with
      | inline => exact absurd rfl hw
      | one => exact Nat.lt_trans hlt (by decide)
      | two => exact Nat.lt_trans hlt (by decide)
      | four => exact Nat.lt_trans hlt (by decide)
      | eight => exact hlt
    · intro hinline
      exact absurd (hwidth ▸ hinline) hw
    · intro hone
      obtain rfl : w = .one := hwidth ▸ hone
      refine ⟨hlt, ?_⟩
      intro hprimitive
      by_contra hlt32
      exact hform ⟨rfl, hprimitive, Nat.not_le.1 hlt32⟩

theorem head_bounded {bs rest : Bytes} {major : Major} {arg : Option Argument}
    (h : head bs = .ok ((major, arg), rest)) : ∀ a ∈ arg, a.Bounded major := by
  cases bs with
  | nil => cases h
  | cons b bs =>
      unfold head at h
      dsimp only at h
      split at h
      · rename_i hinfo
        cases h
        rintro _ ⟨⟩
        exact ⟨Nat.lt_trans hinfo (by decide), fun _ => hinfo, fun hone => by cases hone⟩
      split at h
      · exact headArgument_bounded (by decide) h
      split at h
      · exact headArgument_bounded (by decide) h
      split at h
      · exact headArgument_bounded (by decide) h
      split at h
      · exact headArgument_bounded (by decide) h
      split at h
      · cases h
      · split at h <;> cases h
        intro a ha
        cases ha

/-! ## Items -/

/-- The items that the readers of a level with `depth` levels below it can find in an input whose
length fits a signed word. -/
inductive Sound : (afterTag : Bool) → (depth : Nat) → Item → Prop
  | unsigned {afterTag : Bool} {depth : Nat} {arg : Argument} (h : arg.Bounded .unsigned) :
      Sound afterTag depth (.unsigned arg)
  | negative {afterTag : Bool} {depth : Nat} {arg : Argument} (h : arg.Bounded .negative) :
      Sound afterTag depth (.negative arg)
  | string {afterTag : Bool} {depth : Nat} {kind : StringKind} {arg : Argument} {cs : Bytes}
      (h : cs.length < wordHalf) : Sound afterTag depth (.string kind arg cs)
  | chunked {afterTag : Bool} {depth : Nat} {kind : StringKind} {chunks : List (Argument × Bytes)}
      (h : (chunks.map Prod.snd).flatten.length < wordHalf) :
      Sound afterTag depth (.chunked kind chunks)
  | array {afterTag : Bool} {depth : Nat} {arg : Option Argument} {items : List Item}
      (hcount : items.length ≤ maxCount) (h : ∀ it ∈ items, Sound false depth it) :
      Sound afterTag (depth + 1) (.array arg items)
  | map {afterTag : Bool} {depth : Nat} {arg : Option Argument} {pairs : List (Item × Item)}
      (hcount : pairs.length ≤ maxCount) (hkeys : ∀ p ∈ pairs, Sound false depth p.1)
      (hvalues : ∀ p ∈ pairs, Sound false depth p.2) :
      Sound afterTag (depth + 1) (.map arg pairs)
  | tag {depth : Nat} {arg : Argument} {content : Item} (harg : arg.Bounded .tag)
      (h : Sound true depth content) : Sound false depth (.tag arg content)
  | innerTag {depth : Nat} {arg : Argument} {content : Item} (harg : arg.Bounded .tag)
      (h : Sound true depth content) : Sound true (depth + 1) (.tag arg content)
  | primitive {afterTag : Bool} {depth : Nat} {arg : Argument} (h : arg.Bounded .primitive) :
      Sound afterTag depth (.primitive arg)

theorem shortArgument_bounded {major : Major} {n : Nat} (hn : n < wordCount)
    (hsimple : major = .primitive → n < 24 ∨ 32 ≤ n) : (shortArgument n).Bounded major where
  lt_wordCount := hn
  of_inline := by
    intro hwidth
    by_contra hlarge
    have hsmall : ¬ n < 24 := hlarge
    simp only [shortArgument, if_neg hsmall] at hwidth
    repeat' split at hwidth
    all_goals cases hwidth
  of_one := by
    intro hwidth
    dsimp only [shortArgument] at hwidth
    split at hwidth
    · cases hwidth
    split at hwidth
    · rename_i hinline hone
      refine ⟨hone, ?_⟩
      intro hprimitive
      exact (hsimple hprimitive).resolve_left hinline
    repeat' split at hwidth
    all_goals cases hwidth

/-- Canonical items are among those that are found. -/
theorem Canonical.sound {afterTag : Bool} {depth : Nat} {it : Item} {w : Bytes}
    (h : Canonical afterTag depth it w) : Sound afterTag depth it := by
  induction h with
  | unsigned hn => exact .unsigned (shortArgument_bounded hn (by simp))
  | negative hn => exact .negative (shortArgument_bounded hn (by simp))
  | string kind hcs => exact .string hcs
  | array hcount _ ih =>
      refine .array (by rwa [List.length_map]) ?_
      intro it hit
      obtain ⟨p, hp, rfl⟩ := List.mem_map.1 hit
      exact ih p hp
  | map hcount _ _ ihkeys ihvalues =>
      refine .map (by rwa [List.length_map]) ?_ ?_
      · intro p hp
        obtain ⟨q, hq, rfl⟩ := List.mem_map.1 hp
        exact ihkeys q hq
      · intro p hp
        obtain ⟨q, hq, rfl⟩ := List.mem_map.1 hp
        exact ihvalues q hq
  | tag hn _ ih => exact .tag (shortArgument_bounded hn (by simp)) ih
  | innerTag hn _ ih => exact .innerTag (shortArgument_bounded hn (by simp)) ih
  | @simple _ _ n hn =>
      have hlt : n < wordCount := Nat.lt_of_lt_of_le (by omega : n < 256) (by decide)
      exact .primitive (shortArgument_bounded hlt (by omega))
  | @float _ _ w hw n hn =>
      refine .primitive ⟨?_, ?_, ?_⟩
      · rcases hw with rfl | rfl | rfl
        · exact Nat.lt_trans hn (by decide)
        · exact Nat.lt_trans hn (by decide)
        · exact hn
      · rcases hw with rfl | rfl | rfl <;> rintro ⟨⟩
      · rcases hw with rfl | rfl | rfl <;> rintro ⟨⟩

/-! ## Strings -/

theorem contents_length {major : Major} {arg : Argument} {bs cs rest : Bytes}
    (h : contents major arg bs = .ok (cs, rest)) :
    cs.length < wordHalf ∧ cs.length + rest.length = bs.length := by
  unfold contents at h
  split at h
  · cases h
  · rename_i hbound
    simp only [take] at h
    split at h
    · rename_i r hsplit
      cases h
      obtain ⟨rfl, hlength⟩ := Bytes.append_of_split hsplit
      refine ⟨?_, (List.length_append ..).symm⟩
      rw [hlength]
      exact Nat.not_le.1 hbound
    · cases h

/-- The chunks of a string have no more bytes than the input. -/
theorem chunksLoop_length {kind : StringKind} {k : Nat} {done chunks : List (Argument × Bytes)}
    {bs rest : Bytes} (h : chunksLoop kind k done bs = .ok (chunks, rest)) :
    (chunks.map Prod.snd).flatten.length
      ≤ (done.map Prod.snd).flatten.length + bs.length := by
  induction k generalizing done bs with
  | zero => cases h
  | succ k ih =>
      cases bs with
      | nil => cases h
      | cons b bs =>
          rw [chunksLoop] at h
          split at h
          · cases h
            simp [List.sum_reverse]
          split at h
          · cases h
          split at h
          · cases h
          split at h
          · cases h
          · cases h
          · rename_i major arg tail hhead
            split at h
            · cases h
            · rename_i chunk tail' hcontents
              have hle := ih h
              have hlength := (contents_length hcontents).2
              have htail := head_advances hhead
              simp only [List.map_cons, List.flatten_cons, List.length_append] at hle
              omega

theorem stringItem_sound {afterTag : Bool} {depth size : Nat} {kind : StringKind}
    {arg : Option Argument} {bs rest : Bytes} {it : Item} (hbs : bs.length < wordHalf)
    (h : stringItem size kind arg bs = .ok (it, rest)) : Sound afterTag depth it := by
  cases arg with
  | some arg =>
      obtain ⟨⟨cs, tail⟩, hcontents, hresult⟩ := bind_eq_ok.1 h
      cases hresult
      exact .string (contents_length hcontents).1
  | none =>
      obtain ⟨⟨chunks, tail⟩, hchunks, hresult⟩ := bind_eq_ok.1 h
      cases hresult
      have hle := chunksLoop_length hchunks
      simp only [List.map_nil, List.flatten_nil, List.length_nil, Nat.zero_add] at hle
      exact .chunked (Nat.lt_of_le_of_lt hle hbs)

/-! ## Containers -/

section Containers

variable {item : Step SyntaxError Item} {good : Item → Prop}

/-- What is read from an input that fits a signed word is good, and leaves such an input. -/
def Finds (item : Step SyntaxError Item) (good : Item → Prop) : Prop :=
  ∀ ⦃bs it rest⦄, bs.length < wordHalf → item bs = .ok (it, rest) →
    good it ∧ rest.length < wordHalf

theorem times_found (hitem : Finds item good) {n : Nat} {bs rest : Bytes} {items : List Item}
    (hbs : bs.length < wordHalf) (h : times item n bs = .ok (items, rest)) :
    items.length = n ∧ ∀ it ∈ items, good it := by
  obtain ⟨hlength, hread⟩ := of_times_keeping (p := fun bs => bs.length < wordHalf)
    (fun hbs hread => (hitem hbs hread).2) hbs h
  refine ⟨hlength, ?_⟩
  intro it hit
  obtain ⟨bs', rest', hbs', hread'⟩ := hread it hit
  exact (hitem hbs' hread').1

theorem pairs_found (hitem : Finds item good) {n : Nat} {bs rest : Bytes}
    {pairs : List (Item × Item)} (hbs : bs.length < wordHalf)
    (h : times (pairStep item) n bs = .ok (pairs, rest)) :
    pairs.length = n ∧ ∀ p ∈ pairs, good p.1 ∧ good p.2 := by
  have hpair : ∀ {bs p rest}, bs.length < wordHalf → pairStep item bs = .ok (p, rest) →
      (good p.1 ∧ good p.2) ∧ rest.length < wordHalf := by
    intro bs p rest hbs hread
    obtain ⟨⟨key, tail⟩, hkey, hrest⟩ := bind_eq_ok.1 hread
    obtain ⟨⟨value, tail'⟩, hvalue, hresult⟩ := bind_eq_ok.1 hrest
    cases hresult
    obtain ⟨hgood, htail⟩ := hitem hbs hkey
    obtain ⟨hgood', htail'⟩ := hitem htail hvalue
    exact ⟨⟨hgood, hgood'⟩, htail'⟩
  obtain ⟨hlength, hread⟩ := of_times_keeping (p := fun bs => bs.length < wordHalf)
    (fun hbs hread => (hpair hbs hread).2) hbs h
  refine ⟨hlength, ?_⟩
  intro p hp
  obtain ⟨bs', rest', hbs', hread'⟩ := hread p hp
  exact (hpair hbs' hread').1

/-- The number of items has passed the test for an excess, unless there are none. -/
theorem untilBreak_found (hitem : Finds item good) {excess? : Nat → Option SyntaxError}
    {k count : Nat} {done items : List Item} {bs rest : Bytes} (hbs : bs.length < wordHalf)
    (h : untilBreak item excess? k count done bs = .ok (items, rest))
    (hcount : done.length = count) (hexcess : count ≠ 0 → excess? count = none)
    (hdone : ∀ it ∈ done, good it) :
    (items.length ≠ 0 → excess? items.length = none) ∧ ∀ it ∈ items, good it := by
  induction k generalizing count done bs with
  | zero => cases h
  | succ k ih =>
      cases bs with
      | nil => cases h
      | cons b bs =>
          rw [untilBreak] at h
          split at h
          · cases h
            rw [List.length_reverse, hcount]
            exact ⟨hexcess, fun it hit => hdone it (List.mem_reverse.1 hit)⟩
          split at h
          · cases h
          · rename_i it tail hread
            split at h
            · cases h
            · rename_i hnone
              obtain ⟨hgood, htail⟩ := hitem hbs hread
              exact ih htail h (by rw [List.length_cons, hcount]) (fun _ => hnone)
                (List.forall_mem_cons.2 ⟨hgood, hdone⟩)

theorem pairUp_found {done pairs : List (Item × Item)} {items : List Item}
    (h : pairUp done items = some pairs) (hdone : ∀ p ∈ done, good p.1 ∧ good p.2)
    (hitems : ∀ it ∈ items, good it) :
    2 * pairs.length = 2 * done.length + items.length ∧ ∀ p ∈ pairs, good p.1 ∧ good p.2 := by
  fun_induction pairUp done items with
  | case1 done =>
      cases h
      exact ⟨by simp, fun p hp => hdone p (List.mem_reverse.1 hp)⟩
  | case2 => cases h
  | case3 done key value items ih =>
      rw [List.forall_mem_cons, List.forall_mem_cons] at hitems
      obtain ⟨hlength, hgood⟩ := ih h
        (List.forall_mem_cons.2 ⟨⟨hitems.1, hitems.2.1⟩, hdone⟩) hitems.2.2
      refine ⟨?_, hgood⟩
      simp only [List.length_cons] at hlength ⊢
      omega

theorem arrayItem_sound {afterTag : Bool} {depth size : Nat} {arg : Option Argument}
    {bs rest : Bytes} {it : Item} (hitem : Finds item (Sound false depth))
    (hbs : bs.length < wordHalf) (h : arrayItem size item arg bs = .ok (it, rest)) :
    Sound afterTag (depth + 1) it := by
  cases arg with
  | some arg =>
      simp only [arrayItem] at h
      split at h
      · cases h
      split at h
      · cases h
      · rename_i hlimit
        obtain ⟨⟨items, tail⟩, htimes, hresult⟩ := bind_eq_ok.1 h
        cases hresult
        obtain ⟨hlength, hgood⟩ := times_found hitem hbs htimes
        refine .array ?_ hgood
        rw [hlength]
        exact Nat.not_lt.1 hlimit
  | none =>
      obtain ⟨⟨items, tail⟩, hloop, hresult⟩ := bind_eq_ok.1 h
      cases hresult
      obtain ⟨hexcess, hgood⟩ := untilBreak_found hitem hbs hloop rfl (by simp) (by simp)
      refine .array ?_ hgood
      by_contra hmany
      have hnone := hexcess (by omega)
      rw [arrayExcess?, if_pos (Nat.not_le.1 hmany)] at hnone
      cases hnone

theorem mapItem_sound {afterTag : Bool} {depth size : Nat} {arg : Option Argument}
    {bs rest : Bytes} {it : Item} (hitem : Finds item (Sound false depth))
    (hbs : bs.length < wordHalf) (h : mapItem size item arg bs = .ok (it, rest)) :
    Sound afterTag (depth + 1) it := by
  cases arg with
  | some arg =>
      simp only [mapItem] at h
      split at h
      · cases h
      split at h
      · cases h
      · rename_i hlimit
        obtain ⟨⟨pairs, tail⟩, htimes, hresult⟩ := bind_eq_ok.1 h
        cases hresult
        obtain ⟨hlength, hgood⟩ := pairs_found hitem hbs htimes
        refine .map ?_ (fun p hp => (hgood p hp).1) fun p hp => (hgood p hp).2
        rw [hlength]
        exact Nat.not_lt.1 hlimit
  | none =>
      obtain ⟨⟨items, tail⟩, hloop, hresult⟩ := bind_eq_ok.1 h
      obtain ⟨hexcess, hgood⟩ := untilBreak_found hitem hbs hloop rfl (by simp) (by simp)
      dsimp only at hresult
      split at hresult
      · rename_i pairs hpairs
        cases hresult
        obtain ⟨hlength, hgood'⟩ := pairUp_found hpairs (by simp) hgood
        refine .map ?_ (fun p hp => (hgood' p hp).1) fun p hp => (hgood' p hp).2
        by_contra hmany
        have hnone := hexcess (by simp only [List.length_nil] at hlength; omega)
        rw [mapExcess?, if_pos] at hnone
        · cases hnone
        · simp only [List.length_nil] at hlength
          omega
      · cases hresult

end Containers

/-! ## Levels -/

theorem reader_length {afterTag : Bool} {size depth : Nat} {bs rest : Bytes} {it : Item}
    (h : (level size depth).reader afterTag bs = .ok (it, rest)) : rest.length ≤ bs.length := by
  have hlocal := level_local (n := size) depth
  cases afterTag with
  | false => exact hlocal.item.length_le h
  | true => exact hlocal.afterTag.length_le h

section Above

variable {size depth : Nat}
  (hbelow : ∀ d, depth = d + 1 →
    ∀ afterTag, Finds ((level size d).reader afterTag) (Sound afterTag d))
include hbelow

theorem untagged_sound {afterTag : Bool} {major : Major} {arg : Option Argument}
    {bs rest : Bytes} {it : Item} (hbs : bs.length < wordHalf) (harg : ∀ a ∈ arg, a.Bounded major)
    (h : untagged size (levelBelow size depth) major arg bs = .ok (it, rest)) :
    Sound afterTag depth it := by
  cases major with
  | bytes => exact stringItem_sound hbs h
  | text => exact stringItem_sound hbs h
  | array =>
      cases depth with
      | zero => cases h
      | succ d => exact arrayItem_sound (hbelow d rfl false) hbs h
  | map =>
      cases depth with
      | zero => cases h
      | succ d => exact mapItem_sound (hbelow d rfl false) hbs h
  | tag => cases h
  | unsigned =>
      cases arg with
      | none => cases h
      | some arg =>
          cases h
          exact .unsigned (harg arg rfl)
  | negative =>
      cases arg with
      | none => cases h
      | some arg =>
          cases h
          exact .negative (harg arg rfl)
  | primitive =>
      cases arg with
      | none => cases h
      | some arg =>
          cases h
          exact .primitive (harg arg rfl)

theorem afterTag_sound {bs rest : Bytes} {it : Item} (hbs : bs.length < wordHalf)
    (h : (level size depth).afterTag bs = .ok (it, rest)) : Sound true depth it := by
  rw [level_eq] at h
  obtain ⟨⟨⟨major, arg⟩, tail⟩, hhead, hrest⟩ := bind_eq_ok.1 h
  have htail : tail.length < wordHalf := Nat.lt_trans (head_advances hhead) hbs
  dsimp only at hrest
  split at hrest
  · cases hrest
  · rename_i arg' l hinner
    obtain ⟨⟨content, tail'⟩, hcontent, hresult⟩ := bind_eq_ok.1 hrest
    cases hresult
    cases depth with
    | zero => cases hinner
    | succ d =>
        cases hinner
        exact .innerTag (head_bounded hhead arg' rfl) (hbelow d rfl true htail hcontent).1
  · exact untagged_sound hbelow htail (head_bounded hhead) hrest

theorem item_sound {bs rest : Bytes} {it : Item} (hbs : bs.length < wordHalf)
    (h : (level size depth).item bs = .ok (it, rest)) : Sound false depth it := by
  rw [level_eq] at h
  obtain ⟨⟨⟨major, arg⟩, tail⟩, hhead, hrest⟩ := bind_eq_ok.1 h
  have htail : tail.length < wordHalf := Nat.lt_trans (head_advances hhead) hbs
  dsimp only at hrest
  split at hrest
  · rename_i arg'
    obtain ⟨⟨content, tail'⟩, hcontent, hresult⟩ := bind_eq_ok.1 hrest
    cases hresult
    -- the content is read by the other reader of the same level
    have hafterTag : (level size depth).afterTag tail = .ok (content, tail') := by
      rw [level_eq]
      exact hcontent
    exact .tag (head_bounded hhead arg' rfl) (afterTag_sound hbelow htail hafterTag)
  · exact untagged_sound hbelow htail (head_bounded hhead) hrest

theorem above_sound (afterTag : Bool) :
    Finds ((level size depth).reader afterTag) (Sound afterTag depth) := by
  intro bs it rest hbs h
  refine ⟨?_, Nat.lt_of_le_of_lt (reader_length h) hbs⟩
  cases afterTag with
  | false => exact item_sound hbelow hbs h
  | true => exact afterTag_sound hbelow hbs h

end Above

/-- **The readers of a level find sound items only.** -/
theorem level_sound (size depth : Nat) :
    ∀ afterTag, Finds ((level size depth).reader afterTag) (Sound afterTag depth) := by
  induction depth with
  | zero =>
      apply above_sound
      intro d hd
      cases hd
  | succ depth ih =>
      apply above_sound
      rintro d ⟨⟩
      exact ih

theorem read_sound {bs rest : Bytes} {it : Item} (hbs : bs.length < wordHalf)
    (h : Item.read bs = .ok (it, rest)) : Sound false maxLevels it := by
  unfold Item.read at h
  split at h
  · cases h
  · exact (level_sound bs.length maxLevels false hbs h).1

end RoundTrip.Cbor
