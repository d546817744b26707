import RoundTrip.Proofs.Cbor.Locality
import RoundTrip.Proofs.Reading.Words

/-!
# Canonical CBOR items

The writer uses the shortest form of every head and definite lengths only. `Canonical` relates the
items of this form to their bytes and to the levels of nesting that they need. The bytes are read as
the item in front of every rest, and more levels or a place in front of the tags do no harm.

Main statements: `Canonical.reads`, `Canonical.eq_of_append`, `Canonical.ofAfterTag`.
-/

set_option autoImplicit false

namespace RoundTrip.Cbor

open Step

/-! ## Heads -/

/-- The argument of a head in the shortest form. -/
def shortArgument (n : Nat) : Argument where
  width :=
    if n < 24 then .inline
    else if n < 0x100 then .one
    else if n < 0x10000 then .two
    else if n < 0x100000000 then .four
    else .eight
  value := n

theorem ofCode_code (major : Major) : Major.ofCode major.code = major := by
  cases major <;> rfl

theorem reads_argument {w : Width} {n : Nat} (h : n < Nat.pow 256 w.bytes) :
    Reads (argument w) (Bytes.bigEndian w.bytes n) ⟨w, n⟩ := by
  intro s
  have hsplit := Bytes.split_append (Bytes.bigEndian w.bytes n) s
  rw [Bytes.length_bigEndian] at hsplit
  have htake : take w.bytes (Bytes.bigEndian w.bytes n ++ s)
      = .ok (Bytes.bigEndian w.bytes n, s) := by
    simp only [take, hsplit]
  refine bind_eq_ok.2 ⟨_, htake, ?_⟩
  dsimp only
  rw [Bytes.toNat_bigEndian, Nat.mod_eq_of_lt h]
  rfl

/-- The first byte of a head is its major type and what it says about the argument. -/
theorem head_cons (major : Major) {info : Nat} (hinfo : info < 32) :
    (UInt8.ofNat (major.code * 32 + info)).toNat / 32 = major.code
      ∧ (UInt8.ofNat (major.code * 32 + info)).toNat % 32 = info := by
  have hcode : major.code < 8 := by cases major <;> decide
  rw [UInt8.toNat_ofNat', Nat.mod_eq_of_lt (by omega)]
  omega

/-- What a head says of an argument in the bytes behind it. -/
def Width.info : Width → Nat
  | inline => 0
  | one => 24
  | two => 25
  | four => 26
  | eight => 27

/-- A head with its argument in the bytes behind it. -/
theorem reads_head_field {major : Major} {w : Width} (hw : w ≠ .inline) {n : Nat}
    (hn : n < Nat.pow 256 w.bytes) (hsimple : w = .one → major = .primitive → 32 ≤ n) :
    Reads head (UInt8.ofNat (major.code * 32 + w.info) :: Bytes.bigEndian w.bytes n)
      (major, some ⟨w, n⟩) := by
  intro s
  have harg := reads_argument hn s
  have hinfo : w.info < 32 := by cases w <;> decide
  obtain ⟨hdiv, hmod⟩ := head_cons major hinfo
  have hform : ¬ (w = .one ∧ major = .primitive ∧ n < 32) := by
    rintro ⟨hone, hprimitive, hlt⟩
    exact absurd (hsimple hone hprimitive) (Nat.not_le.2 hlt)
  -- each width is one of the forms that a head can take
  have hbind : (argument w (Bytes.bigEndian w.bytes n ++ s) >>= fun p =>
      if w = .one ∧ major = .primitive ∧ p.1.value < 32 then .error (.simpleForm p.1.value)
      else .ok ((major, some p.1), p.2)) = .ok ((major, some ⟨w, n⟩), s) :=
    bind_eq_ok.2 ⟨_, harg, if_neg hform⟩
  rw [List.cons_append, head]
  dsimp only
  rw [hdiv, hmod, ofCode_code]
  cases w with
  | inline => exact absurd rfl hw
  | one => exact hbind
  | two => exact hbind
  | four => exact hbind
  | eight => exact hbind

theorem reads_shortHead {major : Major} {n : Nat} (hn : n < wordCount)
    (hsimple : major = .primitive → n < 24 ∨ 32 ≤ n) :
    Reads head (shortHead major n) (major, some (shortArgument n)) := by
  have hfield : ∀ w : Width, w ≠ .inline → n < Nat.pow 256 w.bytes → 24 ≤ n →
      Reads head (UInt8.ofNat (major.code * 32 + w.info) :: Bytes.bigEndian w.bytes n)
        (major, some ⟨w, n⟩) := by
    intro w hw hlt hle
    refine reads_head_field hw hlt ?_
    intro _ hprimitive
    have := hsimple hprimitive
    omega
  unfold shortHead shortArgument
  dsimp only
  split
  · rename_i hinline
    intro s
    have hinfo : n < 32 := by omega
    obtain ⟨hdiv, hmod⟩ := head_cons major hinfo
    simp only [List.cons_append, List.nil_append, head, hdiv, hmod, ofCode_code, if_pos hinline]
  rename_i hinline
  have hle : 24 ≤ n := by omega
  split
  · rename_i hlt
    exact hfield .one (by decide) hlt hle
  split
  · rename_i hlt
    exact hfield .two (by decide) hlt hle
  split
  · rename_i hlt
    exact hfield .four (by decide) hlt hle
  · exact hfield .eight (by decide) hn hle

theorem reads_plainHead (major : Major) (hmajor : major ≠ .primitive) {n : Nat}
    (hn : n < wordCount) : Reads head (shortHead major n) (major, some (shortArgument n)) :=
  reads_shortHead hn fun h => absurd h hmajor

/-! ## Items -/

/-- Items in the shortest form with their bytes, as the writer puts them out. They are nested no
deeper than the readers of a level with `depth` levels below it go; `afterTag` tells which of the
two readers. A tag counts as a level when it stands behind another tag. -/
inductive Canonical : (afterTag : Bool) → (depth : Nat) → Item → Bytes → Prop
  | unsigned {afterTag : Bool} {depth n : Nat} (h : n < wordCount) :
      Canonical afterTag depth (.unsigned (shortArgument n)) (shortHead .unsigned n)
  | negative {afterTag : Bool} {depth n : Nat} (h : n < wordCount) :
      Canonical afterTag depth (.negative (shortArgument n)) (shortHead .negative n)
  | string {afterTag : Bool} {depth : Nat} (kind : StringKind) {cs : Bytes}
      (h : cs.length < wordHalf) :
      Canonical afterTag depth (.string kind (shortArgument cs.length) cs) (shortString kind cs)
  | array {afterTag : Bool} {depth : Nat} {parts : List (Item × Bytes)}
      (hcount : parts.length ≤ maxCount) (h : ∀ p ∈ parts, Canonical false depth p.1 p.2) :
      Canonical afterTag (depth + 1)
        (.array (some (shortArgument parts.length)) (parts.map Prod.fst))
        (shortHead .array parts.length ++ (parts.map Prod.snd).flatten)
  | map {afterTag : Bool} {depth : Nat} {parts : List ((Item × Bytes) × Item × Bytes)}
      (hcount : parts.length ≤ maxCount) (hkeys : ∀ p ∈ parts, Canonical false depth p.1.1 p.1.2)
      (hvalues : ∀ p ∈ parts, Canonical false depth p.2.1 p.2.2) :
      Canonical afterTag (depth + 1)
        (.map (some (shortArgument parts.length)) (parts.map fun p => (p.1.1, p.2.1)))
        (shortHead .map parts.length ++ parts.flatMap fun p => p.1.2 ++ p.2.2)
  | tag {depth n : Nat} {content : Item} {w : Bytes} (hn : n < wordCount)
      (h : Canonical true depth content w) :
      Canonical false depth (.tag (shortArgument n) content) (shortHead .tag n ++ w)
  | innerTag {depth n : Nat} {content : Item} {w : Bytes} (hn : n < wordCount)
      (h : Canonical true depth content w) :
      Canonical true (depth + 1) (.tag (shortArgument n) content) (shortHead .tag n ++ w)
  | simple {afterTag : Bool} {depth n : Nat} (h : n < 24 ∨ 32 ≤ n ∧ n < 256) :
      Canonical afterTag depth (.primitive (shortArgument n)) (shortHead .primitive n)
  | float {afterTag : Bool} {depth : Nat} {w : Width} (hw : w = .two ∨ w = .four ∨ w = .eight)
      {n : Nat} (h : n < Nat.pow 256 w.bytes) :
      Canonical afterTag depth (.primitive ⟨w, n⟩)
        (UInt8.ofNat (Major.primitive.code * 32 + w.info) :: Bytes.bigEndian w.bytes n)

/-- One of the two readers of a level. -/
def Level.reader (l : Level) (afterTag : Bool) : Step SyntaxError Item :=
  if afterTag then l.afterTag else l.item

/-- The level below one with the given number of levels below it. -/
def levelBelow (size : Nat) : Nat → Option Level
  | 0 => none
  | n + 1 => some (level size n)

theorem level_eq (size n : Nat) : level size n = Level.above size (levelBelow size n) := by
  cases n <;> rfl

/-- An item that is no tag is read by both readers alike. -/
theorem reads_untagged {afterTag : Bool} {size n : Nat} {major : Major} {arg : Argument}
    {hd body : Bytes} {it : Item} (hhead : Reads head hd (major, some arg)) (hmajor : major ≠ .tag)
    (hbody : Reads (untagged size (levelBelow size n) major (some arg)) body it) :
    Reads ((level size n).reader afterTag) (hd ++ body) it := by
  rw [level_eq]
  intro s
  cases afterTag with
  | false =>
      refine Reads.bind hhead ?_ s
      intro s
      dsimp only
      split
      · exact absurd rfl hmajor
      · exact hbody s
  | true =>
      refine Reads.bind hhead ?_ s
      intro s
      dsimp only
      split
      · exact absurd rfl hmajor
      · exact absurd rfl hmajor
      · exact hbody s

theorem reads_contents {major : Major} {cs : Bytes} (h : cs.length < wordHalf) :
    Reads (contents major (shortArgument cs.length)) cs cs := by
  intro s
  have hbound : ¬ lengthBound ≤ (shortArgument cs.length).value := Nat.not_le.2 h
  rw [contents, if_neg hbound]
  simp only [take, shortArgument, Bytes.split_append]

theorem maxCount_lt : maxCount < lengthBound := by decide

theorem lt_wordCount_of_le_maxCount {n : Nat} (h : n ≤ maxCount) : n < wordCount :=
  Nat.lt_of_le_of_lt h (by decide)

/-- An item that is all head. -/
theorem reads_leaf {afterTag : Bool} {size n : Nat} {major : Major} {arg : Argument}
    {hd : Bytes} {it : Item} (hhead : Reads head hd (major, some arg)) (hmajor : major ≠ .tag)
    (hleaf : ∀ bs, untagged size (levelBelow size n) major (some arg) bs = .ok (it, bs)) :
    Reads ((level size n).reader afterTag) hd it := by
  have hread : Reads ((level size n).reader afterTag) (hd ++ []) it :=
    reads_untagged hhead hmajor hleaf
  rwa [List.append_nil] at hread

theorem reads_arrayItem (size : Nat) {item : Step SyntaxError Item} {parts : List (Item × Bytes)}
    (hcount : parts.length ≤ maxCount) (h : ∀ p ∈ parts, Reads item p.2 p.1) :
    Reads (arrayItem size item (some (shortArgument parts.length))) (parts.map Prod.snd).flatten
      (.array (some (shortArgument parts.length)) (parts.map Prod.fst)) := by
  have hbound : ¬ lengthBound ≤ (shortArgument parts.length).value :=
    Nat.not_le.2 (Nat.lt_of_le_of_lt hcount maxCount_lt)
  have hlimit : ¬ maxCount < (shortArgument parts.length).value := Nat.not_lt.2 hcount
  have hitems : Reads (times item (shortArgument parts.length).value)
      (parts.map Prod.snd).flatten (parts.map Prod.fst) := by
    have hparts : List.Forall₂ (Reads item) (parts.map Prod.snd) (parts.map Prod.fst) :=
      List.forall₂_map_left_iff.2 (List.forall₂_map_right_iff.2 (List.forall₂_same.2 h))
    have htimes := Reads.times hparts
    rwa [List.length_map] at htimes
  intro s
  simp only [arrayItem, if_neg hbound, if_neg hlimit]
  exact hitems.returning _ s

theorem reads_mapItem (size : Nat) {item : Step SyntaxError Item}
    {parts : List ((Item × Bytes) × Item × Bytes)} (hcount : parts.length ≤ maxCount)
    (hkeys : ∀ p ∈ parts, Reads item p.1.2 p.1.1) (hvalues : ∀ p ∈ parts, Reads item p.2.2 p.2.1) :
    Reads (mapItem size item (some (shortArgument parts.length)))
      (parts.flatMap fun p => p.1.2 ++ p.2.2)
      (.map (some (shortArgument parts.length)) (parts.map fun p => (p.1.1, p.2.1))) := by
  have hbound : ¬ lengthBound ≤ (shortArgument parts.length).value :=
    Nat.not_le.2 (Nat.lt_of_le_of_lt hcount maxCount_lt)
  have hlimit : ¬ maxCount < (shortArgument parts.length).value := Nat.not_lt.2 hcount
  have hpair : ∀ p ∈ parts, Reads (pairStep item) (p.1.2 ++ p.2.2) (p.1.1, p.2.1) := by
    intro p hp
    exact (hkeys p hp).bind ((hvalues p hp).returning _)
  have hpairs : Reads (times (pairStep item) (shortArgument parts.length).value)
      (parts.flatMap fun p => p.1.2 ++ p.2.2) (parts.map fun p => (p.1.1, p.2.1)) := by
    have hparts : List.Forall₂ (Reads (pairStep item)) (parts.map fun p => p.1.2 ++ p.2.2)
        (parts.map fun p => (p.1.1, p.2.1)) :=
      List.forall₂_map_left_iff.2 (List.forall₂_map_right_iff.2 (List.forall₂_same.2 hpair))
    have htimes := Reads.times hparts
    rwa [List.length_map, ← List.flatMap_def] at htimes
  intro s
  simp only [mapItem, if_neg hbound, if_neg hlimit]
  exact hpairs.returning _ s

/-- **A canonical item is read from its bytes.** -/
theorem Canonical.reads {afterTag : Bool} {depth : Nat} {it : Item} {w : Bytes}
    (h : Canonical afterTag depth it w) (size : Nat) :
    Reads ((level size depth).reader afterTag) w it := by
  induction h with
  | unsigned hn => exact reads_leaf (reads_plainHead _ (by decide) hn) (by decide) fun _ => rfl
  | negative hn => exact reads_leaf (reads_plainHead _ (by decide) hn) (by decide) fun _ => rfl
  | @string t d kind cs hcs =>
      have hn : cs.length < wordCount := Nat.lt_trans hcs (by decide)
      have hbody : Reads (stringItem size kind (some (shortArgument cs.length))) cs
          (.string kind (shortArgument cs.length) cs) :=
        (reads_contents hcs).returning _
      cases kind with
      | bytes => exact reads_untagged (reads_plainHead .bytes (by decide) hn) (by decide) hbody
      | text => exact reads_untagged (reads_plainHead .text (by decide) hn) (by decide) hbody
  | array hcount _ ih =>
      have hhead := reads_plainHead .array (by decide) (lt_wordCount_of_le_maxCount hcount)
      exact reads_untagged hhead (by decide) (reads_arrayItem size hcount ih)
  | map hcount _ _ ihkeys ihvalues =>
      have hhead := reads_plainHead .map (by decide) (lt_wordCount_of_le_maxCount hcount)
      exact reads_untagged hhead (by decide) (reads_mapItem size hcount ihkeys ihvalues)
  | tag hn _ ih =>
      rw [level_eq] at ih ⊢
      exact (reads_plainHead .tag (by decide) hn).bind (ih.returning _)
  | innerTag hn _ ih =>
      rw [level_eq]
      exact (reads_plainHead .tag (by decide) hn).bind (ih.returning _)
  | @simple t d n hn =>
      have hlt : n < 256 := by omega
      have hhead : Reads head (shortHead .primitive n) (.primitive, some (shortArgument n)) :=
        reads_shortHead (Nat.lt_trans hlt (by decide)) (by omega)
      exact reads_leaf hhead (by decide) fun _ => rfl
  | @float t d w hw n hn =>
      have hfield : w ≠ .inline ∧ w ≠ .one := by
        rcases hw with rfl | rfl | rfl <;> decide
      have hhead : Reads head
          (UInt8.ofNat (Major.primitive.code * 32 + w.info) :: Bytes.bigEndian w.bytes n)
          (.primitive, some ⟨w, n⟩) :=
        reads_head_field hfield.1 hn fun h => absurd h hfield.2
      exact reads_leaf hhead (by decide) fun _ => rfl

/-- No word goes on where another one has ended. -/
theorem Canonical.eq_of_append {afterTag : Bool} {depth : Nat} {it it' : Item} {w w' r r' : Bytes}
    (h : Canonical afterTag depth it w) (h' : Canonical afterTag depth it' w')
    (heq : w ++ r = w' ++ r') : w = w' := by
  have hread := h.reads 0 r
  rw [heq, h'.reads 0 r'] at hread
  obtain ⟨-, rfl⟩ := Prod.mk.inj (Except.ok.inj hread)
  exact List.append_cancel_right heq

/-- More levels do no harm. -/
theorem Canonical.succ {afterTag : Bool} {depth : Nat} {it : Item} {w : Bytes}
    (h : Canonical afterTag depth it w) : Canonical afterTag (depth + 1) it w := by
  induction h with
  | unsigned hn => exact .unsigned hn
  | negative hn => exact .negative hn
  | string kind hcs => exact .string kind hcs
  | array hcount _ ih => exact .array hcount ih
  | map hcount _ _ ihkeys ihvalues => exact .map hcount ihkeys ihvalues
  | tag hn _ ih => exact .tag hn ih
  | innerTag hn _ ih => exact .innerTag hn ih
  | simple hn => exact .simple hn
  | float hw hn => exact .float hw hn

/-- What may stand behind a tag may stand anywhere. -/
theorem Canonical.ofAfterTag {afterTag : Bool} {depth : Nat} {it : Item} {w : Bytes}
    (h : Canonical afterTag depth it w) : Canonical false depth it w := by
  cases h with
  | unsigned hn => exact .unsigned hn
  | negative hn => exact .negative hn
  | string kind hcs => exact .string kind hcs
  | array hcount h => exact .array hcount h
  | map hcount hkeys hvalues => exact .map hcount hkeys hvalues
  | tag hn h => exact .tag hn h
  | innerTag hn h => exact .tag hn h.succ
  | simple hn => exact .simple hn
  | float hw hn => exact .float hw hn

end RoundTrip.Cbor
