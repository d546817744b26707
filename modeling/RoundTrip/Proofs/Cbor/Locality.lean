import RoundTrip.Cbor.Writer
import RoundTrip.Proofs.Reading.Locality

/-!
# The reader of CBOR is local

The end of a data item is found from its heads, its length fields and the codes that end indefinite
lengths. No reader of a part of an item looks at the bytes behind that part, and a loop over an
indefinite length needs no more rounds than the bytes that it uses.

Main statement: `read_local`. The nesting of items is an induction over the levels (`level_local`).
-/

set_option autoImplicit false

namespace RoundTrip.Cbor

open Step

variable {n : Nat}

/-! ## Heads -/

theorem take_local (length : Nat) : Local (fun _ => take length) n := by
  apply local_of_split length
  · intro bs r hsplit
    simp only [take, hsplit]
  · intro bs hsplit
    simp only [take, hsplit]
    exact ⟨_, rfl⟩

theorem argument_local (w : Width) : Local (fun _ => argument w) n :=
  (take_local w.bytes).returning fun field => (⟨w, Bytes.toNat field⟩ : Argument)

/-- The argument of a head of the given major type. -/
theorem headArgument_local (major : Major) (w : Width) :
    Local (fun _ bs => (do
      let (arg, rest) ← argument w bs
      if w = .one ∧ major = .primitive ∧ arg.value < 32 then
        throw (.simpleForm arg.value)
      return ((major, some arg), rest) :
        Except SyntaxError ((Major × Option Argument) × Bytes))) n := by
  refine (argument_local w).bind fun arg => local_ite ?_ ?_
  · exact fun _ => local_error _
  · exact fun _ => local_pure _

/-- What follows the first byte of a head. -/
theorem headRest_local (b : UInt8) : Local (fun _ bs => head (b :: bs)) n := by
  refine local_ite (fun _ => local_pure _) fun _ => ?_
  refine local_ite (fun _ => headArgument_local _ .one) fun _ => ?_
  refine local_ite (fun _ => headArgument_local _ .two) fun _ => ?_
  refine local_ite (fun _ => headArgument_local _ .four) fun _ => ?_
  refine local_ite (fun _ => headArgument_local _ .eight) fun _ => ?_
  refine local_ite (fun _ => local_error _) fun _ => ?_
  cases Major.ofCode (b.toNat / 32) with
  | unsigned => exact local_error _
  | negative => exact local_error _
  | tag => exact local_error _
  | primitive => exact local_error _
  | _ => exact local_pure _

theorem head_nil (a : Major × Option Argument) (rest : Bytes) : head [] ≠ .ok (a, rest) := by
  intro h
  cases h

theorem head_local : Local (fun _ => head) n := local_of_cons head_nil headRest_local

theorem head_advances : Advances head := advances_of_cons (n := 0) head_nil headRest_local

/-! ## Strings -/

theorem contents_local (major : Major) (arg : Argument) : Local (fun _ => contents major arg) n :=
  local_ite (fun _ => local_error _) fun _ => take_local arg.value

/-- A round uses a chunk with its head, or the code that ends the string. -/
theorem chunksLoop_round (kind : StringKind) {k : Nat} {done chunks : List (Argument × Bytes)}
    {bs rest : Bytes} (h : chunksLoop kind (k + 1) done bs = .ok (chunks, rest)) :
    Round (fun _ => chunksLoop kind) n k done bs chunks rest := by
  cases bs with
  | nil => cases h
  | cons b bs =>
      rw [chunksLoop] at h
      split at h
      · rename_i hbreak
        cases h
        refine .last [b] (List.cons_ne_nil b []) rfl ?_
        intro m _ j s
        simp [chunksLoop, hbreak]
      · rename_i hbreak
        split at h
        · cases h
        · rename_i htype
          split at h
          · cases h
          · rename_i hlength
            split at h
            · cases h
            · cases h
            · rename_i major arg tail hhead
              split at h
              · cases h
              · rename_i chunk tail' hcontents
                obtain ⟨front, rfl, hfront⟩ := headRest_local (n := n) b hhead
                obtain ⟨back, rfl, hback⟩ := contents_local (n := n) major arg hcontents
                refine .next (b :: (front ++ back)) ((arg, chunk) :: done) tail'
                  (List.cons_ne_nil _ _) (by simp) h ?_
                intro m hm j s
                rw [List.length_cons, List.length_append] at hm
                have hhead' := hfront m (by omega) (back ++ s)
                have hcontents' := hback m (by omega) s
                simp only [List.cons_append, List.append_assoc, chunksLoop, hbreak, htype, hlength,
                  if_false, hhead', hcontents']

theorem stringItem_local (kind : StringKind) (arg : Option Argument) :
    Local (fun m => stringItem m kind arg) n := by
  cases arg with
  | some arg => exact (contents_local kind.major arg).returning (Item.string kind arg)
  | none =>
      have hloop : Local (fun m => chunksLoop kind m []) n :=
        local_of_rounds (fun _ => chunksLoop kind) (fun _ _ _ _ h => by cases h)
          (fun _ _ _ _ _ => chunksLoop_round kind) []
      exact hloop.returning (Item.chunked kind)

/-! ## Containers -/

section Containers

variable {item : Nat → Step SyntaxError Item}

/-- A round uses an item, or the code that ends the container. -/
theorem untilBreak_round (hitem : Local item n) (hadvances : Advances (item n))
    (excess? : Nat → Option SyntaxError) {k : Nat} {st : Nat × List Item} {bs rest : Bytes}
    {items : List Item}
    (h : untilBreak (item n) excess? (k + 1) st.1 st.2 bs = .ok (items, rest)) :
    Round (fun m j (st : Nat × List Item) => untilBreak (item m) excess? j st.1 st.2) n k st bs
      items rest := by
  rcases st with ⟨count, done⟩
  cases bs with
  | nil => cases h
  | cons b bs =>
      rw [untilBreak] at h
      split at h
      · rename_i hbreak
        cases h
        refine .last [b] (List.cons_ne_nil b []) rfl ?_
        intro m _ j s
        simp [untilBreak, hbreak]
      · rename_i hbreak
        split at h
        · cases h
        · rename_i it tail hread
          split at h
          · cases h
          · rename_i hexcess
            have hlt := hadvances hread
            obtain ⟨used, hused, hagain⟩ := hitem hread
            cases used with
            | nil =>
                rw [List.nil_append] at hused
                rw [hused] at hlt
                omega
            | cons b' used =>
                cases hused
                refine .next (b :: used) (count + 1, it :: done) tail (List.cons_ne_nil _ _) rfl h
                  ?_
                intro m hm j s
                have hread' := hagain m hm s
                rw [List.cons_append] at hread' ⊢
                simp only [untilBreak, hbreak, if_false, hread', hexcess]

theorem untilBreak_local (hitem : Local item n) (hadvances : Advances (item n))
    (excess? : Nat → Option SyntaxError) :
    Local (fun m => untilBreak (item m) excess? m 0 []) n :=
  local_of_rounds (fun m j (st : Nat × List Item) => untilBreak (item m) excess? j st.1 st.2)
    (fun _ _ _ _ h => by cases h)
    (fun _ _ _ _ _ => untilBreak_round hitem hadvances excess?) (0, [])

theorem arrayItem_local (hitem : Local item n) (hadvances : Advances (item n))
    (arg : Option Argument) : Local (fun m => arrayItem m (item m) arg) n := by
  cases arg with
  | some arg =>
      refine local_ite (fun _ => local_error _) fun _ => ?_
      refine local_ite (fun _ => local_error _) fun _ => ?_
      exact (hitem.times arg.value).returning (Item.array (some arg))
  | none => exact (untilBreak_local hitem hadvances arrayExcess?).returning (Item.array none)

theorem pairStep_local (hitem : Local item n) : Local (fun m => pairStep (item m)) n :=
  hitem.bind fun key => hitem.returning fun value => (key, value)

theorem mapItem_local (hitem : Local item n) (hadvances : Advances (item n))
    (arg : Option Argument) : Local (fun m => mapItem m (item m) arg) n := by
  cases arg with
  | some arg =>
      refine local_ite (fun _ => local_error _) fun _ => ?_
      refine local_ite (fun _ => local_error _) fun _ => ?_
      exact ((pairStep_local hitem).times arg.value).returning (Item.map (some arg))
  | none =>
      refine (untilBreak_local hitem hadvances mapExcess?).bind fun items => ?_
      dsimp only
      cases pairUp [] items with
      | some pairs => exact local_pure _
      | none => exact local_error _

end Containers

/-! ## Levels -/

/-- The readers of a level, with every bound, are local at `n`. -/
structure LevelLocal (level : Nat → Level) (n : Nat) : Prop where
  item : Local (fun m => (level m).item) n
  afterTag : Local (fun m => (level m).afterTag) n
  advances : Advances (level n).item

variable {inner : Option (Nat → Level)}

theorem untagged_local (hinner : ∀ level ∈ inner, LevelLocal level n) (major : Major)
    (arg : Option Argument) :
    Local (fun m => untagged m (inner.map (· m)) major arg) n := by
  cases major with
  | bytes => exact stringItem_local .bytes arg
  | text => exact stringItem_local .text arg
  | array =>
      cases inner with
      | none => exact local_error _
      | some level =>
          have h := hinner level rfl
          exact arrayItem_local h.item h.advances arg
  | map =>
      cases inner with
      | none => exact local_error _
      | some level =>
          have h := hinner level rfl
          exact mapItem_local h.item h.advances arg
  | tag => exact local_error _
  | _ =>
      cases arg with
      | none => exact local_error _
      | some arg => exact local_pure _

theorem afterTag_local (hinner : ∀ level ∈ inner, LevelLocal level n) :
    Local (fun m => (Level.above m (inner.map (· m))).afterTag) n := by
  refine head_local.bind fun h => ?_
  rcases h with ⟨major, arg⟩
  have huntagged := untagged_local hinner major arg
  cases major with
  | tag =>
      cases arg with
      | none => exact huntagged
      | some arg =>
          cases inner with
          | none => exact local_error _
          | some level => exact (hinner level rfl).afterTag.returning (Item.tag arg)
  | _ => exact huntagged

theorem above_local (hinner : ∀ level ∈ inner, LevelLocal level n) :
    LevelLocal (fun m => Level.above m (inner.map (· m))) n := by
  have hafterTag := afterTag_local hinner
  have hitem : Local (fun m => (Level.above m (inner.map (· m))).item) n
      ∧ Advances (Level.above n (inner.map (· n))).item := by
    refine head_local.bind_advances head_advances fun h => ?_
    rcases h with ⟨major, arg⟩
    have huntagged := untagged_local hinner major arg
    cases major with
    | tag =>
        cases arg with
        | none => exact huntagged
        | some arg => exact hafterTag.returning (Item.tag arg)
    | _ => exact huntagged
  exact ⟨hitem.1, hafterTag, hitem.2⟩

/-- An item at each level of nesting is local. -/
theorem level_local (depth : Nat) : LevelLocal (fun m => level m depth) n := by
  induction depth with
  | zero =>
      have hinner : ∀ l ∈ (none : Option (Nat → Level)), LevelLocal l n := by simp
      exact above_local hinner
  | succ depth ih =>
      have hinner : ∀ l ∈ some (fun m => level m depth), LevelLocal l n := by
        rintro l ⟨⟩
        exact ih
      exact above_local hinner

/-! ## Main statement -/

theorem itemRead_local {bs rest : Bytes} {item : Item} (h : Item.read bs = .ok (item, rest)) :
    ∃ used, bs = used ++ rest ∧ ∀ s, Item.read (used ++ s) = .ok (item, s) := by
  have hlevel := level_local (n := bs.length) maxLevels
  rw [Item.read] at h
  split at h
  · cases h
  · obtain ⟨used, hbs, hagain⟩ := hlevel.item h
    have hused : used ≠ [] := by
      rintro rfl
      have hlt := hlevel.advances h
      rw [hbs, List.nil_append] at hlt
      omega
    refine ⟨used, hbs, ?_⟩
    intro s
    rw [Item.read, if_neg (by simp [hused])]
    exact hagain _ (by simp) s

/-- **What is read off the front of an input is read in front of every other rest.** -/
theorem read_local {bs rest : Bytes} {v : Value} (h : read bs = .ok (v, rest)) :
    ∃ used, bs = used ++ rest ∧ ∀ s, read (used ++ s) = .ok (v, s) := by
  obtain ⟨⟨item, tail⟩, hitem, hrest⟩ := bind_eq_ok.1 h
  obtain ⟨value, hvalue, hresult⟩ := bind_eq_ok.1 hrest
  cases hresult
  obtain ⟨used, hbs, hagain⟩ := itemRead_local (mapError_eq_ok.1 hitem)
  refine ⟨used, hbs, ?_⟩
  intro s
  simp only [read, hagain s]
  exact bind_eq_ok.2 ⟨(item, s), rfl, bind_eq_ok.2 ⟨v, hvalue, rfl⟩⟩

/-- No error of the reader speaks of trailing bytes. -/
theorem Error.cause?_toFailure_ne (e : Error) : e.toFailure.cause? ≠ some .trailingBytes := by
  cases e with
  | syntactic e => cases e <;> simp [toFailure, SyntaxError.toFailure, Failure.cause?]
  | _ => simp [toFailure, Failure.cause?]

end RoundTrip.Cbor
