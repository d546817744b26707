import Mathlib.Data.List.Basic
import RoundTrip.Log.Layout
import RoundTrip.Proofs.Text.Quoted

/-!
# What the text of a field tells

A layout shows a field in parts, each with a name and a text. The part in a line determines the name
as it is seen and the text, and the text of a plain value determines the value as it is printed. In
the layout of pairs this holds although a key stands as it is: the value behind it has no `=`,
unless it is quoted, and then no quote in it stands behind an `=`. What is seen is everything but,
in the console layout, the bytes that belong to no character.

Main statements: `Layout.partText_inj` for parts and `Layout.members_inj` for plain values.
-/

set_option autoImplicit false

namespace RoundTrip.Log

open RoundTrip.Text
open RoundTrip.Utf8 (Glyph glyphs)

/-! ## Strings of the console layout -/

theorem spelling_consoleGlyph (g : Glyph) : Spelling (.char g.seen) (chars (consoleGlyph g)) := by
  cases g with
  | stray b =>
      have hcode : chars "\\ufffd"
          = .char '\\' :: .char 'u' :: (pad 4 (Nat.toDigits 16 0xfffd)).map .char := by decide
      rw [consoleGlyph, hcode]
      exact Spelling.number (m := 'u') (w := 4) (n := 0xfffd) (by decide) (by decide)
  | char c =>
      rw [consoleGlyph, Glyph.seen]
      split
      · rename_i hc
        rw [chars_ofList]
        rcases hc with rfl | rfl
        · exact .letter (by decide)
        · exact .letter (by decide)
      · rename_i hc
        split
        · rename_i hn
          subst hn
          exact Spelling.letter (l := 'n') (by decide)
        · split
          · rename_i hr
            subst hr
            exact Spelling.letter (l := 'r') (by decide)
          · split
            · rename_i ht
              subst ht
              exact Spelling.letter (l := 't') (by decide)
            · split
              · exact spelling_escape (m := 'u') (w := 4) (by decide) (by omega) (by simp)
              · rw [String.singleton_eq_ofList, chars_ofList]
                exact .plain (fun h => hc (.inl h)) fun h => hc (.inr h)

theorem chars_consoleString (bs : Bytes) :
    chars (consoleString bs)
      = .char '"' :: ((glyphs bs).flatMap (fun g => chars (consoleGlyph g)) ++ [.char '"']) := by
  rw [consoleString, chars_append, chars_foldl_append]
  rfl

theorem consoleString_append_inj {bs cs : Bytes} {r s : List Glyph}
    (h : chars (consoleString bs) ++ r = chars (consoleString cs) ++ s) :
    Utf8.text bs = Utf8.text cs ∧ r = s := by
  rw [chars_consoleString, chars_consoleString, List.cons_append, List.cons_append,
    List.append_assoc, List.append_assoc] at h
  obtain ⟨hrow, htail⟩ := flatMap_append_inj (fun g _ => spelling_consoleGlyph g)
    (fun g _ => spelling_consoleGlyph g) (List.cons.inj h).2
  have hseen : ∀ gs : List Glyph, gs.map (fun g => Glyph.char g.seen)
      = chars (String.ofList (gs.map Glyph.seen)) := by
    intro gs
    rw [chars_ofList, List.map_map]
    rfl
  rw [hseen, hseen] at hrow
  exact ⟨chars_inj hrow, htail⟩

theorem text_eq_of_consoleString_eq {bs cs : Bytes} (h : consoleString bs = consoleString cs) :
    Utf8.text bs = Utf8.text cs :=
  (consoleString_append_inj (r := []) (s := []) (by rw [h])).1

theorem consoleMember_inj {m n v w : Bytes} (h : consoleMember m v = consoleMember n w) :
    Utf8.text m = Utf8.text n ∧ v = w := by
  have hglyphs : ∀ name text, glyphs (consoleMember name text)
      = chars (consoleString name) ++ (chars ": " ++ glyphs text) := by
    intro name text
    rw [consoleMember, List.append_assoc, Bytes.glyphs_ofString_append,
      Bytes.glyphs_ofString_append]
    rfl
  have heq := congrArg glyphs h
  rw [hglyphs, hglyphs] at heq
  obtain ⟨hname, hrest⟩ := consoleString_append_inj heq
  exact ⟨hname, Utf8.glyphs_inj (List.append_cancel_left hrest)⟩

/-! ## Lists of strings -/

theorem intercalate_cons {α : Type} (sep x : List α) (xs : List (List α)) :
    sep.intercalate (x :: xs) = x ++ xs.flatMap fun y => sep ++ y := by
  induction xs generalizing x with
  | nil => simp
  | cons y ys ih => simp [List.intercalate_cons_cons, ih]

theorem chars_intercalate_cons (sep s : String) (ss : List String) :
    chars (sep.intercalate (s :: ss)) = chars s ++ ss.flatMap fun t => chars sep ++ chars t := by
  induction ss generalizing s with
  | nil => simp
  | cons t ts ih => simp [chars_append, ih]

/-- The strings of a list are read back one after the other. -/
theorem flatMap_consoleString_inj {bss css : List Bytes}
    (h : (bss.flatMap fun bs => chars ", " ++ chars (consoleString bs)) ++ [.char ']']
      = (css.flatMap fun bs => chars ", " ++ chars (consoleString bs)) ++ [.char ']']) :
    bss.map Utf8.text = css.map Utf8.text := by
  induction bss generalizing css with
  | nil =>
      cases css with
      | nil => rfl
      | cons cs css => simp [chars] at h
  | cons bs bss ih =>
      cases css with
      | nil => simp [chars] at h
      | cons cs css =>
          simp only [List.flatMap_cons, List.append_assoc] at h
          obtain ⟨htext, hrest⟩ := consoleString_append_inj (List.append_cancel_left h)
          rw [List.map_cons, List.map_cons, htext, ih hrest]

theorem chars_consolePlain_texts (bss : List Bytes) :
    chars (consolePlain (.texts bss))
      = .char '[' :: (chars (", ".intercalate (bss.map consoleString)) ++ [.char ']']) := by
  rw [consolePlain, chars_append, chars_append]
  rfl

theorem consolePlain_texts_inj {bss css : List Bytes}
    (h : consolePlain (.texts bss) = consolePlain (.texts css)) :
    bss.map Utf8.text = css.map Utf8.text := by
  replace h := congrArg chars h
  rw [chars_consolePlain_texts, chars_consolePlain_texts] at h
  replace h := (List.cons.inj h).2
  -- the first string has no separator before it, so it is split off before the others are read
  cases bss with
  | nil =>
      cases css with
      | nil => rfl
      | cons cs css =>
          rw [List.map_cons, chars_intercalate_cons, chars_consoleString] at h
          exact absurd (List.cons.inj h).1 (by decide)
  | cons bs bss =>
      cases css with
      | nil =>
          rw [List.map_cons, chars_intercalate_cons, chars_consoleString] at h
          exact absurd (List.cons.inj h).1 (by decide)
      | cons cs css =>
          rw [List.map_cons, List.map_cons, chars_intercalate_cons, chars_intercalate_cons,
            List.append_assoc, List.append_assoc, List.flatMap_map, List.flatMap_map] at h
          obtain ⟨htext, hrest⟩ := consoleString_append_inj h
          rw [List.map_cons, List.map_cons, htext, flatMap_consoleString_inj hrest]

theorem text_append_ascii (bs : Bytes) {b : UInt8} (hb : b < 0x80) (rest : Bytes) :
    Utf8.text (bs ++ b :: rest)
      = Utf8.text bs ++ String.singleton (Char.ofNat b.toNat) ++ Utf8.text rest := by
  rw [← String.toList_inj]
  simp [Utf8.text, Utf8.glyphs_append_ascii bs hb rest, Glyph.seen]

/-- A list as it is seen is told by its members as they are seen. -/
theorem text_shown_texts (bss : List Bytes) :
    Utf8.text (Plain.shown (.texts bss)) = "[" ++ " ".intercalate (bss.map Utf8.text) ++ "]" := by
  have hspace : Bytes.ofString " " = [0x20] := rfl
  have hclose : Bytes.ofString "]" = [0x5d] := rfl
  have hrow : ∀ bs bss, Utf8.text (bs ++ (bss.flatMap fun cs => Bytes.ofString " " ++ cs)
      ++ Bytes.ofString "]") = " ".intercalate ((bs :: bss).map Utf8.text) ++ "]" := by
    intro bs bss
    induction bss generalizing bs with
    | nil =>
        rw [List.flatMap_nil, List.append_nil, hclose, text_append_ascii bs (by decide)]
        exact String.append_empty
    | cons cs css ih =>
        have hfirst := text_append_ascii bs (b := 0x20) (by decide)
          (cs ++ (css.flatMap fun cs => Bytes.ofString " " ++ cs) ++ Bytes.ofString "]")
        rw [ih] at hfirst
        simpa [hspace, String.append_assoc] using hfirst
  have hopen := text_append_ascii [] (b := 0x5b) (by decide)
    ((Bytes.ofString " ").intercalate bss ++ Bytes.ofString "]")
  rw [Plain.shown, List.append_assoc]
  refine hopen.trans ?_
  cases bss with
  | nil => rfl
  | cons bs bss =>
      rw [intercalate_cons, hrow, String.append_assoc]
      rfl

/-! ## Plain values -/

/-- What the text of a value looks like. -/
inductive Look where
  | null | bool | integer | string | list
  deriving DecidableEq

/-- The characters that the text of a value can start with. -/
def Look.fronts : Look → List Char
  | null => ['n']
  | bool => ['t', 'f']
  | integer => ['-', '0', '1', '2', '3', '4', '5', '6', '7', '8', '9']
  | string => ['"']
  | list => ['[']

theorem Look.eq_of_mem_fronts {l l' : Look} {c : Char} (h : c ∈ l.fronts) (h' : c ∈ l'.fronts) :
    l = l' := by
  -- checked along the two lists: over all characters there would be too many to try
  have hdisjoint : l = l' ∨ (l.fronts.all fun c => !l'.fronts.contains c) = true := by
    cases l with
    | _ =>
        cases l' with
        | _ => decide
  rcases hdisjoint with heq | hall
  · exact heq
  · have hnot := List.all_eq_true.1 hall c h
    simp [h'] at hnot

/-- The look of a plain value. A failure looks like its message. -/
def Plain.look : Plain → Look
  | null => .null
  | bool _ => .bool
  | integer _ => .integer
  | text _ => .string
  | failure _ => .string
  | texts _ => .list

theorem exists_front_integer (n : Int) :
    ∃ c tail, (toString n).toList = c :: tail ∧ c ∈ Look.integer.fronts := by
  have hdigits : ∀ m : Nat, ∃ c tail, m.repr.toList = c :: tail ∧ c ∈ Look.integer.fronts := by
    intro m
    rw [Nat.toList_repr]
    induction m using Nat.strongRecOn with
    | ind m ih =>
        by_cases hm : m < 10
        · have hdigit : ∀ m < 10, m.digitChar ∈ Look.integer.fronts := by decide
          exact ⟨_, [], Nat.toDigits_of_lt_base hm, hdigit m hm⟩
        · obtain ⟨c, tail, hc, hfront⟩ := ih (m / 10) (by omega)
          rw [Nat.toDigits_of_base_le (by decide) (by omega), hc]
          exact ⟨c, _, List.cons_append, hfront⟩
  rw [Int.toString_eq_repr, Int.repr_eq_if]
  split
  · exact hdigits n.toNat
  · exact ⟨'-', _, String.toList_append, by decide⟩

/-- The first character of a plain value tells its look. -/
theorem exists_front (p : Plain) :
    ∃ c tail, chars (consolePlain p) = .char c :: tail ∧ c ∈ p.look.fronts := by
  cases p with
  | null => exact ⟨'n', _, rfl, by decide⟩
  | bool b =>
      cases b with
      | true => exact ⟨'t', _, rfl, by decide⟩
      | false => exact ⟨'f', _, rfl, by decide⟩
  | integer n =>
      obtain ⟨c, tail, hn, hc⟩ := exists_front_integer n
      exact ⟨c, tail.map .char, congrArg (List.map Glyph.char) hn, hc⟩
  | text bs => exact ⟨'"', _, chars_consoleString bs, List.mem_cons_self⟩
  | failure message => exact ⟨'"', _, chars_consoleString message, List.mem_cons_self⟩
  | texts bss => exact ⟨'[', _, chars_consolePlain_texts bss, List.mem_cons_self⟩

theorem look_eq_of_consolePlain_eq {p q : Plain} (h : consolePlain p = consolePlain q) :
    p.look = q.look := by
  obtain ⟨c, tail, hp, hc⟩ := exists_front p
  obtain ⟨d, tail', hq, hd⟩ := exists_front q
  rw [h, hq] at hp
  obtain rfl := Glyph.char.inj (List.cons.inj hp).1
  exact Look.eq_of_mem_fronts hc hd

/-- The text of a plain value in an object determines the value as it is seen. -/
theorem text_shown_eq_of_consolePlain_eq {p q : Plain} (h : consolePlain p = consolePlain q) :
    Utf8.text p.shown = Utf8.text q.shown := by
  have hlook := look_eq_of_consolePlain_eq h
  cases p with
  | null =>
      cases q with
      | null => rfl
      | _ => cases hlook
  | bool b =>
      cases q with
      | bool b' => exact congrArg (fun s => Utf8.text (Bytes.ofString s)) h
      | _ => cases hlook
  | integer n =>
      cases q with
      | integer n' => exact congrArg (fun s => Utf8.text (Bytes.ofString s)) h
      | _ => cases hlook
  | text bs =>
      cases q with
      | text cs => exact text_eq_of_consoleString_eq h
      | failure message => exact text_eq_of_consoleString_eq h
      | _ => cases hlook
  | failure message =>
      cases q with
      | text bs => exact text_eq_of_consoleString_eq h
      | failure message' => exact text_eq_of_consoleString_eq h
      | _ => cases hlook
  | texts bss =>
      cases q with
      | texts css => rw [text_shown_texts, text_shown_texts, consolePlain_texts_inj h]
      | _ => cases hlook

/-! ## Attributes -/

theorem glyphs_quoted (bs : Bytes) : glyphs (Bytes.ofString (quoted bs)) = chars (quoted bs) :=
  Bytes.glyphs_ofString _

/-- A text that stands as it is holds neither a quote nor an `=`. -/
theorem not_mem_of_bare {bs : Bytes} (h : ¬ (bs.isEmpty || (glyphs bs).any needsQuotes) = true) :
    glyphs bs ≠ [] ∧ .char '"' ∉ glyphs bs ∧ .char '=' ∉ glyphs bs := by
  simp only [Bool.or_eq_true, not_or, List.any_eq_true, not_exists, not_and] at h
  refine ⟨?_, ?_, ?_⟩
  · intro hnil
    have hbs : bs = [] := Utf8.glyphs_inj hnil
    exact h.1 (by rw [hbs]; rfl)
  · intro hquote
    exact h.2 _ hquote (by decide)
  · intro hequals
    exact h.2 _ hequals (by decide)

/-- A quoted text and one without quotes differ at the front. -/
theorem quoted_append_ne {bs : Bytes} {gs r s : List Glyph} (hne : gs ≠ [])
    (hquote : .char '"' ∉ gs) : chars (quoted bs) ++ r ≠ gs ++ s := by
  intro h
  cases gs with
  | nil => exact hne rfl
  | cons g gs =>
      rw [chars_quoted] at h
      obtain rfl := (List.cons.inj h).1
      exact hquote List.mem_cons_self

theorem append_cons_inj {α : Type} {c : α} {cs ds r u : List α} (hcs : c ∉ cs) (hds : c ∉ ds)
    (h : cs ++ c :: r = ds ++ c :: u) : cs = ds ∧ r = u := by
  induction cs generalizing ds with
  | nil =>
      cases ds with
      | nil => exact ⟨rfl, (List.cons.inj h).2⟩
      | cons d ds =>
          obtain rfl := (List.cons.inj h).1
          exact absurd List.mem_cons_self hds
  | cons b cs ih =>
      cases ds with
      | nil =>
          obtain rfl := (List.cons.inj h).1
          exact absurd List.mem_cons_self hcs
      | cons d ds =>
          obtain ⟨rfl, htail⟩ := List.cons.inj h
          obtain ⟨rfl, hrest⟩ := ih (List.not_mem_of_not_mem_cons hcs)
            (List.not_mem_of_not_mem_cons hds) htail
          exact ⟨rfl, hrest⟩

/-- A text of an attribute ends at the first `=` that is not quoted. -/
theorem attributeText_append_inj {bs cs : Bytes} {r s : List Glyph}
    (h : glyphs (attributeText bs) ++ .char '=' :: r
      = glyphs (attributeText cs) ++ .char '=' :: s) : bs = cs ∧ r = s := by
  unfold attributeText at h
  split at h
  · rw [glyphs_quoted] at h
    split at h
    · rw [glyphs_quoted] at h
      obtain ⟨rfl, hrest⟩ := quoted_append_inj h
      exact ⟨rfl, (List.cons.inj hrest).2⟩
    · rename_i hcs
      obtain ⟨hne, hquote, -⟩ := not_mem_of_bare hcs
      exact absurd h (quoted_append_ne hne hquote)
  · rename_i hbs
    obtain ⟨hne, hquote, hequals⟩ := not_mem_of_bare hbs
    split at h
    · rw [glyphs_quoted] at h
      exact absurd h.symm (quoted_append_ne hne hquote)
    · rename_i hcs
      obtain ⟨-, -, hequals'⟩ := not_mem_of_bare hcs
      obtain ⟨hglyphs, hrest⟩ := append_cons_inj hequals hequals' h
      exact ⟨Utf8.glyphs_inj hglyphs, hrest⟩

theorem attributeText_inj {bs cs : Bytes} (h : attributeText bs = attributeText cs) : bs = cs :=
  -- nothing stands behind the texts, so an `=` is put behind both
  (attributeText_append_inj (r := []) (s := []) (by rw [h])).1

/-- What is behind the key of an attribute or a pair starts with an `=`. -/
theorem glyphs_append_equals (bs cs : Bytes) :
    glyphs (bs ++ Bytes.ofString "=" ++ cs) = glyphs bs ++ .char '=' :: glyphs cs := by
  rw [List.append_assoc]
  exact Utf8.glyphs_append_ascii bs (b := 0x3d) (by decide) cs

theorem attributePair_inj {k l v w : Bytes} (h : attributePair k v = attributePair l w) :
    k = l ∧ v = w := by
  have hglyphs := congrArg glyphs h
  rw [attributePair, attributePair, glyphs_append_equals, glyphs_append_equals] at hglyphs
  obtain ⟨hkey, htext⟩ := attributeText_append_inj hglyphs
  exact ⟨hkey, Utf8.glyphs_inj htext⟩

/-! ## Pairs -/

theorem not_mem_of_all_isBare {bs : Bytes} (h : (glyphs bs).all isBare = true) :
    .char '"' ∉ glyphs bs ∧ .char '=' ∉ glyphs bs := by
  rw [List.all_eq_true] at h
  refine ⟨?_, ?_⟩
  · intro hquote
    exact absurd (h _ hquote) (by decide)
  · intro hequals
    exact absurd (h _ hequals) (by decide)

theorem pairValue_inj {v w : Bytes} (h : pairValue v = pairValue w) : v = w := by
  -- a value that stands as it is has no quote at its front
  have hfront : ∀ {bs cs : Bytes}, (glyphs bs).all isBare = true →
      bs ≠ Bytes.ofString (quoted cs) := by
    rintro bs cs hbs rfl
    refine (not_mem_of_all_isBare hbs).1 ?_
    rw [glyphs_quoted, chars_quoted]
    exact List.mem_cons_self
  unfold pairValue at h
  split at h
  · rename_i hv
    split at h
    · exact h
    · exact absurd h (hfront hv)
  · split at h
    · rename_i hw
      exact absurd h.symm (hfront hw)
    · refine (quoted_append_inj (r := []) (s := []) ?_).1
      rw [← glyphs_quoted, h, glyphs_quoted]

/-- A value does not end in an `=` with a value behind it. -/
theorem pairValue_ne_append (v w : Bytes) (front : List Glyph) :
    glyphs (pairValue v) ≠ front ++ .char '=' :: glyphs (pairValue w) := by
  intro h
  rw [pairValue] at h
  split at h
  · rename_i hv
    refine (not_mem_of_all_isBare hv).2 ?_
    rw [h]
    simp
  · rw [glyphs_quoted, chars_quoted] at h
    cases front with
    | nil => exact absurd (List.cons.inj h).1 (by decide)
    | cons g front =>
        rw [List.cons_append] at h
        replace h := (List.cons.inj h).2
        rw [pairValue] at h
        split at h
        · -- the quote at the end would be the `=` or belong to a value without quotes
          rename_i hw
          rcases List.eq_nil_or_concat (glyphs w) with hnil | ⟨gs, k, hgs⟩
          · rw [hnil] at h
            exact absurd (List.cons.inj (List.append_inj' h rfl).2).1 (by decide)
          · rw [hgs, List.concat_eq_append, ← List.cons_append, ← List.append_assoc] at h
            obtain rfl := (List.cons.inj (List.append_inj' h rfl).2).1
            refine (not_mem_of_all_isBare hw).1 ?_
            rw [hgs]
            simp
        · -- a quote would stand behind the `=` inside quotes
          rw [glyphs_quoted, chars_quoted, ← List.cons_append, ← List.cons_append,
            ← List.append_assoc] at h
          have hslash := slash_of_quote spelling_of_mem (List.append_inj' h rfl).1
          exact absurd hslash (by decide)

theorem pair_inj {k l v w : Bytes} (h : pair k v = pair l w) : k = l ∧ v = w := by
  have hglyphs := congrArg glyphs h
  rw [pair, pair, glyphs_append_equals, glyphs_append_equals] at hglyphs
  -- one key is the other one with more behind it, which would be part of a value
  rcases List.append_eq_append_iff.1 hglyphs with ⟨x, hkey, hrest⟩ | ⟨x, hkey, hrest⟩
  · cases x with
    | nil =>
        refine ⟨Utf8.glyphs_inj (by simpa using hkey.symm), pairValue_inj ?_⟩
        exact Utf8.glyphs_inj (List.cons.inj hrest).2
    | cons g x => exact absurd (List.cons.inj hrest).2 (pairValue_ne_append v w x)
  · cases x with
    | nil =>
        refine ⟨Utf8.glyphs_inj (by simpa using hkey), pairValue_inj ?_⟩
        exact Utf8.glyphs_inj (List.cons.inj hrest).2.symm
    | cons g x => exact absurd (List.cons.inj hrest).2 (pairValue_ne_append w v x)

/-! ## Layouts -/

/-- How a layout shows a value: what stands behind the key in the name of each part, and the text of
the part. -/
def Layout.members : Layout → Value → List (Bytes × Bytes)
  | console, v => consoleMembers v
  | pairs, v => [([], pairValue v.shown)]
  | attributes, v => [([], attributeValue v)]

/-- The parts that show a field, by their names and texts. -/
def Layout.parts (layout : Layout) (f : Property) : List (Bytes × Bytes) :=
  (layout.members f.2).map fun m => (f.1 ++ m.1, m.2)

/-- A part in a line. -/
def Layout.partText : Layout → Bytes × Bytes → Bytes
  | console, p => consoleMember p.1 p.2
  | pairs, p => p.1 ++ Bytes.ofString "=" ++ p.2
  | attributes, p => attributePair p.1 p.2

/-- What a reader of a line sees of a byte string. -/
def Layout.seen : Layout → Bytes → Bytes
  | console, bs => Bytes.ofString (Utf8.text bs)
  | pairs, bs => bs
  | attributes, bs => bs

/-- **A part in a line determines its name, as it is seen, and its text.** -/
theorem Layout.partText_inj (layout : Layout) {f g : Property} {p q : Bytes × Bytes}
    (hp : p ∈ layout.parts f) (hq : q ∈ layout.parts g)
    (h : layout.partText p = layout.partText q) :
    layout.seen p.1 = layout.seen q.1 ∧ p.2 = q.2 := by
  cases layout with
  | console =>
      obtain ⟨hname, htext⟩ := consoleMember_inj h
      exact ⟨congrArg Bytes.ofString hname, htext⟩
  | pairs =>
      obtain rfl := List.mem_singleton.1 hp
      obtain rfl := List.mem_singleton.1 hq
      obtain ⟨hname, hvalue⟩ := pair_inj h
      exact ⟨hname, congrArg pairValue hvalue⟩
  | attributes => exact attributePair_inj h

theorem members_ne_nil (layout : Layout) (v : Value) : layout.members v ≠ [] := by
  cases layout with
  | console =>
      cases v with
      | plain p => exact List.cons_ne_nil _ _
      | other printed => exact printed.console_ne_nil
  | pairs => exact List.cons_ne_nil _ _
  | attributes => exact List.cons_ne_nil _ _

/-- **Every field has a part**, and the names of its parts start with its key. -/
theorem Layout.parts_named (layout : Layout) (f : Property) :
    layout.parts f ≠ [] ∧ ∀ p ∈ layout.parts f, f.1 <+: p.1 := by
  refine ⟨?_, ?_⟩
  · rw [parts, ne_eq, List.map_eq_nil_iff]
    exact members_ne_nil layout f.2
  · intro p hp
    obtain ⟨m, -, rfl⟩ := List.mem_map.1 hp
    exact List.prefix_append f.1 m.1

/-- A field has one part, under its key, unless it has a value of another kind in the console
layout. -/
theorem Layout.exists_part (layout : Layout) {f : Property}
    (h : layout = .console → ∃ p, f.2 = .plain p) : ∃ text, layout.parts f = [(f.1, text)] := by
  have hmembers : ∃ text, layout.members f.2 = [([], text)] := by
    cases layout with
    | console =>
        obtain ⟨p, hp⟩ := h rfl
        rw [hp]
        exact ⟨_, rfl⟩
    | pairs => exact ⟨_, rfl⟩
    | attributes => exact ⟨_, rfl⟩
  obtain ⟨text, htext⟩ := hmembers
  exact ⟨text, by rw [parts, htext, List.map_singleton, List.append_nil]⟩

/-- **The text of a plain value determines the value as it is printed and seen.** -/
theorem Layout.members_inj (layout : Layout) {p q : Plain}
    (h : layout.members (.plain p) = layout.members (.plain q)) :
    layout.seen p.shown = layout.seen q.shown := by
  cases layout with
  | console =>
      have htext := Bytes.ofString_inj (congrArg Prod.snd (List.singleton_inj.1 h))
      exact congrArg Bytes.ofString (text_shown_eq_of_consolePlain_eq htext)
  | pairs => exact pairValue_inj (congrArg Prod.snd (List.singleton_inj.1 h))
  | attributes => exact attributeText_inj (congrArg Prod.snd (List.singleton_inj.1 h))

end RoundTrip.Log
