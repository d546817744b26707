import Mathlib.Data.Nat.Digits.Defs
import RoundTrip.Config

/-!
# Loading a configuration

A limit is given by a plain numeral in white space and by nothing else. The words of a loaded
configuration are among the known ones, and every layout has a threshold for every level that can be
loaded, although each of them reads levels in its own way. So a configuration that is written out
and loaded again is the same one.

Main statement: `parse_normalizes`.
-/

set_option autoImplicit false

namespace RoundTrip.Config

open RoundTrip.Text

/-! ## White space -/

/-- Nothing but white space. -/
abbrev Blank (cs : List Char) : Prop := ∀ c ∈ cs, isBlank c = true

/-- The first character, if there is one, is no white space. -/
abbrev Solid (cs : List Char) : Prop := ∀ c ∈ cs.head?, isBlank c = false

theorem withoutBlanks_append {front cs : List Char} (hfront : Blank front) (hcs : Solid cs) :
    withoutBlanks (front ++ cs) = cs := by
  rw [withoutBlanks, List.dropWhile_append_of_pos hfront]
  cases cs with
  | nil => rfl
  | cons c cs => rw [List.dropWhile_cons_of_neg (by simp [hcs c rfl])]

theorem exists_withoutBlanks (cs : List Char) :
    ∃ front, Blank front ∧ cs = front ++ withoutBlanks cs :=
  ⟨cs.takeWhile isBlank, List.all_eq_true.1 List.all_takeWhile,
    List.takeWhile_append_dropWhile.symm⟩

/-- Trimming takes away white space only. -/
theorem exists_trimmed (s : String) :
    ∃ front back, Blank front ∧ Blank back ∧ s.toList = front ++ (trimmed s).toList ++ back := by
  obtain ⟨front, hfront, hs⟩ := exists_withoutBlanks s.toList
  obtain ⟨back, hback, hrest⟩ := exists_withoutBlanks (withoutBlanks s.toList).reverse
  refine ⟨front, back.reverse, hfront, fun c hc => hback c (List.mem_reverse.1 hc), ?_⟩
  have hrest := congrArg List.reverse hrest
  rw [List.reverse_reverse, List.reverse_append] at hrest
  rw [trimmed, String.toList_ofList, List.append_assoc, ← hrest]
  exact hs

/-- What is left ends where white space starts, on both sides. -/
theorem toList_trimmed {s : String} {front core back : List Char} (hfront : Blank front)
    (hback : Blank back) (hcore : Solid core) (hend : Solid core.reverse) (hne : core ≠ [])
    (hs : s.toList = front ++ core ++ back) : (trimmed s).toList = core := by
  have hsolid : Solid (core ++ back) := by
    cases core with
    | nil => exact absurd rfl hne
    | cons c cs => exact hcore
  rw [trimmed, String.toList_ofList, hs, List.append_assoc, withoutBlanks_append hfront hsolid,
    List.reverse_append,
    withoutBlanks_append (fun c hc => hback c (List.mem_reverse.1 hc)) hend, List.reverse_reverse]

/-! ## Numerals -/

/-- The character is an ASCII digit. -/
abbrev IsDigit (c : Char) : Prop := '0' ≤ c ∧ c ≤ '9'

/-- One ASCII digit or more, which are the decimal digits of `n`, the most significant one first and
zeros at the front allowed. -/
structure Spells (digits : List Char) (n : Nat) : Prop where
  ne_nil : digits ≠ []
  isDigit : ∀ c ∈ digits, IsDigit c
  value_eq : Nat.ofDigits 10 (digits.map fun c => c.toNat - '0'.toNat).reverse = n

theorem IsDigit.toNat_bounds {c : Char} (h : IsDigit c) : 48 ≤ c.toNat ∧ c.toNat ≤ 57 := by
  obtain ⟨hlow, hhigh⟩ := h
  exact ⟨hlow, hhigh⟩

theorem IsDigit.isBlank {c : Char} (h : IsDigit c) : isBlank c = false := by
  have hbounds := h.toNat_bounds
  simp only [Text.isBlank, Bool.or_eq_false_iff, beq_eq_false_iff_ne, decide_eq_false_iff_not]
  omega

theorem digitsValue?_eq_some_iff {value n : Nat} {cs : List Char} :
    digitsValue? value cs = some n ↔ (∀ c ∈ cs, IsDigit c) ∧
      value * 10 ^ cs.length
        + Nat.ofDigits 10 (cs.map fun c => c.toNat - '0'.toNat).reverse = n := by
  -- the value so far is worth as much as its digits would be in front of the others
  induction cs generalizing value with
  | nil => simp [digitsValue?]
  | cons c cs ih =>
      rw [digitsValue?, digitValue?, List.forall_mem_cons]
      by_cases hc : IsDigit c
      · have hsum : (10 * value + (c.toNat - '0'.toNat)) * 10 ^ cs.length
              + Nat.ofDigits 10 (cs.map fun c => c.toNat - '0'.toNat).reverse
            = value * 10 ^ (c :: cs).length
              + Nat.ofDigits 10 ((c :: cs).map fun c => c.toNat - '0'.toNat).reverse := by
          rw [List.map_cons, Nat.ofDigits_reverse_cons, List.length_map, List.length_cons]
          ring
        rw [if_pos hc, and_iff_right hc, ← hsum]
        exact ih
      · rw [if_neg hc]
        simp [hc]

theorem natural?_eq_some_iff {cs : List Char} {n : Nat} : natural? cs = some n ↔ Spells cs n := by
  cases cs with
  | nil => exact ⟨nofun, fun h => absurd rfl h.ne_nil⟩
  | cons c cs =>
      rw [natural?, digitsValue?_eq_some_iff, Nat.zero_mul, Nat.zero_add]
      · exact ⟨fun h => ⟨List.cons_ne_nil _ _, h.1, h.2⟩, fun h => ⟨h.isDigit, h.value_eq⟩⟩
      · exact List.cons_ne_nil _ _

/-- A sign that a limit may have. -/
abbrev IsPlus (sign : List Char) : Prop := sign = [] ∨ sign = ['+']

theorem Spells.signed {digits : List Char} {n : Nat} (h : Spells digits n) {sign : List Char}
    (hsign : IsPlus sign) : signed (sign ++ digits) = (false, digits) := by
  rcases hsign with rfl | rfl
  · obtain ⟨c, cs, rfl⟩ := List.exists_cons_of_ne_nil h.ne_nil
    have hbounds := (h.isDigit c List.mem_cons_self).toNat_bounds
    rw [List.nil_append, Text.signed]
    · rintro cs' ⟨⟩
      simp at hbounds
    · rintro cs' ⟨⟩
      simp at hbounds
  · rfl

theorem exists_plus {cs digits : List Char} (h : signed cs = (false, digits)) :
    ∃ sign, IsPlus sign ∧ cs = sign ++ digits := by
  rw [Text.signed.eq_def] at h
  split at h
  · cases h
  · cases h
    exact ⟨['+'], Or.inr rfl, rfl⟩
  · cases h
    exact ⟨[], Or.inl rfl, rfl⟩

/-- A positive number is given by digits behind an optional plus. -/
theorem integer_eq_ok_iff {s : String} {n : Nat} (hn : 1 ≤ n) :
    integer s = .ok (n : Int) ↔
      n < wordHalf ∧ ∃ sign digits, IsPlus sign ∧ Spells digits n ∧ s.toList = sign ++ digits := by
  constructor
  · intro h
    obtain ⟨negative, digits, hsigned⟩ : ∃ negative digits, signed s.toList = (negative, digits) :=
      ⟨_, _, rfl⟩
    rw [integer, hsigned] at h
    dsimp only at h
    split at h
    · cases h
    · rename_i m hnatural
      split at h
      · -- behind a minus sign nothing is positive
        split at h
        · have hneg := Except.ok.inj h
          omega
        · cases h
      · rename_i hpositive
        split at h
        · rename_i hlt
          obtain rfl : m = n := Int.ofNat.inj (Except.ok.inj h)
          rw [Bool.not_eq_true] at hpositive
          subst hpositive
          obtain ⟨sign, hsign, hs⟩ := exists_plus hsigned
          exact ⟨hlt, sign, digits, hsign, natural?_eq_some_iff.1 hnatural, hs⟩
        · cases h
  · rintro ⟨hlt, sign, digits, hsign, hspells, hs⟩
    rw [integer, hs, hspells.signed hsign]
    simp only [natural?_eq_some_iff.2 hspells, if_pos hlt, Bool.false_eq_true, if_false]

/-! ## Limits -/

/-- Characters that give the limit `n`: white space around digits and an optional plus. -/
inductive GivesLimit (n : Nat) : List Char → Prop
  | intro {front sign digits back : List Char} :
      Blank front → IsPlus sign → Spells digits n → Blank back →
        GivesLimit n (front ++ (sign ++ digits) ++ back)

/-- A numeral has no white space at its ends. -/
theorem Spells.solid {digits sign : List Char} {n : Nat} (h : Spells digits n)
    (hsign : IsPlus sign) : Solid (sign ++ digits) ∧ Solid (sign ++ digits).reverse := by
  have hdigits : ∀ c ∈ digits, isBlank c = false := fun c hc => (h.isDigit c hc).isBlank
  constructor
  · intro c hc
    rcases hsign with rfl | rfl
    · exact hdigits c (List.mem_of_mem_head? hc)
    · rw [List.cons_append, List.head?_cons, Option.mem_some_iff] at hc
      rw [← hc]
      decide
  · intro c hc
    obtain ⟨d, ds, hd⟩ := List.exists_cons_of_ne_nil (mt List.reverse_eq_nil_iff.1 h.ne_nil)
    rw [List.reverse_append, hd, List.cons_append, List.head?_cons, Option.mem_some_iff] at hc
    exact hdigits c (List.mem_reverse.1 (by rw [hd, hc]; exact List.mem_cons_self))

/-- A limit is in force exactly when it is given and fits a word. -/
theorem parseMax_eq_iff {s : String} {n : Nat} (hn : 1 ≤ n) :
    parseMax s = n ↔ n < wordHalf ∧ GivesLimit n s.toList := by
  have hinteger : parseMax s = n ↔ integer (trimmed s) = .ok (n : Int) := by
    rw [parseMax]
    cases integer (trimmed s) with
    | error e => simp; omega
    | ok z =>
        simp only [Except.ok.injEq]
        omega
  rw [hinteger, integer_eq_ok_iff hn]
  refine and_congr_right fun _ => ⟨?_, ?_⟩
  · rintro ⟨sign, digits, hsign, hspells, htrimmed⟩
    obtain ⟨front, back, hfront, hback, hs⟩ := exists_trimmed s
    rw [hs, htrimmed]
    exact .intro hfront hsign hspells hback
  · intro h
    generalize hs : s.toList = cs at h
    cases h with
    | @intro front sign digits back hfront hsign hspells hback =>
        obtain ⟨hhead, hlast⟩ := hspells.solid hsign
        refine ⟨sign, digits, hsign, hspells, toList_trimmed hfront hback hhead hlast ?_ hs⟩
        exact List.append_ne_nil_of_right_ne_nil sign hspells.ne_nil

/-- The decimal numeral of a number spells it. -/
theorem spells_toDigits (n : Nat) : Spells (Nat.toDigits 10 n) n := by
  have hchar {d : Nat} (hd : d < 10) :
      IsDigit (Nat.digitChar d) ∧ (Nat.digitChar d).toNat - '0'.toNat = d := by
    have hcode := Nat.toNat_digitChar_of_lt_ten hd
    have hbounds : 48 ≤ (Nat.digitChar d).toNat ∧ (Nat.digitChar d).toNat ≤ 57 := by omega
    refine ⟨⟨hbounds.1, hbounds.2⟩, ?_⟩
    rw [hcode]
    exact Nat.add_sub_cancel_left 48 d
  induction n using Nat.strongRecOn with
  | ind n ih =>
      by_cases hn : n < 10
      · rw [Nat.toDigits_of_lt_base hn]
        refine ⟨List.cons_ne_nil _ _, List.forall_mem_singleton.2 (hchar hn).1, ?_⟩
        rw [List.map_singleton, (hchar hn).2]
        exact Nat.ofDigits_singleton
      · -- the last digit comes first when the digits are reversed
        obtain ⟨-, hdigits, hvalue⟩ := ih (n / 10) (by omega)
        have hlast := hchar (Nat.mod_lt n (by decide : 0 < 10))
        rw [Nat.toDigits_of_base_le (by decide) (by omega)]
        refine ⟨by simp, List.forall_mem_append.2
          ⟨hdigits, List.forall_mem_singleton.2 hlast.1⟩, ?_⟩
        rw [List.map_append, List.reverse_append, List.map_singleton, List.reverse_singleton,
          List.singleton_append, Nat.ofDigits_cons, hvalue, hlast.2]
        exact Nat.mod_add_div n 10

/-- A limit that is written out is the limit again. -/
theorem parseMax_toString {n : Nat} (hn : n < wordHalf) : parseMax (toString n) = n := by
  cases n with
  | zero => decide
  | succ n =>
      refine (parseMax_eq_iff (by omega)).2 ⟨hn, ?_⟩
      have hlist : (toString (n + 1)).toList = [] ++ ([] ++ Nat.toDigits 10 (n + 1)) ++ [] := by
        simp
      rw [hlist]
      exact .intro (List.forall_mem_nil _) (Or.inl rfl) (spells_toDigits (n + 1))
        (List.forall_mem_nil _)

theorem parseMax_lt (s : String) : parseMax s < wordHalf := by
  rcases Nat.eq_zero_or_pos (parseMax s) with hzero | hpos
  · rw [hzero]
    decide
  · exact ((parseMax_eq_iff hpos).1 rfl).1

/-! ## Words -/

/-- Looking for a word among known ones finds it when it is one of them. -/
theorem find?_word {α : Type} {word : α → String} {all : List α} {words : List String}
    (hwords : all.map word = words) (w : String) :
    (all.find? fun a => word a == w).map word = if w ∈ words then some w else none := by
  subst hwords
  induction all with
  | nil => rfl
  | cons a all ih =>
      by_cases h : word a = w
      · simp [h]
      · rw [List.find?_cons_of_neg (by simpa using h), ih]
        simp [Ne.symm h]

theorem levelWord_parseLevel (s : String) :
    levelWord (parseLevel s) = if lowered (trimmed s) ∈ ["debug", "info", "warn", "error"] then
      lowered (trimmed s) else "" := by
  have hwords : Log.Severity.all.map Log.Severity.word = ["debug", "info", "warn", "error"] := rfl
  rw [levelWord, parseLevel, find?_word hwords]
  split <;> rfl

theorem layoutWord_parseLayout (s : String) :
    layoutWord (parseLayout s) = if lowered (trimmed s) ∈ ["zap", "logrus", "slog"] then
      lowered (trimmed s) else "zap" := by
  have hwords : [.console, .pairs, .attributes].map layoutWord = ["zap", "logrus", "slog"] := rfl
  rw [parseLayout, ← Option.getD_map layoutWord, find?_word hwords]
  split <;> rfl

theorem parseLevel_levelWord (level : Option Log.Severity) :
    parseLevel (levelWord level) = level := by
  cases level with
  | none => decide
  | some s => cases s <;> decide

theorem parseLayout_layoutWord (l : Log.Layout) : parseLayout (layoutWord l) = l := by
  cases l <;> decide

/-! ## Loggers -/

/-- Every layout has the threshold of every severity. -/
theorem ofLevel_word (l : Log.Layout) (s : Log.Severity) :
    Log.Logger.ofLevel l s.word = .ok (.ofSeverity l s) := by
  cases l <;> cases s <;> rfl

theorem logger?_eq (c : Config) : c.logger? = c.level.map (Log.Logger.ofSeverity c.layout) := by
  cases h : c.level with
  | none => simp [logger?, levelWord, h]
  | some s =>
      have hword : levelWord c.level = s.word := by rw [h]; rfl
      have hne : s.word.isEmpty = false := by cases s <;> decide
      rw [logger?, hword, ofLevel_word, hne]
      rfl

theorem levelWord_eq_empty_iff (level : Option Log.Severity) :
    levelWord level = "" ↔ level = none := by
  cases level with
  | none => exact ⟨fun _ => rfl, fun _ => rfl⟩
  | some s => cases s <;> decide

/-! ## Main statement -/

section Parts

variable (level layout max : String)

theorem level_parse : (parse level layout max).level = parseLevel level := by rw [parse]

theorem layout_parse : (parse level layout max).layout = parseLayout layout := by rw [parse]

theorem maxInput_parse : (parse level layout max).maxInput = parseMax max := by rw [parse]

end Parts

/-- **Three texts always load as a normal configuration.** A limit `n` is in force exactly when the
last text gives it and it fits a signed word; every other text stands for no limit. The words are
those of the texts, without white space and in lower case, where these are known words, else the
defaults. A configuration that is written out and loaded again is the same. There is no logger
exactly when there is no level, for every layout has a threshold for the levels that can be loaded.
-/
theorem parse_normalizes (level layout max : String) :
    let c := parse level layout max
    (∀ n, 1 ≤ n → (c.maxInput = n ↔ n ≤ 2 ^ 63 - 1 ∧ GivesLimit n max.toList))
      ∧ ((∀ n, 1 ≤ n → n ≤ 2 ^ 63 - 1 → ¬ GivesLimit n max.toList) → c.maxInput = 0)
      ∧ levelWord c.level = (if lowered (trimmed level) ∈ ["debug", "info", "warn", "error"] then
          lowered (trimmed level) else "")
      ∧ layoutWord c.layout = (if lowered (trimmed layout) ∈ ["zap", "logrus", "slog"] then
          lowered (trimmed layout) else "zap")
      ∧ parse (levelWord c.level) (layoutWord c.layout) (toString c.maxInput) = c
      ∧ (c.logger? = none ↔ levelWord c.level = "")
      ∧ (levelWord c.level ≠ "" →
          ∃ logger, Log.Logger.ofLevel c.layout (levelWord c.level) = .ok logger
            ∧ c.logger? = some logger) := by
  intro c
  have hlevel : c.level = parseLevel level := level_parse level layout max
  have hlayout : c.layout = parseLayout layout := layout_parse level layout max
  have hmax : c.maxInput = parseMax max := maxInput_parse level layout max
  -- the three parts are all that is needed of the configuration from here on
  clear_value c
  have hlimit (n : Nat) (hn : 1 ≤ n) :
      c.maxInput = n ↔ n ≤ 2 ^ 63 - 1 ∧ GivesLimit n max.toList := by
    have hword : n ≤ 2 ^ 63 - 1 ↔ n < wordHalf := by
      simp only [wordHalf]
      omega
    rw [hword, hmax, parseMax_eq_iff hn]
  refine ⟨hlimit, ?_, hlevel ▸ levelWord_parseLevel level, hlayout ▸ layoutWord_parseLayout layout,
    ?_, ?_, ?_⟩
  · intro hnone
    refine Decidable.byContradiction fun hne => ?_
    have hpos : 1 ≤ c.maxInput := Nat.one_le_iff_ne_zero.2 hne
    obtain ⟨hle, hgives⟩ := (hlimit c.maxInput hpos).1 rfl
    exact hnone c.maxInput hpos hle hgives
  · rw [parse, parseLevel_levelWord, parseLayout_layoutWord,
      parseMax_toString (hmax ▸ parseMax_lt max)]
  · rw [logger?_eq, Option.map_eq_none_iff, levelWord_eq_empty_iff]
  · intro hword
    obtain ⟨s, hs⟩ := Option.ne_none_iff_exists'.1 (mt (levelWord_eq_empty_iff c.level).2 hword)
    refine ⟨.ofSeverity c.layout s, ?_, ?_⟩
    · rw [hs]
      exact ofLevel_word c.layout s
    · rw [logger?_eq, hs]
      rfl

/-- A limit with a sign and zeros in front of it, between a no-break space and a line feed; the
first number that does not fit; and a level with a dotted capital letter. -/
theorem parse_normalizes_padded_numeral :
    (parse "" "" "\u00a0+0016\n").maxInput = 16
      ∧ (parse "" "" "9223372036854775808").maxInput = 0
      ∧ parse " \u0130NFO" "LogRus" "+7" = ⟨some .info, .pairs, 7⟩
      ∧ (parse " \u0130NFO" "LogRus" "+7").logger? = some (.ofSeverity .pairs .info) := by
  refine ⟨?_, by decide, by decide, ?_⟩
  · have hgives : GivesLimit 16 (['\u00a0'] ++ (['+'] ++ ['0', '0', '1', '6']) ++ ['\n']) :=
      .intro (List.forall_mem_singleton.2 (by decide)) (Or.inr rfl)
        ⟨by decide, by simp [IsDigit], by decide⟩ (List.forall_mem_singleton.2 (by decide))
    exact ((parse_normalizes "" "" "\u00a0+0016\n").1 16 (by decide)).2 ⟨by decide, hgives⟩
  · obtain ⟨logger, hlogger, hsome⟩ :=
      (parse_normalizes " \u0130NFO" "LogRus" "+7").2.2.2.2.2.2 (by decide)
    cases hlogger
    exact hsome

end RoundTrip.Config
