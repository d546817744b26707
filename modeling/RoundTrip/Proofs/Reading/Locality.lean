import RoundTrip.Codec
import RoundTrip.Step

/-!
# Local readers

A reader is local when it decides on the bytes that it uses and never looks at those behind them.
The readers of the formats take a bound on the length of their input, so locality is stated for a
family of readers: what is read with one bound is read again in front of any other rest, with every
bound that leaves room for the bytes read (`Step.Local`). A family that is built from local ones by
binding and by repetition is local.

Main statement: `exact_selfDelimiting`, the exact reader over a local one accepts no input together
with a longer one, and it refuses the extension of an accepted input for its trailing bytes only.
-/

set_option autoImplicit false

namespace RoundTrip

namespace Step

variable {ε α β : Type}

/-! ## Locality -/

/-- What `r n` reads off the front of an input, every `r m` with enough room reads off the front of
every other input. -/
def Local (r : Nat → Step ε α) (n : Nat) : Prop :=
  ∀ ⦃bs : Bytes⦄ ⦃a : α⦄ ⦃rest : Bytes⦄, r n bs = .ok (a, rest) →
    ∃ used, bs = used ++ rest ∧ ∀ m, used.length ≤ m → ∀ s, r m (used ++ s) = .ok (a, s)

/-- A reader that uses at least one byte. -/
def Advances (step : Step ε α) : Prop :=
  ∀ ⦃bs : Bytes⦄ ⦃a : α⦄ ⦃rest : Bytes⦄, step bs = .ok (a, rest) → rest.length < bs.length

variable {r r' : Nat → Step ε α} {n : Nat}

theorem local_pure (a : α) : Local (fun _ bs => (.ok (a, bs) : Except ε (α × Bytes))) n := by
  intro bs a' rest h
  cases h
  exact ⟨[], rfl, fun _ _ _ => rfl⟩

theorem local_error (e : ε) : Local (fun _ _ => (.error e : Except ε (α × Bytes))) n := by
  intro bs a rest h
  cases h

theorem Local.congr (hr : Local r n) (h : ∀ m bs, r' m bs = r m bs) : Local r' n := by
  have heq : r' = r := funext fun m => funext fun bs => h m bs
  rwa [heq]

/-- One local reader after another. -/
theorem Local.bind {next : Nat → α × Bytes → Except ε (β × Bytes)} (hr : Local r n)
    (hnext : ∀ a, Local (fun m bs => next m (a, bs)) n) :
    Local (fun m bs => r m bs >>= next m) n := by
  intro bs b rest h
  obtain ⟨⟨a, tail⟩, hfirst, hsecond⟩ := bind_eq_ok.1 h
  obtain ⟨front, rfl, hfront⟩ := hr hfirst
  obtain ⟨back, rfl, hback⟩ := hnext a hsecond
  refine ⟨front ++ back, (List.append_assoc front back rest).symm, ?_⟩
  intro m hm s
  rw [List.length_append] at hm
  rw [List.append_assoc]
  exact bind_eq_ok.2 ⟨(a, back ++ s), hfront m (by omega) _, hback m (by omega) s⟩

/-- A result that is changed after it has been read. -/
theorem Local.returning (hr : Local r n) (f : α → β) :
    Local (fun m bs => r m bs >>= fun p => (.ok (f p.1, p.2) : Except ε (β × Bytes))) n :=
  hr.bind fun a => local_pure (f a)

theorem local_ite {c : Prop} [Decidable c] (hr : c → Local r n) (hr' : ¬ c → Local r' n) :
    Local (fun m bs => if c then r m bs else r' m bs) n := by
  by_cases h : c
  · simpa only [if_pos h] using hr h
  · simpa only [if_neg h] using hr' h

/-- A reader that fails at the end of the input is local when it is local behind each first byte. -/
theorem local_of_cons (hnil : ∀ a rest, r n [] ≠ .ok (a, rest))
    (hcons : ∀ b, Local (fun m bs => r m (b :: bs)) n) : Local r n := by
  intro bs a rest h
  cases bs with
  | nil => exact absurd h (hnil a rest)
  | cons b bs =>
      obtain ⟨used, rfl, hagain⟩ := hcons b h
      refine ⟨b :: used, rfl, ?_⟩
      intro m hm s
      rw [List.length_cons] at hm
      exact hagain m (by omega) s

/-- Cutting off a number of bytes that is known beforehand. -/
theorem local_of_split {step : Step ε Bytes} (length : Nat)
    (hsome : ∀ bs r, Bytes.split length bs = some r → step bs = .ok r)
    (hnone : ∀ bs, Bytes.split length bs = none → ∃ e, step bs = .error e) :
    Local (fun _ => step) n := by
  intro bs part rest h
  dsimp only at h
  cases hsplit : Bytes.split length bs with
  | none =>
      obtain ⟨e, he⟩ := hnone bs hsplit
      rw [he] at h
      cases h
  | some r =>
      rw [hsome bs r hsplit] at h
      cases h
      obtain ⟨rfl, rfl⟩ := Bytes.append_of_split hsplit
      exact ⟨part, rfl, fun _ _ s => hsome _ _ (Bytes.split_append part s)⟩

/-- A repetition of a local reader. -/
theorem Local.times (hr : Local r n) (count : Nat) :
    Local (fun m => Step.times (r m) count) n := by
  induction count with
  | zero => exact local_pure []
  | succ count ih =>
      have hsucc : (fun m => Step.times (r m) (count + 1)) = fun m bs => r m bs >>= fun p =>
          Step.times (r m) count p.2 >>= fun q => .ok (p.1 :: q.1, q.2) := by
        funext m bs
        rw [times_succ]
        cases r m bs with
        | error e => rfl
        | ok p =>
            change (Step.times (r m) count p.2).map _ = Step.times (r m) count p.2 >>= _
            cases Step.times (r m) count p.2 <;> rfl
      rw [hsucc]
      exact hr.bind fun a => ih.returning (a :: ·)

/-- A local reader leaves no more than it was given. -/
theorem Local.length_le (hr : Local r n) {bs rest : Bytes} {a : α} (h : r n bs = .ok (a, rest)) :
    rest.length ≤ bs.length := by
  obtain ⟨used, rfl, -⟩ := hr h
  rw [List.length_append]
  omega

theorem advances_of_cons {step : Step ε α} (hnil : ∀ a rest, step [] ≠ .ok (a, rest))
    (hcons : ∀ b, Local (fun _ bs => step (b :: bs)) n) : Advances step := by
  intro bs a rest h
  cases bs with
  | nil => exact absurd h (hnil a rest)
  | cons b bs =>
      have hle := (hcons b).length_le h
      rw [List.length_cons]
      omega

/-- A series that starts with a reader that uses a byte uses a byte. -/
theorem Advances.bind {first : Step ε α} {next : α × Bytes → Except ε (β × Bytes)}
    (hfirst : Advances first)
    (hnext : ∀ a bs b rest, next (a, bs) = .ok (b, rest) → rest.length ≤ bs.length) :
    Advances fun bs => first bs >>= next := by
  intro bs b rest h
  obtain ⟨⟨a, tail⟩, hread, hread'⟩ := bind_eq_ok.1 h
  have hlt := hfirst hread
  have hle := hnext a tail b rest hread'
  omega

/-- A series of local readers of which the first one uses a byte. -/
theorem Local.bind_advances {next : Nat → α × Bytes → Except ε (β × Bytes)} (hr : Local r n)
    (hfirst : Advances (r n)) (hnext : ∀ a, Local (fun m bs => next m (a, bs)) n) :
    Local (fun m bs => r m bs >>= next m) n ∧ Advances fun bs => r n bs >>= next n :=
  ⟨hr.bind hnext, hfirst.bind fun a _ _ _ hread => (hnext a).length_le hread⟩

/-! ## Loops

A loop takes a bound for the readers in it and a number of rounds that it may make. -/

/-- What one round of a successful loop does: it uses at least one byte, and then the loop ends or
goes on with another state, in front of every rest. -/
inductive Round {σ : Type} (loop : Nat → Nat → σ → Step ε α) (n k : Nat) (st : σ) (bs : Bytes)
    (a : α) (rest : Bytes) : Prop
  | last (used : Bytes) : used ≠ [] → bs = used ++ rest →
      (∀ m, used.length ≤ m → ∀ j s, loop m (j + 1) st (used ++ s) = .ok (a, s)) →
      Round loop n k st bs a rest
  | next (used : Bytes) (st' : σ) (tail : Bytes) : used ≠ [] → bs = used ++ tail →
      loop n k st' tail = .ok (a, rest) →
      (∀ m, used.length ≤ m → ∀ j s, loop m (j + 1) st (used ++ s) = loop m j st' s) →
      Round loop n k st bs a rest

section Rounds

variable {σ : Type} (loop : Nat → Nat → σ → Step ε α)
  (hzero : ∀ st bs a rest, loop n 0 st bs ≠ .ok (a, rest))
  (hround : ∀ k st bs a rest, loop n (k + 1) st bs = .ok (a, rest) → Round loop n k st bs a rest)

include hzero hround

/-- A loop needs no more rounds than the bytes that it uses. -/
theorem exists_used_of_rounds {k : Nat} {st : σ} {bs : Bytes} {a : α} {rest : Bytes}
    (h : loop n k st bs = .ok (a, rest)) :
    ∃ used, used ≠ [] ∧ bs = used ++ rest ∧ ∀ m, used.length ≤ m → ∀ j, used.length ≤ j → ∀ s,
      loop m j st (used ++ s) = .ok (a, s) := by
  induction k generalizing st bs with
  | zero => exact absurd h (hzero st bs a rest)
  | succ k ih =>
      cases hround k st bs a rest h with
      | last used hused hbs hagain =>
          refine ⟨used, hused, hbs, ?_⟩
          intro m hm j hj s
          have hpos := List.length_pos_iff.2 hused
          obtain ⟨i, rfl⟩ : ∃ i, j = i + 1 := ⟨j - 1, by omega⟩
          exact hagain m hm i s
      | next used st' tail hused hbs hloop hagain =>
          obtain ⟨used', -, rfl, hrest⟩ := ih hloop
          refine ⟨used ++ used', by simp [hused], by rw [hbs, List.append_assoc], ?_⟩
          intro m hm j hj s
          have hpos := List.length_pos_iff.2 hused
          rw [List.length_append] at hm hj
          obtain ⟨i, rfl⟩ : ∃ i, j = i + 1 := ⟨j - 1, by omega⟩
          rw [List.append_assoc, hagain m (by omega)]
          exact hrest m (by omega) i (by omega) s

/-- A loop is local when its rounds are. -/
theorem local_of_rounds (st : σ) : Local (fun m => loop m m st) n := by
  intro bs a rest h
  obtain ⟨used, -, hbs, hagain⟩ := exists_used_of_rounds loop hzero hround h
  exact ⟨used, hbs, fun m hm s => hagain m hm m hm s⟩

/-- A loop uses the first byte of its input. -/
theorem exists_used_cons_of_rounds {st : σ} {bs : Bytes} {a : α} {rest : Bytes}
    (h : loop n n st bs = .ok (a, rest)) :
    ∃ b used, bs = b :: (used ++ rest) ∧ ∀ m, used.length < m → ∀ s,
      loop m m st (b :: (used ++ s)) = .ok (a, s) := by
  obtain ⟨used, hused, rfl, hagain⟩ := exists_used_of_rounds loop hzero hround h
  cases used with
  | nil => exact absurd rfl hused
  | cons b used => exact ⟨b, used, rfl, fun m hm s => hagain m hm m hm s⟩

end Rounds

end Step

/-! ## Exact reading -/

/-- Nothing can be added to an input that a decoder accepts: a longer one is refused for the bytes
behind it. And nothing can be taken off it: a shorter one is refused, and not for bytes that are
left over. -/
structure SelfDelimiting {α : Type} (decode : Bytes → Except Failure α) : Prop where
  extended : ∀ bs v s, decode bs = .ok v → s ≠ [] →
    decode (bs ++ s) = .error (.trailing bs.length (bs.length + s.length))
      ∧ Cause.trailingBytes ∈ (Failure.trailing bs.length (bs.length + s.length)).causes
  cut : ∀ bs v p s, decode bs = .ok v → bs = p ++ s → s ≠ [] →
    ∃ e, decode p = .error e ∧ e.trailing? = none ∧ Cause.trailingBytes ∉ e.causes

variable {α : Type} {read : Bytes → Except Failure (α × Bytes)}

/-- An input with something behind the value is refused for it. -/
theorem exact_ofRest_eq_trailing {used s : Bytes} {v : α} (h : read (used ++ s) = .ok (v, s))
    (hs : s ≠ []) :
    exact (PrefixReader.ofRest read) (used ++ s)
      = .error (.trailing used.length (used.length + s.length)) := by
  have hpos : 0 < s.length := List.length_pos_iff.2 hs
  have hlength : ((used ++ s).length : Int) - s.length = used.length := by
    rw [List.length_append]
    omega
  simp only [exact, PrefixReader.ofRest, h, hlength]
  rw [List.length_append, if_neg (by omega), if_pos (by omega)]
  rfl

theorem exact_ofRest_eq_ok_iff {bs : Bytes} {v : α} :
    exact (PrefixReader.ofRest read) bs = .ok v ↔ read bs = .ok (v, []) := by
  rw [exact_eq_ok_iff, PrefixReader.ofRest_eq_ok_iff]
  constructor
  · rintro ⟨rest, h, hlength⟩
    have hrest : rest = [] := List.length_eq_zero_iff.1 (by omega)
    rw [h, hrest]
  · intro h
    exact ⟨[], h, by simp⟩

/-- **Exact reading over a local reader is self-delimiting**, when the reader itself never speaks of
trailing bytes. -/
theorem exact_selfDelimiting
    (hlocal : ∀ bs v rest, read bs = .ok (v, rest) →
      ∃ used, bs = used ++ rest ∧ ∀ s, read (used ++ s) = .ok (v, s))
    (herror : ∀ bs e, read bs = .error e → e.cause? ≠ some .trailingBytes) :
    SelfDelimiting (exact (PrefixReader.ofRest read)) := by
  constructor
  · intro bs v s h hs
    obtain ⟨used, hbs, hagain⟩ := hlocal bs v [] (exact_ofRest_eq_ok_iff.1 h)
    rw [List.append_nil] at hbs
    subst hbs
    exact ⟨exact_ofRest_eq_trailing (hagain s) hs, Failure.mem_causes_iff.2 rfl⟩
  · rintro bs v p s h rfl hs
    have hwhole := exact_ofRest_eq_ok_iff.1 h
    cases hread : read p with
    | error e =>
        have hcause := herror p e hread
        refine ⟨e, ?_, Failure.trailing?_eq_none hcause, mt Failure.mem_causes_iff.1 hcause⟩
        simp only [exact, PrefixReader.ofRest, hread]
    | ok r =>
        -- what is read off `p` is read off `p ++ s` too, and leaves `s` over
        obtain ⟨used, hp, hagain⟩ := hlocal p r.1 r.2 hread
        have hlonger := hagain (r.2 ++ s)
        rw [← List.append_assoc, ← hp, hwhole] at hlonger
        have hrest : r.2 ++ s = [] := (congrArg Prod.snd (Except.ok.inj hlonger)).symm
        exact absurd (List.append_eq_nil_iff.1 hrest).2 hs

end RoundTrip
