import RoundTrip.Frame
import RoundTrip.Proofs.Run.Integrity
import RoundTrip.Store.Tree

/-!
# Codecs inside limits

A codec may stand inside any number of limits, among them those of configurations. A chain of them
has two ways to behave: an input that every limit admits is handled as if no limit were there, and
every other input is refused by the outermost limit that it exceeds, before the codec sees it.

Main statement: `run_guarded`. It holds of every run: what a run does depends on its codec only
through the input that it reads (`run_eq_of_decode_eq`), and a run whose input is refused depends on
the refusal alone (`run_of_refused`).
-/

set_option autoImplicit false

namespace RoundTrip

/-! ## Chains of limits -/

/-- A limit around a codec. -/
inductive Guard where
  /-- The limit of a number of bytes; one that is not positive stands for no limit. -/
  | limit (max : Int)
  /-- The limit of a configuration. -/
  | configured (config : Config)

namespace Guard

/-- A codec inside a limit. -/
def wrap {α : Type} (codec : Codec α) : Guard → Codec α
  | limit max => codec.limit max
  | configured config => config.apply codec

/-- The greatest number of bytes that a limit admits, unless it is not positive. -/
def bound : Guard → Int
  | limit max => max
  | configured config => config.maxInput

/-- An input of the given length exceeds a limit. -/
def Refuses (g : Guard) (length : Nat) : Prop := 0 < g.bound ∧ g.bound < length

/-- The failure of an input that exceeds a limit. -/
def refusal (g : Guard) (length : Nat) : Failure :=
  .detailed .tooLarge (toString length ++ " > " ++ toString g.bound)

/-- A codec inside a chain of limits, the outermost one first. -/
def wrapAll {α : Type} (guards : List Guard) (codec : Codec α) : Codec α :=
  guards.foldr (fun g inner => g.wrap inner) codec

section Chains

variable {α : Type} {codec : Codec α} {guards : List Guard} {bs : Bytes}

@[simp] theorem wrap_encode (g : Guard) : (g.wrap codec).encode = codec.encode := by
  cases g with
  | limit max => rfl
  | configured config => cases h : config.isLimited <;> simp [wrap, Config.apply, h, Codec.limit]

@[simp] theorem wrap_refused (g : Guard) : (g.wrap codec).refused = codec.refused := by
  cases g with
  | limit max => rfl
  | configured config => cases h : config.isLimited <;> simp [wrap, Config.apply, h, Codec.limit]

/-- The limit of a configuration without one admits everything, so it can be read as a limit too. -/
theorem wrap_configured (config : Config) :
    (configured config).wrap codec = (limit config.maxInput).wrap codec := by
  by_cases h : 0 < config.maxInput
  · simp [wrap, Config.apply, Config.isLimited, h]
  · simp [wrap, Config.apply, Config.isLimited, h, Codec.limit]

theorem wrap_decode_of_refuses {g : Guard} (h : g.Refuses bs.length) :
    (g.wrap codec).decode bs = .error (g.refusal bs.length) := by
  cases g with
  | limit max => exact if_pos h
  | configured config =>
      rw [wrap_configured]
      exact if_pos h

theorem wrap_decode_of_admits {g : Guard} (h : ¬ g.Refuses bs.length) :
    (g.wrap codec).decode bs = codec.decode bs := by
  cases g with
  | limit max => exact if_neg h
  | configured config =>
      rw [wrap_configured]
      exact if_neg h

@[simp] theorem wrapAll_encode : (wrapAll guards codec).encode = codec.encode := by
  induction guards with
  | nil => rfl
  | cons g guards ih => exact (wrap_encode g).trans ih

@[simp] theorem wrapAll_refused : (wrapAll guards codec).refused = codec.refused := by
  induction guards with
  | nil => rfl
  | cons g guards ih => exact (wrap_refused g).trans ih

/-- Limits that all admit an input leave it to the codec. -/
theorem wrapAll_decode_of_admits (h : ∀ g ∈ guards, ¬ g.Refuses bs.length) :
    (wrapAll guards codec).decode bs = codec.decode bs := by
  induction guards with
  | nil => rfl
  | cons g guards ih =>
      obtain ⟨hg, hguards⟩ := List.forall_mem_cons.1 h
      exact (wrap_decode_of_admits hg).trans (ih hguards)

/-- An input is refused by the outermost limit that it exceeds, whatever stands further inside. -/
theorem wrapAll_decode_of_refuses {outer inner : List Guard} {g : Guard}
    (houter : ∀ other ∈ outer, ¬ other.Refuses bs.length) (hg : g.Refuses bs.length) :
    (wrapAll (outer ++ g :: inner) codec).decode bs = .error (g.refusal bs.length) := by
  induction outer with
  | nil => exact wrap_decode_of_refuses hg
  | cons other outer ih =>
      obtain ⟨hother, houter⟩ := List.forall_mem_cons.1 houter
      exact (wrap_decode_of_admits hother).trans (ih houter)

end Chains

end Guard

namespace Run

open RoundTrip.Store

/-! ## Runs with two codecs -/

section Runs

variable {α : Type} {o : Options} {storage : Storage} {args : List String}

/-- Two codecs that write alike and read alike what a run reads make the same run. -/
theorem run_eq_of_decode_eq {codec codec' : Codec α} (hencode : codec.encode = codec'.encode)
    (hrefused : codec.refused = codec'.refused)
    (hdecode : ∀ a bs, Arguments.parse args = .ok a → Reads storage a.input bs →
      codec.decode bs = codec'.decode bs) :
    run (some codec) o storage args = run (some codec') o storage args := by
  cases hargs : Arguments.parse args with
  | error e => simp only [run, hargs]
  | ok a =>
      have hprocess : process codec o storage a = process codec' o storage a := by
        rw [process, process]
        cases hopen : storage.openInput a.input with
        | error e => rfl
        | ok source =>
            cases hread : source.read with
            | error e => simp only [hread]
            | ok bs =>
                have hbs := hdecode a bs hargs ⟨source, hopen, hread⟩
                simp only [hread, convert, hbs, hencode, hrefused]
      rw [run_eq hargs, run_eq hargs, hprocess]

/-- The report of a run whose input is refused. -/
theorem run_of_refused {codec : Codec α} {a : Arguments} {bs : Bytes} {e : Failure}
    (hargs : Arguments.parse args = .ok a) (hreads : Reads storage a.input bs)
    (hdecode : codec.decode bs = .error e) :
    run (some codec) o storage args =
      ⟨some (.atSite (decodeSite a.input) e),
        (if a.extra.isEmpty then [] else [extraArguments a.extra])
          ++ [reached .argsParsed [("input", .text a.input), ("output", .text a.output)],
            reached .inputOpened [], reached .inputRead [("bytes", .integer bs.length)],
            failed (decodeSite a.input) e],
        [.openInput a.input, .close a.input], none⟩ := by
  obtain ⟨source, hopen, hread⟩ := hreads
  rw [run_eq hargs, process]
  simp only [hopen, hread, convert, hdecode]
  rfl

end Runs

/-! ## Main statement -/

/-- **Limits are transparent or total.** A run with a codec inside a chain of limits is the run with
the bare codec, up to the last entry and call, whenever every limit admits the input that is read;
so it is when no input is read at all. Otherwise the outermost limit that the input exceeds refuses
it: the run fails at decoding with a failure that gives both numbers, has status 1 and changes no
file, and it would be the same run with any other codec in the place of this one. -/
theorem run_guarded {α : Type} (guards : List Guard) (codec : Codec α) (o : Options)
    (storage : Storage) (args : List String) :
    let report := run (some (Guard.wrapAll guards codec)) o storage args
    ((∀ a bs, Arguments.parse args = .ok a → Reads storage a.input bs →
        ∀ g ∈ guards, ¬ g.Refuses bs.length) →
      report = run (some codec) o storage args)
    ∧ ∀ a bs outer g inner, Arguments.parse args = .ok a → Reads storage a.input bs →
        guards = outer ++ g :: inner → (∀ other ∈ outer, ¬ other.Refuses bs.length) →
        g.Refuses bs.length →
        (∃ e, report.failure
            = some (.atSite ⟨.decode, .inputRead, "decode input file", a.input⟩ e)
          ∧ e.causes = [.tooLarge]
          ∧ e.message = "codec: payload too large: " ++ toString bs.length ++ " > "
              ++ toString g.bound)
        ∧ exitStatus report.failure = 1
        ∧ (∀ files : Files, files.after report = files)
        ∧ (∀ (t : Tree) (home : Place), t.after home report = t)
        ∧ ∀ {β : Type} (other : Codec β),
            run (some (Guard.wrapAll guards other)) o storage args = report := by
  intro report
  refine ⟨fun hadmits => ?_, ?_⟩
  · refine run_eq_of_decode_eq Guard.wrapAll_encode Guard.wrapAll_refused ?_
    exact fun a bs hargs hreads => Guard.wrapAll_decode_of_admits (hadmits a bs hargs hreads)
  · rintro a bs outer g inner hargs hreads rfl houter hg
    -- the refusal is the same for every codec, so the report is too
    have hrefused : ∀ {β : Type} (other : Codec β),
        run (some (Guard.wrapAll (outer ++ g :: inner) other)) o storage args = _ :=
      fun other => run_of_refused hargs hreads (Guard.wrapAll_decode_of_refuses houter hg)
    have hreport : report = _ := hrefused codec
    have hstored : report.stored = none := by rw [hreport]
    refine ⟨⟨g.refusal bs.length, by rw [hreport]; rfl, rfl, ?_⟩, by rw [hreport]; rfl, ?_, ?_, ?_⟩
    · simp only [Guard.refusal, Failure.message, Cause.text, String.append_assoc]
      rfl
    · exact fun files => Files.after_eq_self hstored
    · intro t home
      rw [Tree.after, hstored]
    · exact fun other => (hrefused other).trans hreport.symm

/-- A frame of six bytes. A chain that admits it with nothing to spare makes no difference; one in
which two of four limits are exceeded refuses it by the outer one of these. -/
theorem run_guarded_frame :
    let files : Files := [("in", [1, 0, 0, 0, 1, 0x78]), ("out", [7])]
    let run (guards : List Guard) : Report :=
      run (some (Guard.wrapAll guards Frame.codec)) .default (files.storage .none)
        ["frame", "in", "out"]
    let guards : List Guard := [.limit 0, .configured ⟨none, .console, 5⟩, .limit (-1), .limit 3]
    (run [.limit (-3), .limit 6]).failure = none
      ∧ run [.limit (-3), .limit 6] = run []
      ∧ (∃ e, (run guards).failure
            = some (.atSite ⟨.decode, .inputRead, "decode input file", "in"⟩ e)
          ∧ e.causes = [.tooLarge] ∧ e.message = "codec: payload too large: 6 > 5")
      ∧ files.after (run guards) = files := by
  intro files run guards
  have hread : Reads (files.storage .none) "in" [1, 0, 0, 0, 1, 0x78] := ⟨_, rfl, rfl⟩
  have hadmits : run [.limit (-3), .limit 6] = run [] := by
    refine (run_guarded [.limit (-3), .limit 6] Frame.codec .default (files.storage .none)
      ["frame", "in", "out"]).1 ?_
    intro a bs hargs hreads
    cases hargs
    rw [hreads.unique hread]
    simp [Guard.Refuses, Guard.bound]
  obtain ⟨hfailure, -, hfiles, -, -⟩ :=
    (run_guarded guards Frame.codec .default (files.storage .none) ["frame", "in", "out"]).2
      ⟨"in", "out", []⟩ _ [.limit 0] (.configured ⟨none, .console, 5⟩) [.limit (-1), .limit 3] rfl
      hread rfl (by simp [Guard.Refuses, Guard.bound]) ⟨by decide, by decide⟩
  exact ⟨by decide, hadmits, hfailure, hfiles files⟩

end Run

end RoundTrip
