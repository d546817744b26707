import RoundTrip.Msgpack.Reader
import RoundTrip.Proofs.Reading.Locality

/-!
# The reader of MessagePack is local

A MessagePack value says by its codes and length fields where it ends. Every piece of a value is
read without a look at what follows, and so is the whole value (`valueStep_local`, by induction
over the levels of nesting).

Main statement: `read_local`.
-/

set_option autoImplicit false

namespace RoundTrip.Msgpack

open Step

variable {n : Nat}

/-! ## Pieces -/

theorem piece_local (length : Nat) : Local (fun _ => piece length) n := by
  apply local_of_split length
  · intro bs r hsplit
    simp only [piece, hsplit]
  · intro bs hsplit
    simp only [piece, hsplit]
    split
    · exact ⟨_, rfl⟩
    · exact ⟨_, rfl⟩

theorem code_local : Local (fun _ => code) n := by
  apply local_of_cons
  · intro a rest h
    cases h
  · exact fun b => local_pure b

theorem number_local (width : Nat) : Local (fun _ => number width) n :=
  (piece_local width).returning Bytes.toNat

theorem size_local (s : Size) : Local (fun _ => size s) n := by
  cases s with
  | given k => exact local_pure k
  | field width => exact number_local width

theorem stringAfter_local (c : UInt8) : Local (fun _ => stringAfter c) n := by
  unfold stringAfter
  cases Form.ofCode c with
  | text s => exact (size_local s).bind fun k => piece_local k
  | binary s => exact (size_local s).bind fun k => piece_local k
  | nil => exact local_pure []
  | _ => exact local_error _

theorem string_local : Local (fun _ => string) n := code_local.bind fun c => stringAfter_local c

/-! ## Values -/

theorem extension_local (s : Size) : Local (fun _ => extension s) n := by
  refine (size_local s).bind fun k => code_local.bind fun id => ?_
  apply local_ite
  · exact fun _ => local_error _
  · intro _
    refine (piece_local k).bind fun contents => ?_
    -- the meaning of the contents does not depend on the input behind them
    dsimp only
    cases instant contents with
    | error e => exact local_error e
    | ok t => exact local_pure (Value.time t)

theorem entryStep_local {value : Nat → Step Error Value} (h : Local value n) :
    Local (fun m => entryStep (value m)) n :=
  string_local.bind fun key => h.returning fun v => (key, v)

/-- A value of each form is local when the values inside it are. -/
theorem valueOf_local {value : Nat → Step Error Value} (h : Local value n) (c : UInt8)
    (form : Form) : Local (fun m => valueOf (value m) c form) n := by
  cases form with
  | small k => exact local_pure _
  | nil => exact local_pure _
  | bool b => exact local_pure _
  | unsigned w => exact (number_local w.bytes).returning (Value.unsigned w)
  | signed w => exact (number_local w.bytes).returning fun k => Value.signed w (signedOf w k)
  | float32 => exact (number_local 4).returning fun k => Value.float32 (UInt32.ofNat k)
  | float64 => exact (number_local 8).returning fun k => Value.float64 (UInt64.ofNat k)
  | text s => exact (size_local s).bind fun k => (piece_local k).returning Value.text
  | binary s => exact (size_local s).bind fun k => (piece_local k).returning Value.binary
  | list s => exact (size_local s).bind fun k => (h.times k).returning Value.list
  | map s =>
      exact (size_local s).bind fun k =>
        ((entryStep_local h).times k).returning fun es => Value.map (Entries.ofPairs es)
  | extension s => exact extension_local s
  | unused => exact local_error _

theorem valueStep_local (n : Nat) : Local valueStep n := by
  -- every level costs the byte of a code, so the room for the rest goes down with the levels
  induction n with
  | zero =>
      intro bs v rest h
      cases h
  | succ n ih =>
      intro bs v rest h
      obtain ⟨⟨c, tail⟩, hcode, hvalue⟩ := bind_eq_ok.1 h
      cases bs with
      | nil => cases hcode
      | cons b bs =>
          cases hcode
          obtain ⟨used, rfl, hagain⟩ := valueOf_local ih c (Form.ofCode c) hvalue
          refine ⟨c :: used, rfl, ?_⟩
          intro m hm s
          cases m with
          | zero => cases hm
          | succ m => exact hagain m (Nat.le_of_succ_le_succ hm) s

/-! ## Main statement -/

/-- **What is read off the front of an input is read in front of every other rest.** -/
theorem read_local {bs rest : Bytes} {v : Value} (h : read bs = .ok (v, rest)) :
    ∃ used, bs = used ++ rest ∧ ∀ s, read (used ++ s) = .ok (v, s) := by
  obtain ⟨used, hbs, hagain⟩ := valueStep_local bs.length h
  exact ⟨used, hbs, fun s => hagain _ (by simp) s⟩

/-- No error of the reader speaks of trailing bytes. -/
theorem Error.cause?_toFailure_ne (e : Error) : e.toFailure.cause? ≠ some .trailingBytes := by
  cases e <;> simp [toFailure, Failure.cause?]

end RoundTrip.Msgpack
