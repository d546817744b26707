import Mathlib.Algebra.Order.Ring.Nat
import RoundTrip.Proofs.Reading.Words
import RoundTrip.Protobuf.Wire

/-!
# Fields that are handed on

A field that has been read keeps the bytes of its payload. Written again, with its tag in the
shortest form, it is read as the same field (`Legible`), and so is a row of such fields: the reader
of fields is local, groups included, and a payload is exactly the bytes that were used for it.

Main statements: `legible_of_fields`, all fields that are read are legible; `fields_flatMap`, a row
of legible fields is read as that row.
-/

set_option autoImplicit false

namespace RoundTrip.Protobuf

open Step

variable {n : Nat}

/-! ## Numbers -/

/-- The last of `left + 1` groups carries one bit, so `2 * 128 ^ left` numbers fit. -/
theorem reads_varintLoop {left k : Nat} (h : k < 2 * 128 ^ left) (weight value : Nat)
    (raw : Bytes) :
    Reads (varintLoop (left + 1) weight value raw) (varintBytesLoop (left + 1) k)
      (value + k * weight, raw.reverse ++ varintBytesLoop (left + 1) k) := by
  intro s
  induction left generalizing k weight value raw with
  | zero =>
      rw [Nat.pow_zero] at h
      have hk : k = 0 ∨ k = 1 := by omega
      rcases hk with rfl | rfl
      · simp [varintBytesLoop, varintLoop]
      · simp [varintBytesLoop, varintLoop]
  | succ left ih =>
      rw [varintBytesLoop]
      split
      · rename_i hsmall
        have hbyte : (UInt8.ofNat k).toNat = k := by simp; omega
        have hlow : UInt8.ofNat k < 0x80 := by
          rw [UInt8.lt_iff_toNat_lt, hbyte]
          exact hsmall
        rw [List.singleton_append, varintLoop, if_pos hlow, if_neg (by omega), hbyte]
        simp
      · have hbyte : (UInt8.ofNat (k % 128 + 128)).toNat = k % 128 + 128 := by simp; omega
        have hhigh : ¬ UInt8.ofNat (k % 128 + 128) < 0x80 := by
          rw [UInt8.lt_iff_toNat_lt, hbyte]
          exact Nat.not_lt.2 (Nat.le_add_left ..)
        have hrest : k / 128 < 2 * 128 ^ left := by
          rw [Nat.div_lt_iff_lt_mul (by decide), Nat.mul_assoc, ← Nat.pow_succ]
          exact h
        have hvalue : value + k % 128 * weight + k / 128 * (weight * 128) = value + k * weight := by
          have hk : k * weight = (128 * (k / 128) + k % 128) * weight := by rw [Nat.div_add_mod]
          rw [hk, Nat.add_mul]
          have hassoc : k / 128 * (weight * 128) = 128 * (k / 128) * weight := by ac_rfl
          omega
        rw [List.cons_append, varintLoop, if_neg hhigh, ih hrest, hbyte, Nat.add_sub_cancel, hvalue]
        simp

/-- A number of 64 bits is read back from its bytes. -/
theorem reads_varint {k : Nat} (h : k < wordCount) :
    Reads varint (varintBytes k) (k, varintBytes k) := by
  have hfits : k < 2 * 128 ^ 9 := h
  have hread := reads_varintLoop hfits 1 0 []
  rwa [Nat.mul_one, Nat.zero_add] at hread

theorem varintBytes_ne_nil (k : Nat) : varintBytes k ≠ [] := by
  rw [varintBytes, varintBytesLoop]
  split <;> simp

theorem varintLoop_local (left weight value : Nat) (raw : Bytes) :
    Local (fun _ => varintLoop left weight value raw) n := by
  induction left generalizing weight value raw with
  | zero =>
      intro bs a rest h
      cases h
  | succ left ih =>
      apply local_of_cons
      · intro a rest h
        cases h
      · intro b
        simp only [varintLoop]
        apply local_ite
        · intro _
          apply local_ite
          · exact fun _ => local_error _
          · exact fun _ => local_pure _
        · exact fun _ => ih _ _ _

theorem varint_local : Local (fun _ => varint) n := varintLoop_local 10 1 0 []

/-- The bytes that come with a number are those that were read. -/
theorem append_of_varintLoop {left weight value k : Nat} {raw raw' bs rest : Bytes}
    (h : varintLoop left weight value raw bs = .ok ((k, raw'), rest)) :
    raw.reverse ++ bs = raw' ++ rest := by
  induction left generalizing weight value raw bs with
  | zero => cases h
  | succ left ih =>
      cases bs with
      | nil => cases h
      | cons b bs =>
          rw [varintLoop] at h
          split at h
          · split at h
            · cases h
            · cases h
              simp
          · rw [← ih h]
            simp

theorem append_of_varint {k : Nat} {raw bs rest : Bytes} (h : varint bs = .ok ((k, raw), rest)) :
    bs = raw ++ rest :=
  append_of_varintLoop h

/-! ## Tags -/

theorem reads_tag {largest number code : Nat} (hpos : 0 < number) (hle : number ≤ largest)
    (hcode : code < 8) (hfits : largest < 0x100000000) :
    Reads (tagStep largest) (tag number code) ((number, code), tag number code) := by
  have hnumber : (number * 8 + code) / 8 = number := by omega
  have hrest : (number * 8 + code) % 8 = code := by omega
  have hvarint : Reads varint (tag number code) (number * 8 + code, tag number code) := by
    apply reads_varint
    simp only [wordCount]
    omega
  intro s
  refine bind_eq_ok.2 ⟨_, hvarint s, ?_⟩
  simp only [hnumber, hrest]
  rw [if_neg (by omega)]
  rfl

theorem tagStep_local (largest : Nat) : Local (fun _ => tagStep largest) n := by
  apply varint_local.bind
  rintro ⟨k, raw⟩
  apply local_ite
  · exact fun _ => local_error _
  · exact fun _ => local_pure _

theorem of_tagStep {largest number code : Nat} {mark bs rest : Bytes}
    (h : tagStep largest bs = .ok (((number, code), mark), rest)) :
    bs = mark ++ rest ∧ 0 < number ∧ number ≤ largest := by
  obtain ⟨⟨⟨k, raw⟩, tail⟩, hvarint, hresult⟩ := bind_eq_ok.1 h
  dsimp only at hresult
  split at hresult
  · cases hresult
  · cases hresult
    exact ⟨append_of_varint hvarint, by omega, by omega⟩

/-- A tag that was found is found again, and it is not empty. -/
theorem reads_of_tagStep {largest : Nat} {head : Nat × Nat} {mark bs rest : Bytes}
    (h : tagStep largest bs = .ok ((head, mark), rest)) :
    Reads (tagStep largest) mark (head, mark) ∧ mark ≠ [] := by
  obtain ⟨used, hused, hagain⟩ := tagStep_local (n := mark.length) largest h
  obtain rfl : mark = used := List.append_cancel_right ((of_tagStep h).1.symm.trans hused)
  have hreads : Reads (tagStep largest) mark (head, mark) := hagain _ (Nat.le_refl _)
  refine ⟨hreads, ?_⟩
  rintro rfl
  cases hreads.eq_ok

/-! ## Payloads -/

theorem take_local (length : Nat) : Local (fun _ => take length) n := by
  apply local_of_split length
  · intro bs r hsplit
    simp only [take, hsplit]
  · intro bs hsplit
    simp only [take, hsplit]
    exact ⟨_, rfl⟩

theorem of_take {length : Nat} {part bs rest : Bytes} (h : take length bs = .ok (part, rest)) :
    bs = part ++ rest ∧ part.length = length := by
  rw [take] at h
  split at h
  · rename_i hsplit
    cases h
    exact Bytes.append_of_split hsplit
  · cases h

theorem reads_take (bs : Bytes) : Reads (take bs.length) bs bs := by
  intro s
  rw [take, Bytes.split_append]

/-- The bytes of a group are those up to its end mark. -/
theorem append_of_groupLoop {payload : Nat → Nat → Step Error (Payload × Bytes)}
    (hpayload : ∀ number code bs p raw rest,
      payload number code bs = .ok ((p, raw), rest) → bs = raw ++ rest)
    {number fuel : Nat} {done : List Bytes} {raw bs rest : Bytes}
    (h : groupLoop payload number fuel done bs = .ok (raw, rest)) :
    done.reverse.flatten ++ bs = raw ++ rest := by
  induction fuel generalizing done bs with
  | zero => cases h
  | succ fuel ih =>
      rw [groupLoop] at h
      split at h
      · cases h
      · rename_i htag
        obtain ⟨rfl, -, -⟩ := of_tagStep htag
        split at h
        · split at h
          · cases h
            simp
          · cases h
        · split at h
          · cases h
          · rename_i hinner
            obtain rfl := hpayload _ _ _ _ _ _ hinner
            rw [← ih h]
            simp

/-- A payload comes with the bytes that were used for it. -/
theorem of_payloadStep {size levels number code : Nat} {p : Payload} {raw bs rest : Bytes}
    (h : payloadStep size levels number code bs = .ok ((p, raw), rest)) :
    bs = raw ++ rest ∧ p.code = code := by
  -- only a group goes down a level, so all other codes are the same on every level
  induction levels using Nat.strongRecOn generalizing number code p raw bs rest with
  | ind levels ih =>
      rw [payloadStep.eq_def] at h
      split at h
      · obtain ⟨⟨⟨k, raw⟩, tail⟩, hvarint, hresult⟩ := bind_eq_ok.1 h
        cases hresult
        exact ⟨append_of_varint hvarint, rfl⟩
      · obtain ⟨⟨raw, tail⟩, htake, hresult⟩ := bind_eq_ok.1 h
        cases hresult
        exact ⟨(of_take htake).1, rfl⟩
      · obtain ⟨⟨⟨k, mark⟩, tail⟩, hvarint, hrest⟩ := bind_eq_ok.1 h
        obtain ⟨⟨contents, tail⟩, htake, hresult⟩ := bind_eq_ok.1 hrest
        cases hresult
        obtain rfl := append_of_varint hvarint
        obtain ⟨rfl, -⟩ := of_take htake
        exact ⟨(List.append_assoc ..).symm, rfl⟩
      · cases h
      · rename_i levels
        obtain ⟨⟨raw, tail⟩, hgroup, hresult⟩ := bind_eq_ok.1 h
        cases hresult
        refine ⟨append_of_groupLoop ?_ hgroup, rfl⟩
        intro number code bs p raw rest hinner
        exact (ih levels (Nat.lt_succ_self levels) hinner).1
      · obtain ⟨⟨raw, tail⟩, htake, hresult⟩ := bind_eq_ok.1 h
        cases hresult
        exact ⟨(of_take htake).1, rfl⟩
      · cases h

/-- A round uses a tag, and the payload behind it unless it is the end mark. -/
theorem groupLoop_round {payload : Nat → Nat → Nat → Step Error (Payload × Bytes)} {number : Nat}
    (hpayload : ∀ inner code, Local (fun m => payload m inner code) n) (k : Nat)
    (done : List Bytes) (bs raw rest : Bytes)
    (h : groupLoop (payload n) number (k + 1) done bs = .ok (raw, rest)) :
    Round (fun m => groupLoop (payload m) number) n k done bs raw rest := by
  rw [groupLoop] at h
  split at h
  · cases h
  · rename_i inner code mark tail htag
    obtain ⟨htag', hmark⟩ := reads_of_tagStep htag
    obtain ⟨rfl, -, -⟩ := of_tagStep htag
    split at h
    · rename_i hcode
      split at h
      · rename_i hnumber
        cases h
        refine .last mark hmark rfl ?_
        intro m _ j s
        simp only [groupLoop, htag' s, if_pos hcode, if_pos hnumber]
      · cases h
    · rename_i hcode
      split at h
      · cases h
      · rename_i p contents tail' hinner
        obtain ⟨used, rfl, hagain⟩ := hpayload inner code hinner
        refine .next (mark ++ used) (contents :: mark :: done) tail' (by simp [hmark]) (by simp) h
          ?_
        intro m hm j s
        rw [List.length_append] at hm
        have hinner' := hagain m (by omega) s
        simp only [List.append_assoc, groupLoop, htag' (used ++ s), if_neg hcode, hinner']

theorem payloadStep_local (levels number code : Nat) :
    Local (fun m => payloadStep m levels number code) n := by
  induction levels using Nat.strongRecOn generalizing number code with
  | ind levels ih =>
      match code with
      | 0 =>
          have hvarint := (varint_local (n := n)).returning fun r => (Payload.varint r.1, r.2)
          exact hvarint.congr fun m bs => by rw [payloadStep]; rfl
      | 1 =>
          have hfixed : Local (fun _ bs => take 8 bs >>= fun p =>
              .ok ((Payload.fixed64 (Bytes.toNatLittle p.1), p.1), p.2)) n :=
            (take_local 8).returning fun raw => (Payload.fixed64 (Bytes.toNatLittle raw), raw)
          exact hfixed.congr fun m bs => by rw [payloadStep]; rfl
      | 2 =>
          have hbytes : Local (fun _ bs => varint bs >>= fun p =>
              take p.1.1 p.2 >>= fun q => .ok ((Payload.bytes q.1, p.1.2 ++ q.1), q.2)) n :=
            varint_local.bind fun r =>
              (take_local r.1).returning fun contents => (Payload.bytes contents, r.2 ++ contents)
          exact hbytes.congr fun m bs => by rw [payloadStep]; rfl
      | 3 =>
          cases levels with
          | zero => exact local_error _
          | succ levels =>
              have hloop : Local
                  (fun m => groupLoop (payloadStep m levels) number m []) n := by
                apply local_of_rounds (fun m => groupLoop (payloadStep m levels) number)
                · intro done bs raw rest h
                  cases h
                · exact groupLoop_round fun inner code =>
                    ih levels (Nat.lt_succ_self levels) inner code
              exact hloop.returning fun raw => (Payload.group, raw)
      | 4 => exact (local_error Error.malformed).congr fun m bs => by simp [payloadStep]
      | 5 =>
          have hfixed : Local (fun _ bs => take 4 bs >>= fun p =>
              .ok ((Payload.fixed32 (Bytes.toNatLittle p.1), p.1), p.2)) n :=
            (take_local 4).returning fun raw => (Payload.fixed32 (Bytes.toNatLittle raw), raw)
          exact hfixed.congr fun m bs => by rw [payloadStep]; rfl
      | code + 6 => exact (local_error Error.malformed).congr fun m bs => by simp [payloadStep]

/-! ## Rows of fields -/

/-- A field that is read from its own bytes, whatever follows them. -/
structure Legible (f : Field) : Prop where
  number_pos : 0 < f.number
  number_le : f.number ≤ maxNumber
  reads : ∀ size, f.raw.length ≤ size →
    Reads (payloadStep size maxGroups f.number f.payload.code) f.raw (f.payload, f.raw)

theorem Payload.code_lt (p : Payload) : p.code < 8 := by
  cases p <;> simp [code]

theorem Field.bytes_ne_nil (f : Field) : f.bytes ≠ [] := by
  simp [Field.bytes, tag, varintBytes_ne_nil]

theorem legible_of_fieldStep {size : Nat} {bs rest : Bytes} {f : Field}
    (h : fieldStep size bs = .ok (f, rest)) : Legible f := by
  obtain ⟨⟨⟨⟨number, code⟩, mark⟩, tail⟩, htag, hrest⟩ := bind_eq_ok.1 h
  obtain ⟨⟨⟨p, raw⟩, tail'⟩, hpayload, hresult⟩ := bind_eq_ok.1 hrest
  cases hresult
  obtain ⟨-, hpos, hle⟩ := of_tagStep htag
  obtain ⟨hraw, rfl⟩ := of_payloadStep hpayload
  obtain ⟨used, hused, hagain⟩ := payloadStep_local maxGroups number p.code hpayload
  -- the payload that was kept is what was used for it
  obtain rfl : raw = used := List.append_cancel_right (hraw.symm.trans hused)
  exact ⟨hpos, hle, hagain⟩

theorem Legible.reads_field {f : Field} (h : Legible f) {size : Nat} (hsize : f.raw.length ≤ size) :
    Reads (fieldStep size) f.bytes f := by
  have htag := reads_tag h.number_pos h.number_le f.payload.code_lt (by decide)
  exact htag.bind ((h.reads size hsize).returning fun r => Field.mk f.number r.1 r.2)

theorem legible_of_fieldsLoop {size fuel : Nat} {done fs : List Field} {bs : Bytes}
    (h : fieldsLoop size fuel done bs = .ok fs) (hdone : ∀ f ∈ done, Legible f) :
    ∀ f ∈ fs, Legible f := by
  induction fuel generalizing done bs with
  | zero =>
      cases bs with
      | nil =>
          cases h
          simpa using hdone
      | cons b bs => cases h
  | succ fuel ih =>
      cases bs with
      | nil =>
          cases h
          simpa using hdone
      | cons b bs =>
          rw [fieldsLoop] at h
          split at h
          · rename_i hfield
            exact ih h (List.forall_mem_cons.2 ⟨legible_of_fieldStep hfield, hdone⟩)
          · cases h

/-- **Every field that is read is legible.** -/
theorem legible_of_fields {bs : Bytes} {fs : List Field} (h : fields bs = .ok fs) :
    ∀ f ∈ fs, Legible f :=
  legible_of_fieldsLoop h (by simp)

theorem fieldsLoop_flatMap {size fuel : Nat} {done fs : List Field} (hfs : ∀ f ∈ fs, Legible f)
    (hsize : (fs.flatMap Field.bytes).length ≤ size) (hfuel : fs.length ≤ fuel) :
    fieldsLoop size fuel done (fs.flatMap Field.bytes) = .ok (done.reverse ++ fs) := by
  induction fs generalizing fuel done with
  | nil => cases fuel <;> simp [fieldsLoop]
  | cons f fs ih =>
      rw [List.forall_mem_cons] at hfs
      rw [List.flatMap_cons, List.length_append] at hsize
      rw [List.length_cons] at hfuel
      obtain ⟨fuel, rfl⟩ : ∃ k, fuel = k + 1 := ⟨fuel - 1, by omega⟩
      have hraw : f.raw.length ≤ size := by
        have hbytes : f.bytes.length = (tag f.number f.payload.code).length + f.raw.length :=
          List.length_append
        omega
      have hread := hfs.1.reads_field hraw (fs.flatMap Field.bytes)
      have hrest : fieldsLoop size fuel (f :: done) (fs.flatMap Field.bytes)
          = .ok ((f :: done).reverse ++ fs) :=
        ih hfs.2 (by omega) (Nat.le_of_succ_le_succ hfuel)
      rw [List.flatMap_cons]
      generalize hinput : f.bytes ++ fs.flatMap Field.bytes = input at hread
      cases input with
      | nil => exact absurd (List.append_eq_nil_iff.1 hinput).1 f.bytes_ne_nil
      | cons b bs =>
          rw [fieldsLoop, hread]
          simpa using hrest

/-- **A row of legible fields is read as that row.** -/
theorem fields_flatMap {fs : List Field} (h : ∀ f ∈ fs, Legible f) :
    fields (fs.flatMap Field.bytes) = .ok fs := by
  -- no field is empty, so there are at least as many bytes as fields
  have hfuel : fs.length ≤ (fs.flatMap Field.bytes).length := by
    clear h
    induction fs with
    | nil => exact Nat.le_refl 0
    | cons f fs ih =>
        have hpos := List.length_pos_iff.2 f.bytes_ne_nil
        rw [List.flatMap_cons, List.length_append, List.length_cons]
        omega
  exact fieldsLoop_flatMap h (Nat.le_refl _) hfuel

/-! ## Fields that are written -/

/-- A field of bytes. -/
def bytesField (number : Nat) (contents : Bytes) : Field :=
  ⟨number, .bytes contents, varintBytes contents.length ++ contents⟩

/-- A field of a number in groups of seven bits. -/
def varintField (number k : Nat) : Field := ⟨number, .varint k, varintBytes k⟩

/-- A field of a number of eight bytes. -/
def fixedField (number k : Nat) : Field := ⟨number, .fixed64 k, Bytes.littleEndian 8 k⟩

theorem bytes_bytesField (number : Nat) (contents : Bytes) :
    (bytesField number contents).bytes = lengthPrefixed number contents :=
  (List.append_assoc ..).symm

theorem legible_bytesField {number : Nat} {contents : Bytes} (hpos : 0 < number)
    (hle : number ≤ maxNumber) (hlength : contents.length < wordCount) :
    Legible (bytesField number contents) := by
  refine ⟨hpos, hle, ?_⟩
  intro size _
  have hcontents := (reads_take contents).returning fun part =>
    (Payload.bytes part, varintBytes contents.length ++ part)
  exact (reads_varint hlength).bind hcontents

theorem legible_varintField {number k : Nat} (hpos : 0 < number) (hle : number ≤ maxNumber)
    (hk : k < wordCount) : Legible (varintField number k) := by
  refine ⟨hpos, hle, ?_⟩
  intro size _
  exact (reads_varint hk).returning fun r => (Payload.varint r.1, r.2)

theorem legible_fixedField {number k : Nat} (hpos : 0 < number) (hle : number ≤ maxNumber)
    (hk : k < wordCount) : Legible (fixedField number k) := by
  refine ⟨hpos, hle, ?_⟩
  intro size _
  have hraw := (reads_take (Bytes.littleEndian 8 k)).returning fun raw =>
    (Payload.fixed64 (Bytes.toNatLittle raw), raw)
  have hfits : k < Nat.pow 256 8 := hk
  rw [Bytes.toNatLittle_littleEndian, Nat.mod_eq_of_lt hfits] at hraw
  exact hraw

end RoundTrip.Protobuf
