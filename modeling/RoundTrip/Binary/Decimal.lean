import RoundTrip.Binary.Format

/-!
# Decimal numerals of binary numbers

Reading rounds a decimal numeral to the nearest number of a format. Writing takes the
fewest digits that read back as the same number and, among those, the numeral nearest to
it; where the decimal point goes is a matter of the layout.

Main definitions: `Format.ofDigits`, `Format.shortest`, `Decimal.positional`,
`Decimal.scientific`.
-/

set_option autoImplicit false

namespace RoundTrip.Binary

/-! ## Reading -/

/-- The number with the given decimal digits, most significant first. -/
def digitsToNat (ds : List Nat) : Nat := ds.foldl (fun n d => 10 * n + d) 0

/-- No number of a format up to 64 bits reaches `10 ^ decimalReach`, and all below its
inverse round to zero. -/
def decimalReach : Int := 400

/-- The pattern nearest to the numeral with the given digits times `10 ^ exponent`. -/
def Format.ofDigits (f : Format) (ds : List Nat) (exponent : Int) : Nat :=
  let ds := ds.dropWhile (· == 0)
  let top := ds.length + exponent
  if ds.isEmpty ∨ top < -decimalReach then 0
  else if decimalReach < top then f.infinityBits
  else if 0 ≤ exponent then f.roundRatio (digitsToNat ds * Nat.pow 10 exponent.toNat) 1
  else f.roundRatio (digitsToNat ds) (Nat.pow 10 (-exponent).toNat)

/-! ## Shortest numerals -/

/-- The decimal number `digits * 10 ^ exponent`. -/
structure Decimal where
  digits : Nat
  exponent : Int
  deriving DecidableEq, Repr

/-- The decimal numbers on one grid against the interval of reals that round to a binary
number. All fields are scaled by a common factor. -/
structure Grid where
  /-- The distance of two points of the grid. -/
  unit : Nat
  /-- The binary number. -/
  value : Nat
  /-- The lower end of the interval. -/
  lower : Nat
  /-- The upper end of the interval. -/
  upper : Nat
  /-- The ends belong to the interval. -/
  closed : Bool

namespace Grid

/-- A multiple of the unit lies in the interval. -/
def holds (g : Grid) (d : Nat) : Bool :=
  let p := d * g.unit
  if g.closed then decide (g.lower ≤ p ∧ p ≤ g.upper) else decide (g.lower < p ∧ p < g.upper)

/-- The multiple of the unit in the interval that is nearest to the number, the even one of
two that are equally near. -/
def hit? (g : Grid) : Option Nat :=
  let d := g.value / g.unit
  let r := g.value % g.unit
  match g.holds d, g.holds (d + 1) with
  | false, false => none
  | true, false => some d
  | false, true => some (d + 1)
  | true, true =>
      some (if 2 * r < g.unit ∨ (2 * r = g.unit ∧ d % 2 = 0) then d else d + 1)

end Grid

/-- The grid of multiples of `10 ^ e` against the number `c * 2 ^ q`. The interval reaches
half way to the neighbours, and the lower neighbour of a power of two is nearer. -/
def Format.grid (f : Format) (c : Nat) (q e : Int) : Grid :=
  let scale := Nat.pow 2 (q - 2).toNat * Nat.pow 10 (-e).toNat
  let near := c = Nat.pow 2 f.fractionBits ∧ f.minExponent < q
  { unit := Nat.pow 10 e.toNat * Nat.pow 2 (2 - q).toNat
    value := 4 * c * scale
    lower := (4 * c - if near then 1 else 2) * scale
    upper := (4 * c + 2) * scale
    closed := c % 2 == 0 }

/-- The first hit on the grids of `10 ^ e`, `10 ^ (e - 1)` and so on, for `fuel` grids. -/
def Format.shortestFrom (f : Format) (c : Nat) (q : Int) : (fuel : Nat) → Int → Decimal
  | 0, e => ⟨(f.grid c q e).value / (f.grid c q e).unit, e⟩
  | fuel + 1, e =>
      match (f.grid c q e).hit? with
      | some d => ⟨d, e⟩
      | none => f.shortestFrom c q fuel (e - 1)

/-- The decimal number with the fewest digits that reads back as `c * 2 ^ q`. -/
def Format.shortest (f : Format) (c : Nat) (q : Int) : Decimal :=
  -- the number is below `10 ^ top`
  let top := ((c.log2 : Int) + 1 + q) * 30103 / 100000 + 1
  f.shortestFrom c q 22 top

/-! ## Layouts -/

/-- Digits with the point where it belongs and zeros up to it. -/
def Decimal.positional (d : Decimal) : String :=
  let ds := Nat.toDigits 10 d.digits
  if 0 ≤ d.exponent then String.ofList (ds ++ List.replicate d.exponent.toNat '0')
  else
    let places := (-d.exponent).toNat
    if places < ds.length then
      String.ofList (ds.take (ds.length - places) ++ '.' :: ds.drop (ds.length - places))
    else String.ofList ('0' :: '.' :: List.replicate (places - ds.length) '0' ++ ds)

/-- The exponent of the first digit. -/
def Decimal.magnitude (d : Decimal) : Int := (Nat.toDigits 10 d.digits).length - 1 + d.exponent

/-- One digit, the point and the others, then the exponent with its sign and at least two
digits. -/
def Decimal.scientific (d : Decimal) : String :=
  let ds := Nat.toDigits 10 d.digits
  let e := d.magnitude
  let exponent := Nat.toDigits 10 e.natAbs
  String.ofList (ds.take 1 ++ (if 1 < ds.length then '.' :: ds.drop 1 else [])
    ++ 'e' :: (if e < 0 then '-' else '+')
    :: (if exponent.length < 2 then '0' :: exponent else exponent))

end RoundTrip.Binary
