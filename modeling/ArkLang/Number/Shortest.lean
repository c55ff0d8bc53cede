import ArkLang.Number.Binary64

/-!
# The shortest decimal text of a binary64 value

A value is written with the fewest significant digits that read back as the same value; of two
decimals of that length the nearer one is taken. Two layouts use these digits: the positional one,
for source text and messages, which never has an exponent, and the one of C literals, which has a
fraction always and an exponent for very large and very small values.
-/

namespace ArkLang

/-- The number `digits * 10 ^ exponent`. -/
structure Decimal where
  digits : Nat
  exponent : Int
  deriving DecidableEq, Repr

namespace Decimal

/-- Drops the trailing zeros of the digits, at most `limit` of them. -/
def trim : (limit : Nat) → Decimal → Decimal
  | 0, d => d
  | limit + 1, d =>
    if d.digits ≠ 0 ∧ d.digits % 10 = 0 then trim limit ⟨d.digits / 10, d.exponent + 1⟩ else d

/-- The digits as text, without an exponent. -/
def digitText (d : Decimal) : List Char :=
  Nat.toDigits 10 d.digits

/-- The positional text: no exponent, no superfluous zero. -/
def positional (d : Decimal) : List Char :=
  let ds := d.digitText
  if 0 ≤ d.exponent then
    ds ++ List.replicate d.exponent.toNat '0'
  else
    let places := (-d.exponent).toNat
    let padded := List.replicate (places + 1 - ds.length) '0' ++ ds
    padded.take (padded.length - places) ++ '.' :: padded.drop (padded.length - places)

/-- The text with one digit before the point and a decimal exponent. -/
def scientific (d : Decimal) : List Char :=
  let ds := d.digitText
  let exponent := d.exponent + (ds.length - 1 : Nat)
  let mantissa := match ds with
    | [] => ['0']
    | [c] => [c]
    | c :: cs => c :: '.' :: cs
  mantissa ++ 'e' :: (toString exponent).toList

end Decimal

namespace Binary64

/-- Whether a decimal reads back as `x`. -/
def readsBack (x : Binary64) (d : Decimal) : Bool :=
  ofDecimal? d.digits d.exponent == some x

/-- The number of digits before the decimal point; zero or negative for values below one. The
factor `10 ^ 400` is larger than the reciprocal of every positive value. -/
def magnitude (x : Binary64) : Int :=
  ((Nat.toDigits 10 (x.units * Nat.pow 10 400 / unitDenominator)).length : Int) - 400

/-- The decimal with its last digit at `10 ^ exponent` that reads back as `x`: of the two
neighbours of `x` on that grid, the nearer one that does. -/
def onGrid? (x : Binary64) (exponent : Int) : Option Decimal :=
  let numerator := x.units * Nat.pow 10 (-exponent).toNat
  let denominator := unitDenominator * Nat.pow 10 exponent.toNat
  let below : Decimal := ⟨numerator / denominator, exponent⟩
  let above : Decimal := ⟨numerator / denominator + 1, exponent⟩
  let nearer :=
    if 2 * (numerator % denominator) < denominator then [below, above] else [above, below]
  nearer.find? x.readsBack

def exact (x : Binary64) : Decimal :=
  ⟨x.units * Nat.pow 5 1074, -1074⟩

/-- The decimal with the fewest digits that reads back as `x`. Seventeen digits always suffice. -/
def shortest (x : Binary64) : Decimal :=
  if x.bits = 0 then ⟨0, 0⟩
  else
    let grids := (List.range 17).map fun (n : Nat) => x.magnitude - 1 - (n : Int)
    ((grids.findSome? x.onGrid?).getD x.exact).trim 2000

/-- The positional text: the shortest digits, no exponent, and no point for an integral value. -/
def positionalText (x : Binary64) : String :=
  String.ofList x.shortest.positional

/-- The text with a fraction or an exponent: positional from `10 ^ -4` up to `10 ^ 16`, with `.0`
for an integral value, and scientific outside that range. -/
def literalText (x : Binary64) : String :=
  let d := x.shortest
  let tooLarge := unitDenominator * Nat.pow 10 16 ≤ x.units
  let tooSmall := x.units ≠ 0 ∧ x.units * Nat.pow 10 4 < unitDenominator
  if tooLarge ∨ tooSmall then String.ofList d.scientific
  else if 0 ≤ d.exponent then String.ofList (d.positional ++ ['.', '0'])
  else String.ofList d.positional

end Binary64

end ArkLang
