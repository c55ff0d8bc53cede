/-!
# Non-negative binary64 values

A float literal is unsigned and finite, so it denotes a non-negative finite binary64 value. Such a
value is held as its bit pattern, which for non-negative values is also its rank in the order of
magnitude: a larger pattern is a larger value.

A pattern denotes `significand * 2 ^ scale / 2 ^ 1074`, where `2 ^ 1074` is the reciprocal of the
least positive value. The pattern of a value is `scale * 2 ^ 52 + significand` in every case, the
subnormal ones and the hidden leading bit included, which makes rounding a single quotient.
-/

namespace ArkLang

/-- The least bit pattern that does not denote a finite value. -/
def infinityBits : Nat :=
  2047 * Nat.pow 2 52

/-- A non-negative finite binary64 value, held as its bit pattern. -/
structure Binary64 where
  bits : Nat
  finite : bits < infinityBits
  deriving DecidableEq, Repr

/-- The quotient of two numbers rounded to the nearest integer, a tie to the even one. -/
def roundHalfEven (numerator denominator : Nat) : Nat :=
  let quotient := numerator / denominator
  let twice := 2 * (numerator % denominator)
  if twice < denominator then quotient
  else if denominator < twice then quotient + 1
  else quotient + quotient % 2

namespace Binary64

def zero : Binary64 :=
  ⟨0, by decide⟩

instance : Inhabited Binary64 :=
  ⟨zero⟩

/-- The reciprocal of the least positive value. -/
def unitDenominator : Nat :=
  Nat.pow 2 1074

/-- The power of two by which the significand is scaled. -/
def scale (x : Binary64) : Nat :=
  x.bits / Nat.pow 2 52 - 1

/-- The significand, with the hidden leading bit of a normal value. -/
def significand (x : Binary64) : Nat :=
  x.bits - x.scale * Nat.pow 2 52

/-- The value times `unitDenominator`, an exact integer. -/
def units (x : Binary64) : Nat :=
  x.significand * Nat.pow 2 x.scale

/-- The value nearest to `numerator / denominator`, a tie going to the even bit pattern, or
`none` when the ratio rounds beyond the largest finite value. -/
def ofRatio? (numerator denominator : Nat) : Option Binary64 :=
  let units := numerator * unitDenominator
  let scale := Nat.log2 (units / denominator) - 52
  let bits := scale * Nat.pow 2 52 + roundHalfEven units (denominator * Nat.pow 2 scale)
  if finite : bits < infinityBits then some ⟨bits, finite⟩ else none

/-- The value nearest to `digits * 10 ^ exponent`. -/
def ofDecimal? (digits : Nat) (exponent : Int) : Option Binary64 :=
  ofRatio? (digits * Nat.pow 10 exponent.toNat) (Nat.pow 10 (-exponent).toNat)

/-- Whether `digits * 10 ^ exponent` rounds beyond the largest finite value, which has 309 digits.
The number of digits before the point settles it for all but the numbers close to that value, so
that no power is formed whose size the exponent alone decides. -/
def isExceededBy (digits : Nat) (exponent : Int) : Bool :=
  let size := (Nat.toDigits 10 digits).length + exponent
  digits ≠ 0 && 308 < size && (310 < size || (ofDecimal? digits exponent).isNone)

end Binary64

end ArkLang
