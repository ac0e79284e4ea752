/-!
# Rounding to binary fractions

Ratios of natural numbers are rounded to the nearest number `m * 2 ^ q` whose mantissa `m` has at
most 53 bits; a ratio half way between two of them goes to the even mantissa.  The arithmetic is
exact throughout.
-/

namespace MayAlias.Decimal

/-- The number `mantissa * 2 ^ exponent`. -/
structure Binary where
  mantissa : Nat
  exponent : Int
deriving DecidableEq

/-- The quotient rounded to the nearest natural number, a half to the even neighbour. -/
def roundDiv (num den : Nat) : Nat :=
  let q := num / den
  let r := num % den
  if den < 2 * r ∨ (2 * r = den ∧ q % 2 = 1) then q + 1 else q

/-- The ratio `num / den` in units of `2 ^ e`, as a numerator and a denominator. -/
def inUnits (num den : Nat) (e : Int) : Nat × Nat :=
  (num * Nat.pow 2 (-e).toNat, den * Nat.pow 2 e.toNat)

namespace Binary

/-- The number of bits of a mantissa. -/
def precision : Nat := 53

/-- The nearest binary fraction to `num / den`. -/
def ofRatio (num den : Nat) : Binary :=
  if num = 0 then ⟨0, 0⟩
  else
    let guess : Int := (num.log2 : Int) - den.log2 - (precision - 1 : Nat)
    let (n, d) := inUnits num den guess
    let e := if n / d < Nat.pow 2 (precision - 1) then guess - 1 else guess
    let (n, d) := inUnits num den e
    let m := roundDiv n d
    if m = Nat.pow 2 precision then ⟨Nat.pow 2 (precision - 1), e + 1⟩ else ⟨m, e⟩

/-- The nearest binary fraction to a natural number, rounded down to a natural number again. -/
def roundNat (n : Nat) : Nat :=
  let b := ofRatio n 1
  b.mantissa * Nat.pow 2 b.exponent.toNat / Nat.pow 2 (-b.exponent).toNat

end Binary

end MayAlias.Decimal
