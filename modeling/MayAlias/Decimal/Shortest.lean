import MayAlias.Decimal.Binary

/-!
# Shortest decimals

The text of a binary fraction is the decimal with the fewest digits that rounds to it, the nearest
of those, and the larger of two that are equally near.  It is written without an exponent.
-/

namespace MayAlias.Decimal

/-- The number `digits * 10 ^ exponent`. -/
structure Fraction where
  digits : Nat
  exponent : Int
deriving DecidableEq

/-- The multiple of `10 ^ k` that rounds to `b`, if there is one, and of two the nearer.

Everything is counted in quarters of `b`'s last place, times `den`: the number itself is
`4 * b.mantissa * den`, and the numbers that round to it reach half a place up and half a place
down, or a quarter down from a power of two. -/
def onGrid? (b : Binary) (k : Int) : Option Nat :=
  let step := 4 * Nat.pow 10 k.toNat * Nat.pow 2 (-b.exponent).toNat
  let den := Nat.pow 10 (-k).toNat * Nat.pow 2 b.exponent.toNat
  let value := 4 * b.mantissa * den
  let above := (4 * b.mantissa + 2) * den
  let below :=
    (4 * b.mantissa - (if b.mantissa = Nat.pow 2 (Binary.precision - 1) then 1 else 2)) * den
  let fits (c : Nat) : Bool :=
    if b.mantissa % 2 = 0 then below ≤ c * step ∧ c * step ≤ above
    else below < c * step ∧ c * step < above
  let down := value / step
  match fits down, fits (down + 1) with
  | true, false => some down
  | false, true => some (down + 1)
  | true, true =>
    if value - down * step < (down + 1) * step - value then some down else some (down + 1)
  | false, false => none

/-- Tries ever finer grids, from `10 ^ k` on. -/
def search (b : Binary) : Nat → Int → Fraction
  | 0, _ => ⟨0, 0⟩
  | n + 1, k =>
    match onGrid? b k with
    | some c => ⟨c, k⟩
    | none => search b n (k - 1)

/-- The shortest decimal that rounds to `b`. -/
def shortest (b : Binary) : Fraction :=
  if b.mantissa = 0 then ⟨0, 0⟩
  else
    let whole := b.mantissa * Nat.pow 2 b.exponent.toNat / Nat.pow 2 (-b.exponent).toNat
    -- a coarser grid than the first has no point below the number but zero
    search b ((Nat.toDigits 10 whole).length + 2 * (-b.exponent).toNat + 20)
      (Nat.toDigits 10 whole).length

/-- A decimal without an exponent and without superfluous zeros behind the point. -/
def Fraction.positional (d : Fraction) : String :=
  let cs := Nat.toDigits 10 d.digits
  if 0 ≤ d.exponent then
    String.ofList (cs ++ List.replicate (if d.digits = 0 then 0 else d.exponent.toNat) '0')
  else
    let places := (-d.exponent).toNat
    let padded := List.replicate (places + 1 - cs.length) '0' ++ cs
    let whole := padded.length - places
    String.ofList (padded.take whole ++ '.' :: padded.drop whole)

end MayAlias.Decimal
