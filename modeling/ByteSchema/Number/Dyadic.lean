/-!
# ByteSchema.Number.Dyadic

Doubles as exact numbers. A finite double is `± mantissa * 2 ^ exponent`; this module reads that
form off the bits and rounds a quotient of integers back to the nearest double. All arithmetic in
between is on `Nat` and `Int`, so no step rounds twice.

* `Dyadic.ofFloat?` decodes, and has no answer for an infinity or a NaN.
* `Dyadic.nearest?` rounds to nearest, ties to even, and has no answer past the largest double.
-/

namespace ByteSchema

/-- The number `mantissa * 2 ^ exponent`, negated when `negative` holds. -/
structure Dyadic where
  negative : Bool
  mantissa : Nat
  exponent : Int
  deriving Repr, DecidableEq

namespace Dyadic

/-- The value of a finite double. -/
def ofFloat? (x : Float) : Option Dyadic :=
  let bits : Nat := x.toBits.toNat
  let fraction : Nat := bits % Nat.pow 2 52
  let biased : Nat := bits / Nat.pow 2 52 % Nat.pow 2 11
  let negative := bits / Nat.pow 2 63 == 1
  if biased = 2047 then none
  else if biased = 0 then some ⟨negative, fraction, -1074⟩
  else some ⟨negative, fraction + Nat.pow 2 52, (biased : Int) - 1075⟩

/-- Give the integer `n` the sign of `d`. -/
def signed (d : Dyadic) (n : Nat) : Int := if d.negative then -(n : Int) else n

/-- The value as an integer, if it has no fractional part. -/
def toInt? (d : Dyadic) : Option Int :=
  if 0 ≤ d.exponent then some (d.signed (d.mantissa * Nat.pow 2 d.exponent.toNat))
  else
    let unit := Nat.pow 2 (-d.exponent).toNat
    if d.mantissa % unit = 0 then some (d.signed (d.mantissa / unit)) else none

/-- How an integer stands to the value of `d`, decided exactly. -/
def compareInt (n : Int) (d : Dyadic) : Ordering :=
  if 0 ≤ d.exponent then compare n (d.signed (d.mantissa * Nat.pow 2 d.exponent.toNat))
  else compare (n * (Nat.pow 2 (-d.exponent).toNat : Nat)) (d.signed d.mantissa)

end Dyadic

/-- `num / den` rounded to the nearest integer, a half going to the even neighbour. -/
def roundHalfEven (num den : Nat) : Nat :=
  let low := num / den
  let rest := num % den
  if 2 * rest < den then low
  else if den < 2 * rest then low + 1
  else low + low % 2

/-- The exponent `e` with `2 ^ e ≤ num / den < 2 ^ (e + 1)`, for positive `num` and `den`. -/
def quotientLog2 (num den : Nat) : Int :=
  let guess : Int := (num.log2 : Int) - den.log2
  let below :=
    if 0 ≤ guess then num < den * Nat.pow 2 guess.toNat
    else num * Nat.pow 2 (-guess).toNat < den
  if below then guess - 1 else guess

namespace Dyadic

/-- The double nearest to `± num / den`, ties to even; none when it lies past the largest double.
`den` is positive. -/
def nearest? (negative : Bool) (num den : Nat) : Option Float :=
  let sign := if negative then Nat.pow 2 63 else 0
  if num = 0 then some (Float.ofBits (UInt64.ofNat sign))
  else
    let unit := max (quotientLog2 num den - 52) (-1074)
    let count :=
      if 0 ≤ unit then roundHalfEven num (den * Nat.pow 2 unit.toNat)
      else roundHalfEven (num * Nat.pow 2 (-unit).toNat) den
    let bits := (unit + 1074).toNat * Nat.pow 2 52 + count
    if 2047 * Nat.pow 2 52 ≤ bits then none
    else some (Float.ofBits (UInt64.ofNat (sign + bits)))

end Dyadic

end ByteSchema
