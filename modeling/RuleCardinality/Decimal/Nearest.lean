import RuleCardinality.Decimal.Shortest

/-!
# The nearest double of a decimal

A decimal number is a whole number times a power of ten. Its nearest double is found in exact
arithmetic: the number is scaled by a power of two until it has 53 binary places, or as many as the
smallest exponent leaves, and rounded there; of two doubles that are equally near, the even one is
taken.
-/

namespace RuleCardinality.Decimal

/-- A quotient rounded to the nearest whole number, halves to the even one. -/
def roundDiv (num den : Nat) : Nat :=
  let q := num / den
  let twice := 2 * (num % den)
  if twice < den then q else if den < twice then q + 1 else q + q % 2

/-- The exponent of the last binary place of the double nearest to a quotient. -/
def lastPlace (num den : Nat) : Int :=
  let guess : Int := num.log2 - den.log2 - 52
  let tooLarge : Bool := num <<< (-guess).toNat < (hiddenBit * den) <<< guess.toNat
  max (if tooLarge then guess - 1 else guess) (-1074)

/-- The bits of the double nearest to a positive quotient; an infinity if it is too large. -/
def bitsOf (num den : Nat) : UInt64 :=
  let place := lastPlace num den
  let digits := roundDiv (num <<< (-place).toNat) (den <<< place.toNat)
  UInt64.ofNat (min ((place + 1074).toNat * hiddenBit + digits) (2047 * hiddenBit))

/-- The double nearest to `digits * 10 ^ exponent`. -/
def nearest (digits : Nat) (exponent : Int) : Float :=
  let magnitude : Int := (toString digits).length + exponent
  if digits = 0 ∨ magnitude < -330 then 0
  else if 310 < magnitude then Float.ofBits 0x7FF0000000000000
  else Float.ofBits (bitsOf (digits * Nat.pow 10 exponent.toNat) (Nat.pow 10 (-exponent).toNat))

end RuleCardinality.Decimal
