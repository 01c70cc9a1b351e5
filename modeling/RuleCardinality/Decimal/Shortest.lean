/-!
# The shortest decimal of a double

A double stands for all numbers that round to it. Its shortest decimal is the one with the fewest
digits among them, and of several with as many digits the one nearest to the double. It is found in
exact arithmetic: for one digit, two digits and so on the two neighbours of the double on the grid of
decimals with that many digits are tried. Seventeen digits always suffice.
-/

namespace RuleCardinality

/-- A whole number times a power of ten. -/
structure Decimal where
  digits : Nat
  exponent : Int

namespace Decimal

inductive Double where
  | nan
  | infinite (negative : Bool)
  /-- The number `mantissa * 2 ^ exponent`, with its sign. -/
  | finite (negative : Bool) (mantissa : Nat) (exponent : Int)

/-- The bit of a mantissa that is not stored, the one above the 52 stored ones. -/
def hiddenBit : Nat := 0x10000000000000

def Double.ofBits (bits : UInt64) : Double :=
  let negative : Bool := bits.toNat >>> 63 = 1
  let biased : Nat := (bits.toNat >>> 52) % 2048
  let fraction : Nat := bits.toNat % hiddenBit
  if biased = 2047 then (if fraction = 0 then .infinite negative else .nan)
  else if biased = 0 then .finite negative fraction (-1074)
  else .finite negative (hiddenBit + fraction) ((biased : Int) - 1075)

/-- A power with a possibly negative exponent, as a quotient. -/
def power (base : Nat) (exponent : Int) : Nat × Nat :=
  (Nat.pow base exponent.toNat, Nat.pow base (-exponent).toNat)

/-- The numbers that round to a double, four times enlarged: the lower end, the double and the upper
end in units of a quarter of its last place. Below a power of two the doubles lie twice as close. -/
def interval (mantissa : Nat) (exponent : Int) : Nat × Nat × Nat :=
  let below := if mantissa = hiddenBit ∧ -1074 < exponent then 1 else 2
  (4 * mantissa - below, 4 * mantissa, 4 * mantissa + 2)

/-- The decimal on the grid of multiples of `10 ^ place` that rounds to the double, if one does. -/
def onGrid (mantissa : Nat) (exponent place : Int) : Option Decimal :=
  let (low, mid, high) := interval mantissa exponent
  -- a number of quarters of the last place is compared with a multiple of the grid's unit
  let (up, down) := power 2 (exponent - 2)
  let (gridUp, gridDown) := power 10 place
  let scale := up * gridDown
  let unit := down * gridUp
  let floor := mid * scale / unit
  let even := mantissa % 2 = 0
  let fits (d : Nat) : Bool :=
    if even then low * scale ≤ d * unit && d * unit ≤ high * scale
    else low * scale < d * unit && d * unit < high * scale
  let rest := mid * scale - floor * unit
  match fits floor, fits (floor + 1) with
  | false, false => none
  | true, false => some ⟨floor, place⟩
  | false, true => some ⟨floor + 1, place⟩
  | true, true => some ⟨if 2 * rest < unit then floor else floor + 1, place⟩

/-- A power of ten above a positive double and less than a hundred times as large. -/
def above (mantissa : Nat) (exponent : Int) : Int := (mantissa.log2 + exponent) * 30103 / 100000 + 1

def search (mantissa : Nat) (exponent : Int) : Nat → Int → Decimal
  | 0, _ => ⟨0, 0⟩
  | tries + 1, place =>
    match onGrid mantissa exponent place with
    | some d => d
    | none => search mantissa exponent tries (place - 1)

/-- The shortest decimal that rounds to a positive double. -/
def shortest (mantissa : Nat) (exponent : Int) : Decimal :=
  search mantissa exponent 20 (above mantissa exponent)

end Decimal

end RuleCardinality
