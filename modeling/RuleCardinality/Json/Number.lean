import RuleCardinality.Decimal.Nearest
import RuleCardinality.Json.Value
import RuleCardinality.WordSize

/-!
# Numbers read from data

A numeral is a sign, digits, perhaps a fraction and perhaps an exponent. One without fraction and
exponent that fits a word is a whole number. Any other is a floating point number: the digits that fit
a word, as a float, multiplied or divided by a power of ten, where the digits before the point and
those after it are each taken up to the first that no longer fits. A numeral that is too large for a
float stands for nothing.
-/

namespace RuleCardinality.Json

structure Numeral where
  negative : Bool
  whole : List Nat
  fraction : List Nat
  /-- Its sign and its digits. -/
  exponent : Option (Bool × List Nat)

/-- The leading digits whose number fits a word, and how many digits remain. -/
def significand : Nat → List Nat → Nat × Nat
  | n, [] => (n, 0)
  | n, d :: ds => if n * 10 + d < wordEnd then significand (n * 10 + d) ds else (n, ds.length + 1)

def tenPower (n : Nat) : Float := Decimal.nearest 1 n

/-- Scales a float by a power of ten; nothing if the result is infinite. -/
def scale (x : Float) (exponent : Int) : Option Float :=
  match exponent with
  | .ofNat n =>
    if n ≤ 308 then
      let y := x * tenPower n
      if y.isInf then none else some y
    else if x == 0 then some x else none
  | .negSucc n =>
    let down := n + 1
    if down ≤ 308 then some (x / tenPower down)
    else
      let rec divide : Nat → Float → Nat → Float
        | 0, x, _ => x
        | steps + 1, x, down =>
          if down ≤ 308 then x / tenPower down
          else if x == 0 then x
          else divide steps (x / tenPower 308) (down - 308)
      some (divide (down / 308 + 1) x down)

/-- The largest exponent that is computed with. -/
def exponentMax : Nat := 0x7FFFFFFF

def digitsNumber (ds : List Nat) : Nat := ds.foldl (fun n d => n * 10 + d) 0

def signedReal (negative : Bool) (x : Float) : Number := .real (if negative then -x else x)

/-- The number that a numeral stands for, if there is one. -/
def Numeral.value? (n : Numeral) : Option Number :=
  let (head, skippedWhole) := significand 0 n.whole
  if n.fraction.isEmpty ∧ n.exponent.isNone ∧ skippedWhole = 0 then
    if !n.negative then some (.natural head)
    else if head = 0 ∨ signedEnd < head then some (signedReal true (UInt64.ofNat head).toFloat)
    else some (.negative head)
  else
    let (mantissa, skipped) := significand head n.fraction
    let start : Int := skippedWhole - (n.fraction.length - skipped)
    let x := (UInt64.ofNat mantissa).toFloat
    match n.exponent with
    | none => (scale x start).map (signedReal n.negative)
    | some (down, ds) =>
      let e := digitsNumber ds
      if exponentMax < e then
        if mantissa ≠ 0 ∧ !down then none else some (signedReal n.negative 0)
      else (scale x (if down then start - e else start + e)).map (signedReal n.negative)

end RuleCardinality.Json
