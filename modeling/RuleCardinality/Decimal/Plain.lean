import RuleCardinality.Decimal.Shortest

/-!
# Doubles as text

Two written forms of the shortest decimal of a double. The plain form has no exponent and no point
unless there is something behind it. The data form always shows that the number is not a whole number
by type: by a point, or by an exponent where the plain form would be long.
-/

namespace RuleCardinality.Decimal

/-- The digits of a decimal before and after the point. -/
def around (d : Decimal) : String × String :=
  let digits := (toString d.digits).toList
  match d.exponent with
  | .ofNat zeros => (String.ofList (digits ++ List.replicate zeros '0'), "")
  | .negSucc n =>
    let places := n + 1
    let padded := List.replicate (places + 1 - digits.length) '0' ++ digits
    let whole := padded.length - places
    (String.ofList (padded.take whole), String.ofList (padded.drop whole))

/-- The sign and the form of a finite number, given the form of a positive one. -/
def signed (negative : Bool) (mantissa : Nat) (exponent : Int) (form : Decimal → String) : String :=
  (if negative then "-" else "") ++
    form (if mantissa = 0 then ⟨0, 0⟩ else shortest mantissa exponent)

/-- The plain form: digits only, such as `1.5`, `0.00003`, `-0` and `1000000000000000000000`. -/
def plain (x : Float) : String :=
  match Double.ofBits x.toBits with
  | .nan => "NaN"
  | .infinite negative => if negative then "-inf" else "inf"
  | .finite negative mantissa exponent =>
    signed negative mantissa exponent fun d =>
      let (whole, rest) := around d
      if rest.isEmpty then whole else whole ++ "." ++ rest

/-- The data form: `1.0`, `0.25`, `1e21`, `5e-324`; a number that is none has the form `null`. -/
def data (x : Float) : String :=
  match Double.ofBits x.toBits with
  | .nan | .infinite _ => "null"
  | .finite negative mantissa exponent =>
    signed negative mantissa exponent fun d =>
      let size : Int := (toString d.digits).length + d.exponent
      if -5 < size ∧ size ≤ 16 then
        let (whole, rest) := around d
        whole ++ "." ++ (if rest.isEmpty then "0" else rest)
      else toString d.digits ++ "e" ++ toString d.exponent

end RuleCardinality.Decimal
