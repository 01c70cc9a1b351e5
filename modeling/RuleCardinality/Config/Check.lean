import RuleCardinality.Config
import RuleCardinality.Decimal.Plain
import RuleCardinality.Fault
import RuleCardinality.Text.Blank
import RuleCardinality.Text.Word

/-!
# Settings that can be used

The damping has to lie above 0 and at most at 1, and the divisor must not be zero; the damping is looked
at first. An environment variable can override the seed.
-/

namespace RuleCardinality.Config

/-- The `ENV_HEURISTIC_SEED` of config.rs:15. -/
def seedVariable : String := "CSVAL_HEURISTIC_SEED"

inductive Problem where
  | damping (value : Float)
  | divisor
  | seed (fault : Text.WordFault)

def Problem.message : Problem → String
  | .damping value => "damping must be in (0, 1], got " ++ Decimal.plain value
  | .divisor => "no_improvement_divisor must be positive"
  | .seed fault => seedVariable ++ " must be an unsigned integer: " ++ fault.message

def Problem.fault (p : Problem) : Fault := .invalidConfig p.message

/-- The first problem of some settings (`validate`, config.rs:148). -/
def problem? (c : Config) : Option Problem :=
  if ¬(0 < c.damping ∧ c.damping ≤ 1) then some (.damping c.damping)
  else if c.noImprovementDivisor = 0 then some .divisor
  else none

def validate (c : Config) : Except Fault Config :=
  match c.problem? with
  | some p => .error p.fault
  | none => .ok c

/-- The `with_overrides_from` of config.rs:127, given what the seed variable holds. -/
def override (c : Config) (held : Option String) : Except Fault Config :=
  match held with
  | none => .ok c
  | some s =>
    match Text.readWord (Text.trim s) with
    | .ok n => .ok { c with seed := some (UInt64.ofNat n) }
    | .error fault => .error (Problem.seed fault).fault

end RuleCardinality.Config
