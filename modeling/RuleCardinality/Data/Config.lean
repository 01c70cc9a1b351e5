import RuleCardinality.Config
import RuleCardinality.Json.Record

/-!
# Settings as data

The settings are a record in which every field has its standard value if it is not given.
-/

namespace RuleCardinality.Config

/-- The settings that data stands for, whether they can be used or not. -/
def ofJson? (j : Json) : Option Config := do
  let r ← j.record? ["base_tries", "no_improvement_divisor", "no_improvement_floor", "damping",
    "exhaustive_limit", "seed"]
  let c := standard
  return {
    baseTries := ← r.standard "base_tries" Json.nat? c.baseTries
    noImprovementDivisor := ← r.standard "no_improvement_divisor" Json.nat? c.noImprovementDivisor
    noImprovementFloor := ← r.standard "no_improvement_floor" Json.nat? c.noImprovementFloor
    damping := ← r.standard "damping" Json.real? c.damping
    exhaustiveLimit := ← r.standard "exhaustive_limit" Json.nat? c.exhaustiveLimit
    seed := (← r.standard "seed" (Json.nullable? Json.nat?) none).map UInt64.ofNat }

end RuleCardinality.Config
