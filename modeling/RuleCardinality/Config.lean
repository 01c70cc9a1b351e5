import RuleCardinality.Saturating

/-!
# Search settings

The budget of the search grows with the size of the object and the number of nodes that compete. It
gives up earlier when nothing gets better for a while.
-/

namespace RuleCardinality

/-- The `HeuristicConfig` of config.rs:19. -/
structure Config where
  baseTries : Nat := 10
  noImprovementDivisor : Nat := 10
  noImprovementFloor : Nat := 10
  /-- A fraction above 0 and at most 1. -/
  damping : Float := 0.5
  exhaustiveLimit : Nat := 10000
  /-- The seed of every search, or nothing to derive one from each object. -/
  seed : Option UInt64 := none

namespace Config

def standard : Config where

def seeded (seed : UInt64) : Config := { standard with seed := some seed }

/-- The `max_tries` of config.rs:163. -/
def maxTries (c : Config) (volume competing : Nat) : Nat :=
  capMul (capAdd c.baseTries volume) competing

/-- The `max_no_improvement` of config.rs:170. -/
def maxIdle (c : Config) (maxTries : Nat) : Nat :=
  capAdd (maxTries / max c.noImprovementDivisor 1) c.noImprovementFloor

/-- The part of a violation that one step repairs: at least one, at most all of it (`damped`,
distributor.rs:353). -/
def damped (c : Config) (amount : Nat) : Nat :=
  let part := ((UInt64.ofNat (min amount cap)).toFloat * c.damping).ceil.toUInt64.toNat
  max 1 (min part (max amount 1))

theorem damped_bounds (c : Config) {amount : Nat} (h : 0 < amount) :
    1 ≤ c.damped amount ∧ c.damped amount ≤ amount := by
  simp only [damped]
  omega

end Config

end RuleCardinality
