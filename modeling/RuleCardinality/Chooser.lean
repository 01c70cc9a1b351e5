/-!
# Choosers

A `Chooser` is a source of choices: asked for a number below a positive bound it gives one, and the
source as it is afterwards. The search uses nothing else of a source, so what holds of the search for
all choosers holds for every way to draw, random or not.
-/

namespace RuleCardinality

/-- A way to choose numbers below a bound (`gen_range`), with a state of type `σ`. -/
structure Chooser (σ : Type) where
  pick : (n : Nat) → 0 < n → σ → Fin n × σ

end RuleCardinality
