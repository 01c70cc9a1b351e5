import Std.Data.ExtTreeMap
import RuleCardinality.Rule.Basic

/-!
# Registries

The rules by which objects of each type can have been produced, in the order in which they were
registered. One rule can be registered for several types.
-/

namespace RuleCardinality

/-- The `RuleRegistry` of registry.rs:38. -/
structure Registry where
  rules : Std.ExtTreeMap String (List Rule) := ∅

namespace Registry

def empty : Registry where

/-- The `rules_for` of registry.rs:70, in the order in which they are tried. -/
def rulesFor (g : Registry) (type : String) : List Rule := (g.rules[type]?).getD []

/-- The `register` of registry.rs:48. -/
def register (g : Registry) (type : String) (r : Rule) : Registry where
  rules := g.rules.insert type (g.rulesFor type ++ [r])

def registerAll (g : Registry) (types : List String) (r : Rule) : Registry :=
  types.foldl (fun g type => g.register type r) g

/-- The registry after some rules have been added, each for its type. -/
def ofList (entries : List (String × Rule)) : Registry :=
  entries.foldl (fun g e => g.register e.1 e.2) empty

/-- The `type_count` of registry.rs:64. -/
def typeCount (g : Registry) : Nat := g.rules.size

end Registry

end RuleCardinality
