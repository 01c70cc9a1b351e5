/-!
# Faults

What can go wrong apart from the object under validation: a rule that is put together wrongly, a
configuration that cannot be read or used, and a distribution whose shares do not add up. Only the
last is a defect of the validator itself. Findings about an object are diagnostics, never faults.
-/

namespace RuleCardinality

/-- The `CsvalError` of errors.rs:147. -/
inductive Fault where
  | missingRoot (rule : String)
  | secondRoot (rule : String)
  | unknownNode (rule : String) (node : Nat)
  | leafParent (rule : String) (node : Nat) (shape : String)
  | blankField (rule : String)
  | invalidConfig (reason : String)
  | malformedConfig (message : String)
  | unreadableConfig (message : String)
  /-- The shares of a field add up to `found` where the field's count is `expected`. -/
  | unevenShares (rule field : String) (expected found : Nat)
deriving DecidableEq, Repr

namespace Fault

/-- The texts of errors.rs:150-185. -/
def message : Fault → String
  | .missingRoot rule => "Rule " ++ rule ++ " has no root constraint node"
  | .secondRoot rule => "Rule " ++ rule ++ " already has a root constraint node"
  | .unknownNode rule node => "Rule " ++ rule ++ " has no constraint node " ++ toString node
  | .leafParent rule node shape =>
    "Constraint node " ++ toString node ++ " of rule " ++ rule ++ " is a " ++ shape ++
      " and cannot contain children"
  | .blankField rule => "Assignment in rule " ++ rule ++ " has an empty target field"
  | .invalidConfig reason => "Invalid heuristic configuration: " ++ reason
  | .malformedConfig message => "Failed to parse heuristic configuration: " ++ message
  | .unreadableConfig message => "Failed to read heuristic configuration: " ++ message
  | .unevenShares rule field expected found =>
    "Rule " ++ rule ++ ", field " ++ field ++ ": assignment quantities sum to " ++ toString found ++
      ", but " ++ toString expected ++ " expected"

/-- Whether the fault is a defect of the validator rather than of its setup (`is_fatal`, errors.rs:196). -/
def isFatal : Fault → Bool
  | .unevenShares .. => true
  | _ => false

end Fault

end RuleCardinality
