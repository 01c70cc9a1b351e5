import RuleCardinality.Config
import RuleCardinality.Context
import RuleCardinality.Diagnostic
import RuleCardinality.Event
import RuleCardinality.Registry

/-!
# Validators

A `Validator` brings together the rules, the way to count an object's values, and the settings of the
search. What it says about an object is a `Verdict`: whether some rule accounts for the object, the
diagnostics to be delivered, and the events to be sent.
-/

namespace RuleCardinality

/-- Decides which objects are passed over and which values count (`FieldCountSource`, object.rs:85). -/
structure Counter where
  transient : Object → Bool
  count : Object → String → Nat

namespace Counter

/-- The `SetValueCounter` of object.rs:95. -/
def setValues : Counter where
  transient _ := false
  count := Object.valueCount

/-- Passes over objects of some types and answers fixed counts for some fields. -/
def fixed (types : List String) (counts : List (String × Nat)) : Counter where
  transient o := types.contains o.type
  count o field := (counts.lookup field).getD (o.valueCount field)

end Counter

/-- Everything that a validation depends on, apart from the object (`Validator`, validator.rs:59). -/
structure Validator where
  registry : Registry
  counter : Counter := .setValues
  config : Config := .standard

/-- What a validation says. -/
structure Verdict where
  result : Except Fault Bool
  diagnostics : List Diagnostic := []
  events : Trail := []

/-- What the examination of one rule says. -/
structure Finding where
  result : Except Fault (List Diagnostic)
  events : Trail := []

end RuleCardinality
