import Std.Data.ExtTreeSet
import RuleCardinality.Text.Blank

/-!
# Node specifications

A node of a rule has a shape, a cardinality and possibly a type guard. Groups and alternatives have
children; assignments and actions are leaves. An assignment writes a field of the object. A guarded
node applies only to objects whose type is among the guard's types.
-/

namespace RuleCardinality

/-- What a node of a rule does when it fires (`NodeKind`, node.rs:25). -/
inductive Shape where
  | assignment (field : String)
  /-- Fires its children one after the other. -/
  | group
  /-- Fires one of its children. -/
  | alternative
  /-- Leaves no trace in the object. -/
  | action
deriving DecidableEq, Repr

namespace Shape

def name : Shape → String
  | .assignment _ => "assignment"
  | .group => "group"
  | .alternative => "alternative"
  | .action => "action"

/-- The `is_leaf` of node.rs:47. -/
def isLeaf : Shape → Bool
  | .assignment _ | .action => true
  | .group | .alternative => false

def field? : Shape → Option String
  | .assignment field => some field
  | _ => none

/-- Whether the shape writes a field without a proper name. -/
def isNameless : Shape → Bool
  | .assignment field => Text.isBlank field
  | _ => false

end Shape

abbrev TypeSet := Std.ExtTreeSet String

/-- The description of a node, apart from its place in a rule (`NodeSpec`, node.rs:63). -/
structure Spec where
  shape : Shape
  optional : Bool := false
  repeatable : Bool := false
  /-- The types that the node applies to, or nothing if it applies to all. -/
  types : Option TypeSet := none

namespace Spec

/-- The `applies_to` of node.rs:204. -/
def appliesTo (s : Spec) (type : String) : Bool :=
  match s.types with
  | none => true
  | some types => types.contains type

/-- The written cardinality: `?` optional, `+` repeatable, `*` both, nothing for exactly once
(`cardinality`, node.rs:211). -/
def cardinality (s : Spec) : String :=
  match s.optional, s.repeatable with
  | false, false => ""
  | true, false => "?"
  | false, true => "+"
  | true, true => "*"

end Spec

end RuleCardinality
