import RuleCardinality.Object
import RuleCardinality.View.Basic
import RuleCardinality.Rule.Render
import RuleCardinality.Window

/-!
# Diagnostics

What is wrong with an object, as plain data with a stable code. There are four kinds: the type of the
object does not fit the rule, the rule assigns a field that the type does not declare, a field is set
that the rule never assigns, or a field's count lies outside its bounds.
-/

namespace RuleCardinality

/-- The `DiagnosticKind` of diagnostics.rs:55. -/
inductive DiagnosticKind where
  | objectShape
  | featureMissing
  | assignmentMissing
  | featureBounds
deriving DecidableEq, Repr

namespace DiagnosticKind

/-- The `code` of diagnostics.rs:63. -/
def code : DiagnosticKind → String
  | .objectShape => "DIAG_OBJECT_SHAPE"
  | .featureMissing => "DIAG_FEATURE_MISSING"
  | .assignmentMissing => "DIAG_ASSIGNMENT_MISSING"
  | .featureBounds => "DIAG_FEATURE_BOUNDS"

/-- The name of a kind in data. -/
def name : DiagnosticKind → String
  | .objectShape => "object_shape"
  | .featureMissing => "feature_missing"
  | .assignmentMissing => "assignment_missing"
  | .featureBounds => "feature_bounds"

def ofName? (s : String) : Option DiagnosticKind :=
  [objectShape, featureMissing, assignmentMissing, featureBounds].find? (·.name = s)

end DiagnosticKind

/-- The `SyntaxDiagnostic` of diagnostics.rs:75. -/
structure Diagnostic where
  kind : DiagnosticKind
  rule : String
  objectType : String
  field : Option String := none
  actual : Option Nat := none
  min : Option Count := none
  max : Option Count := none
  nodes : List Nat := []
  scope : Option Nat := none
  /-- The written form of the part of the rule that is meant. -/
  constraint : String := ""
deriving DecidableEq, Repr

/-- A field whose count lies outside the bounds that its nodes add up to (`BoundsViolation`,
diagnostics.rs:15). -/
structure Violation where
  field : String
  actual : Nat
  min : Count
  max : Count
  /-- The nodes whose shares shaped the bounds, in ascending order. -/
  involved : List Nat
  /-- The nearest node that contains them all. -/
  scope : Nat
deriving DecidableEq, Repr

namespace Diagnostic

def code (d : Diagnostic) : String := d.kind.code

/-- A diagnostic as it is printed (diagnostics.rs:112). -/
def display (d : Diagnostic) : String :=
  let field := d.field.getD "-"
  "[" ++ d.code ++ "] " ++ d.objectType ++ " (rule " ++ d.rule ++ ")" ++
    match d.kind with
    | .objectShape => ": type does not fit " ++ d.constraint
    | .featureMissing => ": type has no field '" ++ field ++ "' assigned by " ++ d.constraint
    | .assignmentMissing => ": field '" ++ field ++ "' is set but never assigned"
    | .featureBounds =>
      ": field '" ++ field ++ "' has " ++ toString (d.actual.getD 0) ++ " value(s), expected " ++
        (Window.mk (d.min.getD .undefined) (d.max.getD .undefined)).text ++ " in " ++ d.constraint

/-- No way through the rule accepts the type of the object (`object_shape`, diagnostics.rs:149). -/
def shape (r : Rule) (type : String) (unfulfilled : List Nat) : Diagnostic where
  kind := .objectShape
  rule := r.name
  objectType := type
  nodes := unfulfilled
  scope := some r.root
  constraint := r.excerpt r.root

/-- A node assigns a field that the type does not declare (`feature_missing`, diagnostics.rs:157). -/
def undeclared (r : Rule) (type : String) (v : Nat) : Diagnostic where
  kind := .featureMissing
  rule := r.name
  objectType := type
  field := r.field? v
  nodes := [v]
  constraint := r.excerpt v

/-- The object has values for a field that the rule never assigns (`assignment_missing`,
diagnostics.rs:165). -/
def unassigned (r : Rule) (o : Object) (field : String) : Diagnostic where
  kind := .assignmentMissing
  rule := r.name
  objectType := o.type
  field := some field
  actual := some (o.valueCount field)

/-- The count of a field lies outside its bounds (`feature_bounds`, diagnostics.rs:172). -/
def bounds (r : Rule) (type : String) (violation : Violation) : Diagnostic where
  kind := .featureBounds
  rule := r.name
  objectType := type
  field := some violation.field
  actual := some violation.actual
  min := some violation.min
  max := some violation.max
  nodes := violation.involved
  scope := some violation.scope
  constraint := r.excerpt violation.scope

end Diagnostic

end RuleCardinality
