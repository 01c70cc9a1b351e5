import RuleCardinality.Data.Count
import RuleCardinality.Diagnostic

/-!
# Diagnostics as data

A diagnostic is a record of all its fields; what it has nothing to say about is `null`.
-/

namespace RuleCardinality.Diagnostic

def toJson (d : Diagnostic) : Json :=
  .object
    [("kind", .text d.kind.name), ("rule", .text d.rule), ("object_type", .text d.objectType),
      ("field", .optional .text d.field), ("actual", .optional .nat d.actual),
      ("min", .optional Count.toJson d.min), ("max", .optional Count.toJson d.max),
      ("nodes", .array (d.nodes.map .nat)), ("scope", .optional .nat d.scope),
      ("constraint", .text d.constraint)]

def kindOfJson? (j : Json) : Option DiagnosticKind := do
  let (name, content) ← j.variant?
  if Json.isUnit content then DiagnosticKind.ofName? name else none

def ofJson? (j : Json) : Option Diagnostic := do
  let r ← j.record? ["kind", "rule", "object_type", "field", "actual", "min", "max", "nodes",
    "scope", "constraint"]
  return {
    kind := ← r.required "kind" kindOfJson?
    rule := ← r.required "rule" Json.text?
    objectType := ← r.required "object_type" Json.text?
    field := ← r.nullable "field" Json.text?
    actual := ← r.nullable "actual" Json.nat?
    min := ← r.nullable "min" Count.ofJson?
    max := ← r.nullable "max" Count.ofJson?
    nodes := ← r.required "nodes" (Json.list? Json.nat?)
    scope := ← r.nullable "scope" Json.nat?
    constraint := ← r.required "constraint" Json.text? }

end RuleCardinality.Diagnostic
