import RuleCardinality.Context
import RuleCardinality.Json.Record

/-!
# Contexts as data

A context is a record of its two identifiers, which may be `null`, and a map of the caller's values.
-/

namespace RuleCardinality.Context

def valuesJson (c : Context) : Json := .object c.values.toList

def toJson (c : Context) : Json :=
  .object
    [("request_id", .optional .text c.requestId), ("trace_id", .optional .text c.traceId),
      ("values", c.valuesJson)]

/-- A value of the caller: any data that can be used as a whole, with no name repeated. -/
def valueOfJson? (j : Json) : Option Json := if j.readable then some j.settle else none

def ofJson? (j : Json) : Option Context := do
  let r ← j.record? ["request_id", "trace_id", "values"]
  let requestId ← r.nullable "request_id" Json.text?
  let traceId ← r.nullable "trace_id" Json.text?
  let values ← r.standard "values" (Json.map? valueOfJson?) []
  return ⟨requestId, traceId, .ofList values⟩

end RuleCardinality.Context
