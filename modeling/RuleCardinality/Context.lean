import Std.Data.ExtTreeMap
import RuleCardinality.Json.Printer

/-!
# Contexts

What a caller hands along with a validation: an identifier of the request, an identifier that links
requests, and values of its own. The library puts the identifiers into its events and leaves the
values alone.
-/

namespace RuleCardinality

/-- The `ValidationContext` of correlation.rs:80. -/
structure Context where
  requestId : Option String := none
  traceId : Option String := none
  values : Std.ExtTreeMap String Json := ∅

namespace Context

def empty : Context where

def insert (c : Context) (key : String) (j : Json) : Context :=
  { c with values := c.values.insert key j }

def get? (c : Context) (key : String) : Option Json := c.values[key]?

/-- The request's identifier as events show it: a dash if there is none (`request_id_str`,
correlation.rs:118). -/
def requestText (c : Context) : String := c.requestId.getD "-"

/-- The `trace_id_str` of correlation.rs:123. -/
def traceText (c : Context) : String := c.traceId.getD "-"

end Context

/-- A UUID of version 7 from a time and random bits (`RequestId::new`, correlation.rs:16). -/
def freshId (milliseconds random : Nat) : String :=
  let digits (count n : Nat) : String := String.ofList (Json.hex count n)
  digits 8 (milliseconds >>> 16) ++ "-" ++ digits 4 milliseconds ++ "-7" ++
    digits 3 random ++ "-" ++ digits 4 (0x8000 + (random >>> 12) % 0x4000) ++ "-" ++
    digits 12 (random >>> 26)

end RuleCardinality
