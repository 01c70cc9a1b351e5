import RuleCardinality.Incident

/-!
# Events

What the parts of the library report while they work: an event has a level, the part that sent it, the
operation it belongs to, a name, and fields as text. Field keys and event names are fixed, so that
those who read a trail of events can rely on them.
-/

namespace RuleCardinality

/-! ## Keys and names -/

namespace Key

def component : String := "component"
def op : String := "op"
def event : String := "event"
def duration : String := "duration_ms"
def requestId : String := "request_id"
def traceId : String := "trace_id"
def rule : String := "rule"
def objectType : String := "object_type"
def field : String := "field"
def ruleCount : String := "rule_count"
def diagnosticCount : String := "diagnostic_count"
def valid : String := "valid"
def maxTries : String := "max_tries"
def tries : String := "tries"
def quality : String := "quality"
def errorKind : String := "err.kind"
def errorCode : String := "err.code"

/-- All keys of the fixed schema (schema.rs:6-30), in its order. -/
def all : List String :=
  [component, op, event, duration, requestId, traceId, rule, objectType, field, ruleCount,
    diagnosticCount, valid, maxTries, tries, quality, errorKind, errorCode]

end Key

namespace EventName

def start : String := "start"
def finish : String := "end"
def failure : String := "end_error"
def solved : String := "solved"

/-- All names of events of the fixed schema (schema.rs:33-36), in its order. -/
def all : List String := [start, finish, failure, solved]

end EventName

inductive Level where
  | debug
  | info
  | error
deriving DecidableEq, Repr

def Level.text : Level → String
  | .debug => "DEBUG"
  | .info => "INFO"
  | .error => "ERROR"

inductive Component where
  | validation
  | distribution
  /-- A part outside of this library. -/
  | other (name : String)
deriving DecidableEq, Repr

def Component.text : Component → String
  | .validation => "validation"
  | .distribution => "distribution"
  | .other name => name

/-- An event as it is captured (test_capture.rs:14). -/
structure Event where
  level : Level
  component : Component
  op : String
  name : String
  /-- How long the operation took in milliseconds, at the end of one. The library itself measures no
  time and reports zero; whoever runs it can put a measured time in its place. -/
  duration : Option Nat := none
  fields : List (String × String) := []
deriving DecidableEq, Repr

namespace Event

/-- The start of an operation (`log_op_start!`, macros.rs:16). -/
def start (component : Component) (op : String) (fields : List (String × String)) : Event where
  level := .info
  component := component
  op := op
  name := EventName.start
  fields := fields

/-- The regular end of an operation (`log_op_end!`, macros.rs:44). -/
def finish (component : Component) (op : String) (duration : Nat)
    (fields : List (String × String)) : Event where
  level := .info
  component := component
  op := op
  name := EventName.finish
  duration := some duration
  fields := fields

/-- The end of an operation by a fault (`log_op_error!`, macros.rs:76). -/
def failure (component : Component) (op : String) (fault : Fault) (duration : Nat)
    (fields : List (String × String)) : Event where
  level := .error
  component := component
  op := op
  name := EventName.failure
  duration := some duration
  fields :=
    let incident := Incident.ofFault fault
    [(Key.errorKind, incident.kind.name), (Key.errorCode, incident.code)] ++ fields

/-- The text under a key, the fixed ones included. -/
def text? (e : Event) (key : String) : Option String :=
  if key = Key.component then some e.component.text
  else if key = Key.op then some e.op
  else if key = Key.event then some e.name
  else if key = Key.duration then e.duration.map toString
  else e.fields.lookup key

end Event

/-! ## Trails -/

/-- Events in the order in which they were sent. -/
abbrev Trail := List Event

namespace Trail

/-- The `events_for` of test_capture.rs:110. -/
def ofOp (t : Trail) (op : String) : Trail := t.filter fun e => e.op = op

/-- The number of events with a text under a key. -/
def count (t : Trail) (key value : String) : Nat := t.countP fun e => e.text? key = some value

/-- The `assert_event_exists` of test_capture.rs:120. -/
def has (t : Trail) (op name : String) : Bool := t.any fun e => e.op = op && e.name = name

end Trail

end RuleCardinality
