import RuleCardinality.Fault

/-!
# Incidents

An `Incident` is a fault as it is reported to people and programs: a stable kind with its code, the
wording, and, where they are known, the operation, the rule and the field concerned.
-/

namespace RuleCardinality

/-- The `ExErrorKind` of errors.rs:13. -/
inductive IncidentKind where
  | invalidTree
  | notFound
  | invalidConfig
  | io
  | serialization
  | consistencyFault
deriving DecidableEq, Repr

namespace IncidentKind

def name : IncidentKind → String
  | .invalidTree => "InvalidTree"
  | .notFound => "NotFound"
  | .invalidConfig => "InvalidConfig"
  | .io => "Io"
  | .serialization => "Serialization"
  | .consistencyFault => "ConsistencyFault"

/-- The `code` of errors.rs:29. -/
def code : IncidentKind → String
  | .invalidTree => "ERR_INVALID_TREE"
  | .notFound => "ERR_NOT_FOUND"
  | .invalidConfig => "ERR_INVALID_CONFIG"
  | .io => "ERR_IO"
  | .serialization => "ERR_SERIALIZATION"
  | .consistencyFault => "ERR_CONSISTENCY_FAULT"

def all : List IncidentKind :=
  [.invalidTree, .notFound, .invalidConfig, .io, .serialization, .consistencyFault]

/-- The `is_fatal` of errors.rs:41. -/
def isFatal (kind : IncidentKind) : Bool := kind = .consistencyFault

end IncidentKind

/-- The `ExError` of errors.rs:51. -/
structure Incident where
  kind : IncidentKind
  op : Option String := none
  rule : Option String := none
  field : Option String := none
  /-- Empty if nothing is to be added to the code. -/
  message : String := ""
deriving DecidableEq, Repr

namespace Incident

def code (i : Incident) : String := i.kind.code

/-- The code in brackets, then each part that is present (errors.rs:123). -/
def display (i : Incident) : String :=
  "[" ++ i.code ++ "]" ++
    (i.op.elim "" fun op => " in operation '" ++ op ++ "'") ++
    (if i.message.isEmpty then "" else ": " ++ i.message) ++
    (i.rule.elim "" fun rule => " (rule: " ++ rule ++ ")") ++
    (i.field.elim "" fun field => " (field: " ++ field ++ ")")

end Incident

def Fault.kind : Fault → IncidentKind
  | .missingRoot _ | .secondRoot _ | .leafParent .. | .blankField _ => .invalidTree
  | .unknownNode .. => .notFound
  | .invalidConfig _ => .invalidConfig
  | .malformedConfig _ => .serialization
  | .unreadableConfig _ => .io
  | .unevenShares .. => .consistencyFault

def Fault.rule? : Fault → Option String
  | .missingRoot rule | .secondRoot rule | .leafParent rule _ _ | .blankField rule
  | .unknownNode rule _ | .unevenShares rule _ _ _ => some rule
  | .invalidConfig _ | .malformedConfig _ | .unreadableConfig _ => none

def Fault.field? : Fault → Option String
  | .unevenShares _ field _ _ => some field
  | _ => none

/-- The incident that reports a fault (errors.rs:202). -/
def Incident.ofFault (fault : Fault) : Incident where
  kind := fault.kind
  rule := fault.rule?
  field := fault.field?
  message := fault.message

/-- A fault and its incident agree on whether the validator is at fault. -/
theorem Incident.isFatal_ofFault (fault : Fault) :
    (Incident.ofFault fault).kind.isFatal = fault.isFatal := by
  cases fault <;> rfl

end RuleCardinality
