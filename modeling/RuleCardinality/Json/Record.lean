import RuleCardinality.Json.Value
import RuleCardinality.WordSize

/-!
# Decoding data

Strict decoders from values of the data format. A record is written as an object, where unknown names
are passed over and no known name may be repeated, or as an array of its fields in their order. A map
is an object; of several members of a name the last one counts. One of several variants is written as
its name, or as an object whose only member has that name.
-/

namespace RuleCardinality

/-- The fields of a record as they were written. -/
structure Record where
  fields : List (String × Json)
  /-- Whether they were given by position. -/
  positional : Bool

namespace Json

def text? : Json → Option String
  | .text s => some s
  | _ => none

def bool? : Json → Option Bool
  | .bool b => some b
  | _ => none

def nat? : Json → Option Nat
  | .number (.natural n) => some n
  | _ => none

/-- A whole number of 64 bits with a sign. -/
def int? : Json → Option Int
  | .number (.natural n) => if n < signedEnd then some n else none
  | .number (.negative n) => some (-n)
  | _ => none

def real? : Json → Option Float
  | .number (.natural n) => some (UInt64.ofNat n).toFloat
  | .number (.negative n) => some (-(UInt64.ofNat n).toFloat)
  | .number (.real x) => some x
  | _ => none

def list? {α : Type} (item : Json → Option α) : Json → Option (List α)
  | .array items => items.mapM item
  | _ => none

/-- The members of a map, all of them decoded. -/
def map? {α : Type} (item : Json → Option α) : Json → Option (List (String × α))
  | .object members => members.mapM fun m => (item m.2).map fun a => (m.1, a)
  | _ => none

/-- A value or `null`. -/
def nullable? {α : Type} (item : Json → Option α) : Json → Option (Option α)
  | .null => some none
  | j => (item j).map some

/-- A variant's name and what it carries. -/
def variant? : Json → Option (String × Option Json)
  | .text name => some (name, none)
  | .object [(name, j)] => some (name, some j)
  | _ => none

/-- What is carried by a variant that carries nothing. -/
def isUnit : Option Json → Bool
  | none | some .null => true
  | _ => false

/-- A record with fields of the given names. -/
def record? (names : List String) : Json → Option Record
  | .object members =>
    let known := members.filter fun m => names.contains m.1
    if (known.map Prod.fst).eraseDups.length = known.length then some ⟨known, false⟩ else none
  | .array items =>
    if items.length ≤ names.length then some ⟨names.zip items, true⟩ else none
  | _ => none

end Json

namespace Record

def required {α : Type} (r : Record) (name : String) (item : Json → Option α) : Option α :=
  (r.fields.lookup name).bind item

/-- A field that is nothing if it is not given or `null`; by position it must be given. -/
def nullable {α : Type} (r : Record) (name : String) (item : Json → Option α) :
    Option (Option α) :=
  match r.fields.lookup name with
  | none => if r.positional then none else some none
  | some j => Json.nullable? item j

def standard {α : Type} (r : Record) (name : String) (item : Json → Option α) (value : α) :
    Option α :=
  match r.fields.lookup name with
  | none => some value
  | some j => item j

end Record

end RuleCardinality
