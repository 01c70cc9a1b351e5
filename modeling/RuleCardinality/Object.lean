import Std.Data.ExtTreeMap
import RuleCardinality.Sum

/-!
# Objects

The things under validation: an object has a type, declares features, and holds values for fields. A
value can be an object, so objects form trees. Only values under declared features count as contained.
The `volume` of an object is the number of values that it sets, where a field for one value counts once.
-/

namespace RuleCardinality

/-- The `FeatureInfo` of object.rs:12. -/
structure Feature where
  name : String
  many : Bool
  /-- Whether a field without values can stand for one that was written with its standard value. -/
  implicitZero : Bool
deriving DecidableEq, Repr

mutual

/-- The `Value` of object.rs:109. -/
inductive Value where
  | text (s : String)
  | int (n : Int)
  | bool (b : Bool)
  | literal (name : String)
  | object (o : Object)

/-- An object with its type, its declared features and its values by field (`DynObject`, object.rs:142). -/
inductive Object where
  | mk (type : String) (features : List Feature) (values : List (String × List Value))

end

namespace Object

def type : Object → String
  | mk type _ _ => type

def features : Object → List Feature
  | mk _ features _ => features

def values : Object → List (String × List Value)
  | mk _ _ values => values

def empty (type : String) : Object := mk type [] []

/-- The `feature` of object.rs:64. -/
def feature? (o : Object) (name : String) : Option Feature := o.features.find? (·.name = name)

/-- The `values` of object.rs:187. -/
def valuesOf (o : Object) (field : String) : List Value := (o.values.lookup field).getD []

/-- The `value_count` of object.rs:201. -/
def valueCount (o : Object) (field : String) : Nat := (o.valuesOf field).length

/-- Declares a feature; one declared before under that name is dropped (`with_feature`, object.rs:158). -/
def declare (o : Object) (feature : Feature) : Object :=
  mk o.type (o.features.filter (·.name ≠ feature.name) ++ [feature]) o.values

/-- The values of all fields after some more have been added to one. -/
def appendTo (field : String) (more : List Value) :
    List (String × List Value) → List (String × List Value)
  | [] => [(field, more)]
  | f :: fs => if f.1 = field then (f.1, f.2 ++ more) :: fs else f :: appendTo field more fs

/-- The `push_value` of object.rs:178, for any number of values. -/
def append (o : Object) (field : String) (more : List Value) : Object :=
  if more.isEmpty then o else mk o.type o.features (appendTo field more o.values)

/-- Adds a number of texts to a field, which are its name with a running number (`with_values`,
object.rs:171). -/
def fill (o : Object) (field : String) (n : Nat) : Object :=
  o.append field ((List.range n).map fun i => .text (field ++ toString i))

/-- The `clear` of object.rs:183. -/
def clear (o : Object) (field : String) : Object :=
  mk o.type o.features (o.values.filter (·.1 ≠ field))

/-- The number of values set: each value of a list field, and one for any other field that is set
(`set_value_volume`, object.rs:69). -/
def volume (o : Object) : Nat :=
  sumOf (fun f =>
    let n := o.valueCount f.name
    if n = 0 then 0 else if f.many then n else 1) o.features

def ofValue? : Value → Option Object
  | .object o => some o
  | _ => none

/-- The objects under declared features, in the order of the features (`contents`, object.rs:205). -/
def contents (o : Object) : List Object :=
  (o.features.flatMap fun f => o.valuesOf f.name).filterMap ofValue?

theorem sizeOf_lt_of_lookup {field : String} {vs : List Value} :
    ∀ {values : List (String × List Value)}, values.lookup field = some vs → sizeOf vs < sizeOf values
  | [], h => by simp at h
  | (k, ws) :: rest, h => by
    rw [List.lookup_cons] at h
    split at h
    · cases h
      simp only [List.cons.sizeOf_spec, Prod.mk.sizeOf_spec]
      omega
    · have := sizeOf_lt_of_lookup h
      simp only [List.cons.sizeOf_spec]
      omega

theorem mem_contents {o c : Object} (h : c ∈ o.contents) :
    ∃ f ∈ o.features, Value.object c ∈ o.valuesOf f.name := by
  simp only [contents, List.mem_filterMap, List.mem_flatMap] at h
  obtain ⟨v, ⟨f, hf, hv⟩, hc⟩ := h
  cases v <;> simp only [ofValue?, reduceCtorEq, Option.some.injEq] at hc
  exact ⟨f, hf, hc ▸ hv⟩

theorem sizeOf_lt_of_mem_contents {o c : Object} (h : c ∈ o.contents) : sizeOf c < sizeOf o := by
  obtain ⟨f, _, hv⟩ := mem_contents h
  rcases o with ⟨type, features, values⟩
  simp only [valuesOf, Object.values] at hv
  cases hl : values.lookup f.name with
  | none => simp [hl] at hv
  | some vs =>
    have h1 : sizeOf (Value.object c) < sizeOf vs := List.sizeOf_lt_of_mem (by simpa [hl] using hv)
    have h2 := sizeOf_lt_of_lookup hl
    simp only [Value.object.sizeOf_spec] at h1
    simp only [Object.mk.sizeOf_spec]
    omega

/-- An object and all objects in it, each before the ones that it contains. -/
def occurrences (o : Object) : List Object :=
  o :: o.contents.attach.flatMap fun c => c.1.occurrences
termination_by sizeOf o
decreasing_by exact sizeOf_lt_of_mem_contents c.2

theorem occurrences_eq (o : Object) : o.occurrences = o :: o.contents.flatMap occurrences := by
  rw [occurrences]; simp

end Object

end RuleCardinality
