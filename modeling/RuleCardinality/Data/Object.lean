import RuleCardinality.Json.Reader
import RuleCardinality.Json.Record
import RuleCardinality.Object

/-!
# Objects as data

An object is a record of its type's name, its features and a map from fields to lists of values. A value
is one of the variants `Text`, `Int`, `Bool`, `Enum` and `Object`.
-/

namespace RuleCardinality

def Feature.toJson (f : Feature) : Json :=
  .object [("name", .text f.name), ("many", .bool f.many), ("implicit_zero", .bool f.implicitZero)]

def Feature.ofJson? (j : Json) : Option Feature := do
  let r ← j.record? ["name", "many", "implicit_zero"]
  return ⟨← r.required "name" Json.text?, ← r.required "many" Json.bool?,
    ← r.required "implicit_zero" Json.bool?⟩

def intJson : Int → Json
  | .ofNat n => .number (.natural n)
  | .negSucc n => .number (.negative (n + 1))

mutual

def Value.toJson : Value → Json
  | .text s => .object [("Text", .text s)]
  | .int n => .object [("Int", intJson n)]
  | .bool b => .object [("Bool", .bool b)]
  | .literal name => .object [("Enum", .text name)]
  | .object o => .object [("Object", o.toJson)]

def Object.toJson : Object → Json
  | .mk type features values =>
    .object
      [("type_name", .text type), ("features", .array (features.map Feature.toJson)),
        ("values", .object (fieldsJson values))]

def fieldsJson : List (String × List Value) → List (String × Json)
  | [] => []
  | (field, values) :: rest => (field, .array (valuesJson values)) :: fieldsJson rest

def valuesJson : List Value → List Json
  | [] => []
  | v :: vs => v.toJson :: valuesJson vs

end

mutual

/-- The value that data stands for. The first argument bounds how deep objects are nested. -/
def Value.ofJson? : Nat → Json → Option Value
  | 0, _ => none
  | depth + 1, j =>
    match j.variant? with
    | some ("Text", some j) => j.text?.map .text
    | some ("Int", some j) => j.int?.map .int
    | some ("Bool", some j) => j.bool?.map .bool
    | some ("Enum", some j) => j.text?.map .literal
    | some ("Object", some j) => (Object.ofNested? depth j).map .object
    | _ => none

/-- The object that data stands for, nested up to a depth. -/
def Object.ofNested? : Nat → Json → Option Object
  | 0, _ => none
  | depth + 1, j => do
    let r ← j.record? ["type_name", "features", "values"]
    let type ← r.required "type_name" Json.text?
    let features ← r.required "features" (Json.list? Feature.ofJson?)
    let values ← r.required "values" (Json.map? (Json.list? (Value.ofJson? depth)))
    return .mk type features (Json.lastOnly values)

end

/-- The object that data stands for. Objects take more than one container each, so that no object that
can be read is nested deeper than the limit for containers. -/
def Object.ofJson? (j : Json) : Option Object := Object.ofNested? Json.depthLimit j

end RuleCardinality
