import RuleCardinality.Json.Record
import RuleCardinality.Window

/-!
# Counts and windows as data

A count is the variant `Undefined`, `Finite` with a number, or `Unbounded`; a window has the two fields
`min` and `max`.
-/

namespace RuleCardinality

def Count.toJson : Count → Json
  | .undefined => .text "Undefined"
  | .finite n => .object [("Finite", .nat n)]
  | .unbounded => .text "Unbounded"

def Count.ofJson? (j : Json) : Option Count :=
  match j.variant? with
  | some ("Undefined", content) => if Json.isUnit content then some .undefined else none
  | some ("Unbounded", content) => if Json.isUnit content then some .unbounded else none
  | some ("Finite", some j) => j.nat?.map .finite
  | _ => none

def Window.toJson (w : Window) : Json := .object [("min", w.min.toJson), ("max", w.max.toJson)]

@[simp] theorem Count.ofJson?_toJson (c : Count) : Count.ofJson? c.toJson = some c := by
  cases c <;> rfl

end RuleCardinality
