import RuleCardinality.Diagnostic
import RuleCardinality.View.Reads

/-!
# The final check

Once all shares are settled, each field's count is compared with what the minimums and the maximums of
its nodes add up to. A field outside those bounds is a violation, reported with the nodes whose shares
shaped the bounds.
-/

namespace RuleCardinality.View

/-- The bounds of a field: what the minimums and the maximums of its nodes add up to. -/
def fieldWindow (w : View) (q : Quantities) (nodes : List Nat) : Window where
  min := (nodes.map (w.minCount q)).foldl .plus .undefined
  max := (nodes.map (w.maxCount q none)).foldl .plus 0

/-- The nodes of a field and all nodes consulted for its bounds. -/
def involved (w : View) (q : Quantities) (nodes : List Nat) : IdSet :=
  .ofList (nodes.flatMap fun v => v :: w.minReads q v ++ w.maxReads q none v)

/-- The violation of a field, if its count is outside its bounds. -/
def violation? (w : View) (q : Quantities) (field : String) (nodes : List Nat) : Option Violation :=
  let window := w.fieldWindow q nodes
  let actual := q.count field
  if window.admits actual then none
  else
    let involved := (w.involved q nodes).toList
    some ⟨field, actual, window.min, window.max, involved, w.rule.commonOf involved⟩

/-- The violations of all assigned fields, by field (`check_quantities`, validator.rs:412). -/
def violations (w : View) (q : Quantities) : List Violation :=
  (q.groups w.rule).filterMap fun g => w.violation? q g.1 g.2

/-- The diagnostics of settled shares, or the fault of shares that do not add up (`check_solution`,
validator.rs:360). -/
def check (w : View) (q : Quantities) : Except Fault (List Diagnostic) :=
  match q.fault? w.rule with
  | some fault => .error fault
  | none => .ok ((w.violations q).map (Diagnostic.bounds w.rule w.type))

end RuleCardinality.View
