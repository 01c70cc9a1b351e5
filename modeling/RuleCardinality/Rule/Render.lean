import RuleCardinality.Rule.Basic

/-!
# Written rules

A node is written as its field name, as its children in parentheses, with bars between them for an
alternative, or as the guard of an action in braces, and then its cardinality. A note may follow the
name of each field.
-/

namespace RuleCardinality.Rule

/-- The guard of an action: its types between braces. -/
def guardText (s : Spec) : String :=
  "\x7b" ++ ",".intercalate (s.types.elim [] Std.ExtTreeSet.toList) ++ "\x7d"

/-- The `render` of tree.rs:132, with a note after each field name. -/
def render (r : Rule) (note : Nat → String) (v : Nat) : String :=
  let inner := (r.children v).attach.map fun c => r.render note c.1
  let core :=
    match r.shape v with
    | .assignment field => field ++ note v
    | .group => "(" ++ " ".intercalate inner ++ ")"
    | .alternative => "(" ++ " | ".intercalate inner ++ ")"
    | .action => guardText (r.spec v)
  core ++ (r.spec v).cardinality
termination_by r.size - v
decreasing_by exact sub_lt_of_mem_children c.2

def excerpt (r : Rule) (v : Nat) : String := r.render (fun _ => "") v

/-- A rule as it is printed (tree.rs:166). -/
def text (r : Rule) : String := r.name ++ ": " ++ r.excerpt r.root

end RuleCardinality.Rule
