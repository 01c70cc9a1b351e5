import RuleCardinality.View.Range

/-!
# The greedy split

Before the search, each field's count is poured over the nodes that compete for it, in dependency
order. Minimums are met first and the rest is filled in up to the maximums. What is left after that is
poured once more within the hard windows, the nodes with the largest shares first, and what is left
even then goes to the first of them.
-/

namespace RuleCardinality.View

/-- The fields whose counts are shared out by search, and the nodes that compete for each. -/
abbrev Rivals := Std.ExtTreeMap String (List Nat)

/-- Adds to the share of a node as much of the budget as `room` allows. -/
def pour (room : Nat → Nat) (s : Quantities × Nat) (v : Nat) : Quantities × Nat :=
  let n := min (room (s.1.share v)) s.2
  (s.1.assign v (s.1.share v + n), s.2 - n)

/-- Raises each node in turn to what its window requires (distributor.rs:274-281). -/
def raise (limits : Quantities → Nat → Window) (nodes : List Nat) (s : Quantities × Nat) :
    Quantities × Nat :=
  nodes.foldl (fun s v => pour (fun n => (limits s.1 v).required - n) s v) s

/-- Fills each node in turn up to the end of its window, while there is something left
(distributor.rs:282-291). -/
def fill (limits : Quantities → Nat → Window) (nodes : List Nat) (s : Quantities × Nat) :
    Quantities × Nat :=
  nodes.foldl (fun s v => if s.2 = 0 then s else pour (limits s.1 v).headroom s v) s

/-- Shares out a budget within some limits; the second part is what could not be placed (`distribute`,
distributor.rs:264). -/
def distribute (limits : Quantities → Nat → Window) (nodes : List Nat) (s : Quantities × Nat) :
    Quantities × Nat :=
  fill limits nodes (raise limits nodes s)

def topUp (nodes : List Nat) (s : Quantities × Nat) : Quantities :=
  match nodes with
  | [] => s.1
  | v :: _ => if s.2 = 0 then s.1 else s.1.assign v (s.1.share v + s.2)

/-- Nodes with the largest measure first; nodes of one measure keep their order. -/
def descending (measure : Nat → Nat) (nodes : List Nat) : List Nat :=
  nodes.mergeSort fun a b => measure b ≤ measure a

/-- The greedy split of one field (distributor.rs:240-258). -/
def settle (w : View) (q : Quantities) (field : String) (nodes : List Nat) : Quantities :=
  let ordered := w.rule.dependencyOrder nodes
  let s := distribute (fun q v => w.window q (some field) v) ordered (q, q.count field)
  if s.2 = 0 then s.1
  else
    let rich := descending s.1.share ordered
    topUp rich (distribute (fun _ v => w.hardWindow v) rich s)

/-- The greedy split of all fields, one after the other in the order of their names (`initial_solution`,
distributor.rs:238). -/
def greedy (w : View) (q : Quantities) (rivals : Rivals) : Quantities :=
  rivals.toList.foldl (fun q r => w.settle q r.1 r.2) q

end RuleCardinality.View
