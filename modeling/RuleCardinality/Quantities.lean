import Std.Data.ExtTreeMap
import RuleCardinality.Rule.Order
import RuleCardinality.Rule.Render
import RuleCardinality.Sum
import RuleCardinality.Window

/-!
# Quantities

How often each field of an object is set, and how that count is shared out among the nodes that write
the field. A node without a share is unassigned, which differs from a share of zero. Both maps are
extensional: two states with the same content are equal. Shares of numbers that are not nodes of the
rule at hand are never looked at.
-/

namespace RuleCardinality

/-- The `QuantityState` of quantities.rs:16. -/
structure Quantities where
  counts : Std.ExtTreeMap String Nat := ∅
  /-- How often each assigned node fires. -/
  shares : Std.ExtTreeMap Nat Nat := ∅

namespace Quantities

def empty : Quantities where

/-- The `field_count` of quantities.rs:26. -/
def count? (q : Quantities) (field : String) : Option Nat := q.counts[field]?

/-- The count of a field, zero if none is recorded. -/
def count (q : Quantities) (field : String) : Nat := (q.count? field).getD 0

/-- The `quantity` of quantities.rs:39. -/
def share? (q : Quantities) (v : Nat) : Option Nat := q.shares[v]?

/-- The share of a node, zero if it has none. -/
def share (q : Quantities) (v : Nat) : Nat := (q.share? v).getD 0

/-- The share of a node as a count, undefined if it has none (`assignment_count`, quantities.rs:44). -/
def shareCount (q : Quantities) (v : Nat) : Count := (q.share? v).elim .undefined .finite

/-- The `set_field_count` of quantities.rs:30. -/
def record (q : Quantities) (field : String) (n : Nat) : Quantities :=
  { q with counts := q.counts.insert field n }

/-- The `set_quantity` of quantities.rs:48. -/
def assign (q : Quantities) (v n : Nat) : Quantities := { q with shares := q.shares.insert v n }

def assignAll (q : Quantities) (shares : List (Nat × Nat)) : Quantities :=
  shares.foldl (fun q s => q.assign s.1 s.2) q

@[simp] theorem counts_assign (q : Quantities) (v n : Nat) : (q.assign v n).counts = q.counts := rfl

@[simp] theorem shares_record (q : Quantities) (f : String) (n : Nat) :
    (q.record f n).shares = q.shares := rfl

theorem share?_assign (q : Quantities) (v n x : Nat) :
    (q.assign v n).share? x = if v = x then some n else q.share? x := by
  simp [share?, assign, Std.ExtTreeMap.getElem?_insert]

theorem count?_record (q : Quantities) (f g : String) (n : Nat) :
    (q.record f n).count? g = if f = g then some n else q.count? g := by
  simp [count?, record, Std.ExtTreeMap.getElem?_insert]

@[ext] theorem ext {a b : Quantities} (hc : ∀ f, a.count? f = b.count? f)
    (hs : ∀ v, a.share? v = b.share? v) : a = b := by
  rcases a with ⟨ac, as⟩
  rcases b with ⟨bc, bs⟩
  obtain rfl : ac = bc := Std.ExtTreeMap.ext_getElem? hc
  obtain rfl : as = bs := Std.ExtTreeMap.ext_getElem? hs
  rfl

/-! ## Reading a state over a rule -/

/-- Whether every assigned number is a node of the rule. -/
def within (q : Quantities) (r : Rule) : Bool := q.shares.keys.all r.has

/-- The assigned nodes, in ascending order. -/
def assigned (q : Quantities) (r : Rule) : List Nat := r.ids.filter fun v => (q.share? v).isSome

/-- The assigned nodes that write a field. -/
def writers (q : Quantities) (r : Rule) (field : String) : List Nat :=
  (q.assigned r).filter fun v => r.field? v == some field

/-- The fields that assigned nodes write, in ascending order. -/
def fields (q : Quantities) (r : Rule) : List String :=
  (Std.ExtTreeSet.ofList ((q.assigned r).filterMap r.field?)).toList

/-- The `group_by_field` of quantities.rs:62. -/
def groups (q : Quantities) (r : Rule) : List (String × List Nat) :=
  (q.fields r).map fun field => (field, q.writers r field)

/-- What the shares of the nodes that write a field add up to. -/
def total (q : Quantities) (r : Rule) (field : String) : Nat :=
  sumOf q.share (q.writers r field)

/-- The first field whose shares do not add up to its count (`consistency_check`, quantities.rs:79). -/
def fault? (q : Quantities) (r : Rule) : Option Fault :=
  (q.fields r).findSome? fun field =>
    if q.total r field = q.count field then none
    else some (.unevenShares r.name field (q.count field) (q.total r field))

/-- The part of the rule around the assigned nodes, each field followed by its share and, where there is
one, its window (`render`, quantities.rs:102). -/
def render (q : Quantities) (r : Rule) (window : Nat → Option Window) : String :=
  match q.assigned r with
  | [] => ""
  | v :: vs =>
    r.render
      (fun x => (q.share? x).elim "" fun n =>
        ":" ++ toString n ++ (window x).elim "" Window.text)
      (r.commonOf (v :: vs))

end Quantities

end RuleCardinality
