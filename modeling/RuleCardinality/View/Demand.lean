import RuleCardinality.Quantities
import RuleCardinality.View.Basic

/-!
# What shares say about the nodes above them

Read from below, the shares of the assignments under a node say how often the node must fire (its
`demand`) and how often it can fire (its `supply`). A node of which nothing is assigned demands an
undefined count. A node is `unavailable` if it cannot fire at all because a mandatory assignment in it,
of a field other than the one in question, has the share zero, or because a guard rejects the type.
-/

namespace RuleCardinality.View

/-- The fewest firings of a node that account for the shares below it; a repeatable node accounts for any
of them in one (`min_for_child`, bounds.rs:252). -/
def demand (w : View) (q : Quantities) (v : Nat) : Count :=
  if w.blocked v then 0
  else
    let below := (w.rule.children v).attach.map fun c => w.demand q c.1
    let once (n : Count) : Count := if w.rule.repeatable v && 1 < n then 1 else n
    match w.rule.shape v with
    | .assignment _ => once (q.shareCount v)
    | .group => once (below.foldl max .undefined)
    | .alternative => once (below.foldl .plus .undefined)
    | .action => 1
termination_by w.rule.size - v
decreasing_by exact Rule.sub_lt_of_mem_children c.2

theorem demand_eq (w : View) (q : Quantities) (v : Nat) :
    w.demand q v =
      if w.blocked v then 0
      else
        let once (n : Count) : Count := if w.rule.repeatable v && 1 < n then 1 else n
        match w.rule.shape v with
        | .assignment _ => once (q.shareCount v)
        | .group => once (((w.rule.children v).map (w.demand q)).foldl max .undefined)
        | .alternative => once (((w.rule.children v).map (w.demand q)).foldl .plus .undefined)
        | .action => 1 := by
  rw [demand]; simp

/-- The most firings of a node that the shares below it allow (`max_for_child`, bounds.rs:352). -/
def supply (w : View) (q : Quantities) (v : Nat) : Count :=
  if w.blocked v then 0
  else if w.rule.optional v then .unbounded
  else
    let below := (w.rule.children v).attach.map fun c => w.supply q c.1
    match w.rule.shape v with
    | .assignment _ => q.shareCount v
    | .group => below.foldl .narrow .unbounded
    | .alternative => below.foldl .plus .undefined
    | .action => .unbounded
termination_by w.rule.size - v
decreasing_by exact Rule.sub_lt_of_mem_children c.2

theorem supply_eq (w : View) (q : Quantities) (v : Nat) :
    w.supply q v =
      if w.blocked v then 0
      else if w.rule.optional v then .unbounded
      else
        match w.rule.shape v with
        | .assignment _ => q.shareCount v
        | .group => ((w.rule.children v).map (w.supply q)).foldl .narrow .unbounded
        | .alternative => ((w.rule.children v).map (w.supply q)).foldl .plus .undefined
        | .action => .unbounded := by
  rw [supply]; simp

/-- Whether the mandatory part of a node needs something that is not there: an assignment of a field
other than `field` whose share is zero, or an action whose guard rejects the type
(`contains_unavailable_field`, bounds.rs:398). -/
def unavailable (w : View) (q : Quantities) (field : String) (v : Nat) : Bool :=
  !w.rule.optional v &&
    match w.rule.shape v with
    | .assignment own => own != field && q.share? v == some 0
    | .group => (w.rule.children v).attach.any fun c => w.unavailable q field c.1
    | .alternative => (w.rule.children v).attach.all fun c => w.unavailable q field c.1
    | .action => !w.applies v
termination_by w.rule.size - v
decreasing_by all_goals exact Rule.sub_lt_of_mem_children c.2

theorem unavailable_eq (w : View) (q : Quantities) (field : String) (v : Nat) :
    w.unavailable q field v = (!w.rule.optional v &&
      match w.rule.shape v with
      | .assignment own => own != field && q.share? v == some 0
      | .group => (w.rule.children v).any (w.unavailable q field)
      | .alternative => (w.rule.children v).all (w.unavailable q field)
      | .action => !w.applies v) := by
  rw [unavailable]; simp

end RuleCardinality.View
